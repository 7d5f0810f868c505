import CoinWatch.Filter.Query
import CoinWatch.Scan.Source

/-! # Probing one height

At a height, the hash is asked for, then the filter, and only if the filter hits, the block.
Whatever goes wrong on the way makes the height a skipped one, with the first thing that went
wrong as the reason. -/

namespace CoinWatch

/-- Why a height was not looked at. -/
inductive SkipReason where
  | noBlockHash
  | noFilter
  | filterUnreadable
  | blockUnavailable
  | blockUndecodable
deriving DecidableEq, Repr

/-- What a height yields. -/
inductive Probe where
  /-- The filter has none of the scripts. -/
  | miss
  /-- The height could not be looked at. -/
  | skipped (reason : SkipReason)
  /-- The filter hits, and this is the block. -/
  | hit (block : Block)
deriving DecidableEq, Repr

/-- Asks for the block that a filter hit calls for. -/
def Source.fetch (src : Source) (x : BlockHash) : Traced Probe := do
  match ← src.askBlock x with
  | .error _ => pure (.skipped .blockUnavailable)
  | .ok bytes =>
    match Block.decode? bytes with
    | none => pure (.skipped .blockUndecodable)
    | some block => pure (.hit block)

/-- Asks a source about some scripts at a height. -/
def Source.probe (src : Source) (scripts : List Script) (h : Height) : Traced Probe := do
  match ← src.askHash h with
  | .error _ => pure (.skipped .noBlockHash)
  | .ok x =>
    let filter := (← src.askFilter x).toOption.join
    match Filter.check x filter scripts with
    | .miss => pure .miss
    | .absent => pure (.skipped .noFilter)
    | .unreadable => pure (.skipped .filterUnreadable)
    | .hit => src.fetch x

end CoinWatch
