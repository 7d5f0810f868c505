import CoinWatch.Ledger
import CoinWatch.Scan.Sweep
import CoinWatch.Watch.WatchSet

/-! # Range scans

A range scan gathers, from the blocks whose filters hit, the outputs that pay a watched script
and every outpoint that an input consumes, watched or not: a filter hit may stand for an output
created in another range.  At the end, outputs consumed within the range are dropped from the
created ones (`reconcile`).  The order in which the scripts are handed to the filters is left open
(`scanRangeIn`); a scan takes them as the watch set lists them.

Heights that could not be looked at are listed, and do not make the scan fail. -/

namespace CoinWatch

/-- What a scan has found. -/
structure Findings where
  /-- Outputs that pay a watched script. -/
  created : Coins
  /-- Outpoints consumed by an input. -/
  spent : OutPoints
  /-- Heights not looked at, in ascending order. -/
  skipped : List (Height × SkipReason)
  /-- How many blocks were gone through. -/
  matched : Nat

namespace Findings

/-- Nothing yet. -/
def empty : Findings := ⟨∅, ∅, [], 0⟩

/-- Every height was looked at. -/
def isComplete (f : Findings) : Bool := f.skipped.isEmpty

/-- Drops the created outputs that were consumed as well. -/
def reconcile (f : Findings) : Findings :=
  { f with created := f.created.filter fun o _ => !f.spent.contains o }

end Findings

/-- The outputs of a transaction that pay a watched script, as coins of its height. -/
def WatchSet.coinsOf (w : WatchSet) (h : Height) (t : Transaction) : List Coin :=
  let txid := t.txid
  t.outputs.zipIdx.filterMap fun (out, i) =>
    (w.owner? out.script).map fun owner =>
      ⟨⟨txid, UInt32.ofNat i⟩, out.value, owner, out.script, h⟩

namespace Findings

/-- Takes in a transaction of a block at height `h`.  A coin found again replaces the older
record. -/
def addTransaction (w : WatchSet) (h : Height) (f : Findings) (t : Transaction) : Findings :=
  { f with
    created := f.created.insertMany ((w.coinsOf h t).map fun c => (c.outpoint, c))
    spent := f.spent.insertMany (t.inputs.map (·.prevout)) }

/-- Takes in the block at height `h`. -/
def addBlock (w : WatchSet) (h : Height) (f : Findings) (b : Block) : Findings :=
  b.transactions.foldl (addTransaction w h) { f with matched := f.matched + 1 }

/-- Takes in what a height yields. -/
def visit (w : WatchSet) (h : Height) (p : Probe) (f : Findings) : Findings :=
  match p with
  | .miss => f
  | .skipped reason => { f with skipped := f.skipped ++ [(h, reason)] }
  | .hit b => f.addBlock w h b

end Findings

/-- Scans the heights from `start` to `stop` for a watch set that hands its scripts to the filters
in some order. -/
def scanRangeIn (order : WatchSet → List Script) (src : Source) (w : WatchSet) (start stop : Height)
    (token : Token) : Traced (Except Failure Findings) :=
  if w.isEmpty then pure (.error .noScripts)
  else
    (·.map Findings.reconcile) <$>
      sweepRange src (order w) (Findings.visit w) (fun _ => false) start stop token .empty

/-- Scans the heights from `start` to `stop` for a watch set. -/
def scanRange (src : Source) (w : WatchSet) (start stop : Height) (token : Token) :
    Traced (Except Failure Findings) :=
  scanRangeIn WatchSet.scripts src w start stop token

end CoinWatch
