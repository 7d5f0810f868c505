import CoinWatch.Address.Basic
import CoinWatch.Chain.Block

/-! # Failures

Why a request is refused or given up.  Trouble at a single height is not among them: it is
reported with the result of a scan. -/

namespace CoinWatch

/-- Why a request has no result. -/
inductive Failure where
  /-- The text is not an address of the network. -/
  | invalidAddress (text : String) (fault : AddressFault)
  /-- Nobody registered the address. -/
  | notRegistered (text : String)
  /-- A lookup names no address. -/
  | missingAddress
  /-- The text does not name a transaction. -/
  | invalidTxid (text : String) (fault : HashFault)
  /-- No block from `start` on was seen to create the output. -/
  | notFound (outpoint : OutPoint) (start : Height)
  /-- There is nothing to scan for. -/
  | noScripts
  /-- The token fired before `height` was looked at. -/
  | cancelled (height : Height)
  /-- The name is not that of a network. -/
  | unknownNetwork (name : String)
  /-- There is nothing that could run a rescan in the background. -/
  | noRuntime
  /-- The source failed, outside the walk over the heights. -/
  | source (text : String)
deriving DecidableEq, Repr

/-- The wording of a failure. -/
def Failure.message : Failure → String
  | invalidAddress text fault => "invalid address " ++ text ++ ": " ++ fault.message
  | notRegistered text => "address " ++ text ++ " is not registered"
  | missingAddress => "address is required: compact block filters match on scripts, not outpoints"
  | invalidTxid text fault => "invalid txid " ++ text ++ ": " ++ fault.message
  | notFound outpoint start =>
    "utxo " ++ outpoint.text ++ " not found: ensure start_height (" ++ toString start
      ++ ") is at or before the block containing the transaction"
  | noScripts => "no valid scripts to scan for"
  | cancelled height => "scan cancelled before height " ++ toString height
  | unknownNetwork name => "unknown network: " ++ name
  | noRuntime => "rescan needs a running tokio runtime"
  | source text => text

/-! ### Results -/

section results

variable {ε α β : Type} {x : Except ε α} {f : α → β}

theorem map_eq_ok_iff {b : β} : x.map f = .ok b ↔ ∃ a, x = .ok a ∧ f a = b := by
  cases x with
  | ok a => simp [Except.map]
  | error e => simp [Except.map]

theorem map_eq_error_iff {e : ε} : x.map f = .error e ↔ x = .error e := by
  cases x with
  | ok a => simp [Except.map]
  | error e => simp [Except.map]

end results

end CoinWatch
