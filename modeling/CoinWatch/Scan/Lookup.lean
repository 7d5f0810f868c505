import CoinWatch.Scan.Sweep

/-! # Looking up one output

Whether one output is still unspent, and what consumed it if not.  The walk is that of a range
scan for the one script, and it ends with the block that consumes the output.  Creation and
spend are told by outpoint, not by script, and only a transaction after the creating one counts
as the spender. -/

namespace CoinWatch

/-- The answer of a lookup. -/
inductive SpendReport where
  /-- The output was created and nothing was seen to consume it. -/
  | unspent (value : UInt64) (script : Script) (height : Height)
  /-- The input of this index of this transaction consumed it. -/
  | spent (txid : Txid) (input : UInt32) (height : Height)
deriving DecidableEq, Repr

/-- What is known of the output so far. -/
inductive Sighting where
  | unseen
  | created (output : Output) (height : Height)
  | spent (txid : Txid) (input : UInt32) (height : Height)
deriving DecidableEq, Repr

namespace Sighting

/-- Nothing more is to be found out. -/
def isSpent : Sighting → Bool
  | spent .. => true
  | _ => false

/-- Takes in a transaction of a block at height `h`. -/
def addTransaction (target : OutPoint) (h : Height) (s : Sighting) (t : Transaction) : Sighting :=
  match s with
  | unseen =>
    if t.txid = target.txid then
      match t.outputs[target.vout.toNat]? with
      | some output => created output h
      | none => unseen
    else unseen
  | created .. =>
    match t.inputs.findIdx? (·.prevout = target) with
    | some i => spent t.txid (UInt32.ofNat i) h
    | none => s
  | spent .. => s

/-- Takes in what a height yields. -/
def visit (target : OutPoint) (h : Height) (p : Probe) (s : Sighting) : Sighting :=
  match p with
  | .hit b => b.transactions.foldl (addTransaction target h) s
  | _ => s

/-- The report on an output that was looked for from `start` on. -/
def report (target : OutPoint) (start : Height) : Sighting → Except Failure SpendReport
  | unseen => .error (.notFound target start)
  | created output h => .ok (.unspent output.value output.script h)
  | spent txid input h => .ok (.spent txid input h)

end Sighting

/-- Looks up an output that pays `script` at the heights from `start` to `stop`. -/
def lookup (src : Source) (target : OutPoint) (script : Script) (start stop : Height)
    (token : Token) : Traced (Except Failure SpendReport) :=
  (·.bind (Sighting.report target start)) <$>
    sweepRange src [script] (Sighting.visit target) Sighting.isSpent start stop token .unseen

end CoinWatch
