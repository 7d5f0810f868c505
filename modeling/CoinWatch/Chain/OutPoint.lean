import CoinWatch.Hash256

/-! # Outpoints

An outpoint names one output of one transaction.  Outpoints are ordered by transaction and then
by index, which makes them keys of sorted maps. -/

namespace CoinWatch

/-- The output at index `vout` of the transaction `txid`. -/
structure OutPoint where
  txid : Txid
  vout : UInt32
deriving DecidableEq, Repr

namespace OutPoint

instance : Ord OutPoint := ⟨compareLex (compareOn txid) (compareOn vout)⟩

instance : Std.TransOrd OutPoint :=
  inferInstanceAs (Std.TransCmp (compareLex (compareOn txid) (compareOn vout)))

instance : Std.LawfulEqOrd OutPoint where
  eq_of_compare {a b} h := by
    have h' := compareLex_eq_eq.mp h
    have h1 : a.txid = b.txid := Std.LawfulEqOrd.eq_of_compare h'.1
    have h2 : a.vout = b.vout := Std.LawfulEqOrd.eq_of_compare h'.2
    cases a; cases b; simp_all

/-- The transaction's digits, a colon and the index. -/
def text (o : OutPoint) : String := o.txid.text ++ ":" ++ toString o.vout.toNat

end OutPoint

end CoinWatch
