import CoinWatch.Chain.Block
import Std.Data.ExtTreeMap
import Std.Data.ExtTreeSet

/-! # The ledger

The unspent coins that are known, filed by outpoint.  The result of a scan enters in one step
(`apply`): all coins created, then all outpoints spent are struck out, so an outpoint that is in
both is gone.  `get_apply` says so for every outpoint. -/

namespace CoinWatch

/-- An output that pays a watched script, with the address that owns the script and the height
of the block that created it. -/
structure Coin where
  outpoint : OutPoint
  value : UInt64
  address : String
  script : Script
  height : Height
deriving DecidableEq, Repr

/-- Coins filed by outpoint. -/
abbrev Coins := Std.ExtTreeMap OutPoint Coin

/-- A set of outpoints. -/
abbrev OutPoints := Std.ExtTreeSet OutPoint

/-- The coins that are held. -/
structure Ledger where
  coins : Coins

namespace Ledger

/-- Nothing is held. -/
def empty : Ledger := ⟨∅⟩

/-- The coin held at an outpoint. -/
def get (l : Ledger) (o : OutPoint) : Option Coin := l.coins[o]?

/-- Holds a coin, at its own outpoint. -/
def insert (l : Ledger) (c : Coin) : Ledger := ⟨l.coins.insert c.outpoint c⟩

/-- Forgets an outpoint. -/
def erase (l : Ledger) (o : OutPoint) : Ledger := ⟨l.coins.erase o⟩

/-- Forgets an outpoint, and tells what was held there. -/
def remove (l : Ledger) (o : OutPoint) : Option Coin × Ledger :=
  match l.get o with
  | some c => (some c, l.erase o)
  | none => (none, l)

/-- Holds all that was created, and then forgets all that was spent. -/
def apply (l : Ledger) (created : Coins) (spent : OutPoints) : Ledger :=
  spent.foldl erase ⟨l.coins ∪ created⟩

/-- The held coins that belong to one of the owners. -/
def query (l : Ledger) (owners : List String) : List Coin :=
  l.coins.values.filter fun c => owners.contains c.address

/-- How many coins are held. -/
def size (l : Ledger) : Nat := l.coins.size

/-- Nothing is held. -/
def isEmpty (l : Ledger) : Bool := l.coins.isEmpty

theorem ext_get {l m : Ledger} (h : ∀ o, l.get o = m.get o) : l = m := by
  cases l; cases m
  congr 1
  exact Std.ExtTreeMap.ext_getElem? h

@[simp] theorem get_empty (o : OutPoint) : empty.get o = none := by simp [empty, get]

theorem get_insert (l : Ledger) (c : Coin) (o : OutPoint) :
    (l.insert c).get o = if c.outpoint = o then some c else l.get o := by
  simp [insert, get, Std.ExtTreeMap.getElem?_insert]

theorem get_erase (l : Ledger) (k o : OutPoint) :
    (l.erase k).get o = if k = o then none else l.get o := by
  simp [erase, get, Std.ExtTreeMap.getElem?_erase]

theorem remove_eq (l : Ledger) (o : OutPoint) : l.remove o = (l.get o, l.erase o) := by
  unfold remove
  cases h : l.get o with
  | some c => rfl
  | none =>
    have herase : l.erase o = l := by
      apply ext_get
      intro k
      rw [get_erase]
      split
      · next heq => rw [← heq, h]
      · rfl
    rw [herase]

theorem get_foldl_erase (ks : List OutPoint) (l : Ledger) (o : OutPoint) :
    (ks.foldl erase l).get o = if o ∈ ks then none else l.get o := by
  induction ks generalizing l with
  | nil => simp
  | cons k ks ih =>
    rw [List.foldl_cons, ih, get_erase]
    by_cases h : k = o
    · simp [h]
    · by_cases hm : o ∈ ks
      · simp [hm]
      · simp [hm, h, Ne.symm h]

/-- What is held at an outpoint after a scan's result has entered. -/
theorem get_apply (l : Ledger) (created : Coins) (spent : OutPoints) (o : OutPoint) :
    (l.apply created spent).get o =
      if o ∈ spent then none else created[o]?.or (l.get o) := by
  rw [apply, Std.ExtTreeSet.foldl_eq_foldl_toList, get_foldl_erase]
  simp [get, Std.ExtTreeMap.getElem?_union]

theorem values_eq_map_toList (m : Coins) : m.values = m.toList.map Prod.snd := by
  obtain ⟨⟨q⟩⟩ := m
  induction q using Quotient.ind with
  | _ m =>
    show m.values = (Std.DTreeMap.Const.toList m).map Prod.snd
    unfold Std.DTreeMap.values Std.DTreeMap.Const.toList
    rw [Std.DTreeMap.Internal.Impl.values_eq_map_snd,
      Std.DTreeMap.Internal.Impl.Const.toList_eq_toListModel_map, List.map_map]
    rfl

theorem mem_query {l : Ledger} {owners : List String} {c : Coin} :
    c ∈ l.query owners ↔ (∃ o, l.get o = some c) ∧ c.address ∈ owners := by
  have hvalues : c ∈ l.coins.values ↔ ∃ o, l.get o = some c := by
    rw [values_eq_map_toList, List.mem_map]
    constructor
    · rintro ⟨⟨o, c'⟩, hmem, rfl⟩
      exact ⟨o, Std.ExtTreeMap.mem_toList_iff_getElem?_eq_some.mp hmem⟩
    · rintro ⟨o, ho⟩
      exact ⟨(o, c), Std.ExtTreeMap.mem_toList_iff_getElem?_eq_some.mpr ho, rfl⟩
  rw [query, List.mem_filter, hvalues, List.contains_iff_mem]

/-- If every coin is filed under its own outpoint, a query lists no coin twice. -/
theorem nodup_query {l : Ledger} (h : ∀ o c, l.get o = some c → c.outpoint = o)
    (owners : List String) : (l.query owners).Nodup := by
  have hkeys : l.coins.toList.Pairwise fun x y => x.1 ≠ y.1 :=
    Std.ExtTreeMap.distinct_keys_toList.imp fun hxy heq => hxy (Std.compare_eq_iff_eq.mpr heq)
  rw [query, values_eq_map_toList]
  apply List.Pairwise.filter
  rw [List.pairwise_map]
  apply hkeys.imp_of_mem
  rintro ⟨o, c⟩ ⟨o', c'⟩ hc hc' hne heq
  have ho := h o c (Std.ExtTreeMap.mem_toList_iff_getElem?_eq_some.mp hc)
  have ho' := h o' c' (Std.ExtTreeMap.mem_toList_iff_getElem?_eq_some.mp hc')
  dsimp only at heq hne
  exact hne (by rw [← ho, ← ho', heq])

end Ledger

end CoinWatch
