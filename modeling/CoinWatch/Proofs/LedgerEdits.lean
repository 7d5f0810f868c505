import CoinWatch.Proofs.Commits

/-! # The last edit tells

A ledger is edited in three ways: a coin is inserted, an outpoint is removed, or what a scan found
is applied.  An edit touches some outpoints, and what it leaves there does not depend on the ledger
(`Ledger.get_edit`).  So after any history of edits it is the last one to touch an outpoint that
tells what is held there (`settled`), and the number of coins and the answers to queries follow from
this (`Ledger.settled_after_edits`).  In which order the two collections of an application are gone
through does not show (`Edit.turns_iff`).

Where the last one tells, two edits can be exchanged just if they leave the same wherever both touch
(`Ledger.edit_comm_iff`).  For two applications this says which outpoints may be in both
(`Ledger.apply_twice_and_exchanged`). -/

namespace CoinWatch

/-- An edit of a ledger. -/
inductive Edit where
  | insert (c : Coin)
  | remove (o : OutPoint)
  | apply (created : Coins) (spent : OutPoints)

namespace Edit

/-- The edit has something to say about the outpoint. -/
def Touches (e : Edit) (o : OutPoint) : Prop :=
  match e with
  | insert c => c.outpoint = o
  | remove k => k = o
  | apply created spent => o ∈ created ∨ o ∈ spent

instance (e : Edit) (o : OutPoint) : Decidable (e.Touches o) :=
  match e with
  | insert c => inferInstanceAs (Decidable (c.outpoint = o))
  | remove k => inferInstanceAs (Decidable (k = o))
  | apply created spent => inferInstanceAs (Decidable (o ∈ created ∨ o ∈ spent))

/-- What the edit leaves at an outpoint that it touches.  To be spent outweighs to be created. -/
def leaves (e : Edit) (o : OutPoint) : Option Coin :=
  match e with
  | insert c => some c
  | remove _ => none
  | apply created spent => if o ∈ spent then none else created[o]?

end Edit

namespace Ledger

/-- The ledger after an edit. -/
def edit (l : Ledger) : Edit → Ledger
  | .insert c => l.insert c
  | .remove o => (l.remove o).2
  | .apply created spent => l.apply created spent

/-- The ledger after some edits, one after another. -/
def editAll (l : Ledger) (es : List Edit) : Ledger := es.foldl edit l

variable {l : Ledger} {e e₁ e₂ : Edit} {o : OutPoint}

/-- An edit tells what is held at the outpoints that it touches, and leaves the others alone. -/
theorem get_edit (l : Ledger) (e : Edit) (o : OutPoint) :
    (l.edit e).get o = if e.Touches o then e.leaves o else l.get o := by
  cases e with
  | insert c => exact get_insert l c o
  | remove k => rw [edit, remove_eq]; exact get_erase l k o
  | apply created spent =>
    have htouches : (Edit.apply created spent).Touches o ↔ created[o]?.isSome ∨ o ∈ spent := by
      rw [← Std.ExtTreeMap.mem_iff_isSome_getElem?]
      rfl
    simp only [edit, get_apply, Edit.leaves, htouches]
    by_cases hs : o ∈ spent
    · simp [hs]
    · cases created[o]? <;> simp [hs]

/-! ### The order within an edit -/

/-- Entries that are filed one after another and outpoints that are then erased one after another
make an application, whatever their order. -/
theorem foldl_erase_insertMany (l : Ledger) {created : Coins} {spent : OutPoints}
    {entries : List (OutPoint × Coin)} {outpoints : List OutPoint}
    (hentries : entries.Perm created.toList) (houtpoints : outpoints.Perm spent.toList) :
    outpoints.foldl erase ⟨l.coins.insertMany entries⟩ = l.apply created spent := by
  apply ext_get
  intro o
  have hspent : o ∈ outpoints ↔ o ∈ spent :=
    houtpoints.mem_iff.trans Std.ExtTreeSet.mem_toList
  simp only [get_foldl_erase, get_apply, hspent]
  congr 1
  have hmem (c : Coin) : (o, c) ∈ entries ↔ created[o]? = some c :=
    hentries.mem_iff.trans Std.ExtTreeMap.mem_toList_iff_getElem?_eq_some
  have hdistinct : entries.Pairwise fun a b => ¬ compare a.1 b.1 = .eq :=
    (hentries.pairwise_iff fun h => mt Std.OrientedCmp.eq_symm h).mpr
      Std.ExtTreeMap.distinct_keys_toList
  cases hc : created[o]? with
  | some c =>
    exact Std.ExtTreeMap.getElem?_insertMany_list_of_mem Std.ReflCmp.compare_self hdistinct
      ((hmem c).mpr hc)
  | none =>
    refine Std.ExtTreeMap.getElem?_insertMany_list_of_contains_eq_false ?_
    rw [← Bool.not_eq_true, List.contains_iff_mem, List.mem_map]
    rintro ⟨⟨k, c⟩, hentry, rfl⟩
    rw [hmem c, hc] at hentry
    cases hentry

end Ledger

namespace Edit

/-- An edit turns one ledger into another.  An application goes through its two collections in any
order. -/
inductive Turns : Edit → Ledger → Ledger → Prop
  | insert (l : Ledger) (c : Coin) : Turns (.insert c) l (l.insert c)
  | remove (l : Ledger) (o : OutPoint) : Turns (.remove o) l (l.remove o).2
  | apply (l : Ledger) {created : Coins} {spent : OutPoints} {entries : List (OutPoint × Coin)}
      {outpoints : List OutPoint} (hentries : entries.Perm created.toList)
      (houtpoints : outpoints.Perm spent.toList) :
      Turns (.apply created spent) l (outpoints.foldl Ledger.erase ⟨l.coins.insertMany entries⟩)

/-- Edits turn one ledger into another, one after another. -/
inductive AllTurn : List Edit → Ledger → Ledger → Prop
  | nil (l : Ledger) : AllTurn [] l l
  | cons {e : Edit} {es : List Edit} {l m n : Ledger} (hfirst : e.Turns l m)
      (hrest : AllTurn es m n) : AllTurn (e :: es) l n

variable {e : Edit} {es : List Edit} {l l' : Ledger}

theorem turns_iff : e.Turns l l' ↔ l' = l.edit e := by
  constructor
  · intro h
    cases h with
    | insert | remove => rfl
    | apply _ hentries houtpoints => exact l.foldl_erase_insertMany hentries houtpoints
  · rintro rfl
    cases e with
    | insert c => exact .insert l c
    | remove o => exact .remove l o
    | apply created spent =>
      rw [Ledger.edit, ← l.foldl_erase_insertMany (.refl _) (.refl _)]
      exact .apply l (.refl _) (.refl _)

theorem allTurn_iff : AllTurn es l l' ↔ l' = l.editAll es := by
  induction es generalizing l with
  | nil =>
    constructor
    · intro h
      cases h
      rfl
    · rintro rfl
      exact .nil _
  | cons e es ih =>
    constructor
    · intro h
      cases h with
      | cons hfirst hrest =>
        rw [turns_iff] at hfirst
        rwa [ih, hfirst] at hrest
    · rintro rfl
      exact .cons (turns_iff.mpr rfl) (ih.mpr rfl)

end Edit

/-! ### Histories -/

/-- What the last edit of a history to touch the outpoint has left there. -/
def settled (history : List Edit) (o : OutPoint) : Option Coin :=
  (history.findRev? (·.Touches o)).bind (·.leaves o)

theorem settled_append (history : List Edit) (e : Edit) (o : OutPoint) :
    settled (history ++ [e]) o = if e.Touches o then e.leaves o else settled history o := by
  simp only [settled, List.findRev?_eq_find?_reverse, List.reverse_append, List.reverse_singleton,
    List.singleton_append, List.find?_cons]
  by_cases h : e.Touches o <;> simp [h]

namespace Ledger

theorem get_editAll (history : List Edit) (o : OutPoint) :
    (empty.editAll history).get o = settled history o := by
  induction history using List.reverseRecOn with
  | nil => exact get_empty o
  | append_singleton history e ih =>
    rw [editAll, List.foldl_append, List.foldl_cons, List.foldl_nil, get_edit, settled_append]
    rw [← ih, editAll]

theorem values_eq_filterMap (l : Ledger) : l.coins.values = l.outpoints.filterMap l.get := by
  have hget : ∀ x ∈ l.coins.toList, l.get x.1 = some x.2 :=
    fun x hx => Std.ExtTreeMap.mem_toList_iff_getElem?_eq_some.mp hx
  rw [values_eq_map_toList, outpoints, ← Std.ExtTreeMap.map_fst_toList_eq_keys, List.filterMap_map]
  rw [← List.filterMap_eq_map]
  exact (List.filterMap_congr hget).symm

/-- **The last edit tells.**  Whatever the history of a ledger that was empty at first, and in
whatever order the collections applied were gone through, there is one ledger that it leads to.
What is got there at an outpoint, and what removing it would return, is what the last edit to touch the
outpoint has left.  The size is the number of outpoints at which that is a coin, and a query lists
each of these coins once if its owner is named, and nothing else. -/
theorem settled_after_edits (history : List Edit) :
    let l := empty.editAll history
    (∀ l', Edit.AllTurn history empty l' ↔ l' = l) ∧
    (∀ o, l.get o = settled history o) ∧
    (∀ o, (l.remove o).1 = settled history o) ∧
    ∃ held : List OutPoint, held.Nodup ∧ (∀ o, o ∈ held ↔ (settled history o).isSome) ∧
      l.size = held.length ∧
      ∀ owners, l.query owners =
        (held.filterMap (settled history)).filter fun c => owners.contains c.address := by
  intro l
  have hget : l.get = settled history := funext (get_editAll history)
  refine ⟨fun l' => Edit.allTurn_iff, congrFun hget, fun o => ?_, l.outpoints,
    l.nodup_outpoints, fun o => ?_, l.length_outpoints.symm, fun owners => ?_⟩
  · rw [remove_eq, hget]
  · rw [mem_outpoints, hget]
  · rw [query, values_eq_filterMap, hget]

/-! ### Exchanging edits -/

variable {e₁ e₂ : Edit} {c₁ c₂ : Coins} {s₁ s₂ : OutPoints}

/-- On whatever ledger, two edits can be exchanged just if they leave the same wherever both
touch. -/
theorem edit_comm_iff (l : Ledger) : (l.edit e₁).edit e₂ = (l.edit e₂).edit e₁ ↔
    ∀ o, e₁.Touches o → e₂.Touches o → e₁.leaves o = e₂.leaves o := by
  constructor
  · intro h o h₁ h₂
    have hget : ((l.edit e₁).edit e₂).get o = ((l.edit e₂).edit e₁).get o := by rw [h]
    rw [get_edit, if_pos h₂, get_edit, if_pos h₁] at hget
    exact hget.symm
  · intro h
    apply ext_get
    intro o
    simp only [get_edit]
    by_cases h₁ : e₁.Touches o
    · by_cases h₂ : e₂.Touches o
      · rw [if_pos h₂, if_pos h₁, h o h₁ h₂]
      · rw [if_neg h₂, if_pos h₁, if_pos h₁]
    · rw [if_neg h₁, if_neg h₁]

/-- Two applications leave the same at an outpoint that both touch if both spend it, or neither does
and they create the same record there. -/
theorem leaves_apply_eq_iff {o : OutPoint} (h₁ : o ∈ c₁ ∨ o ∈ s₁) (h₂ : o ∈ c₂ ∨ o ∈ s₂) :
    (Edit.apply c₁ s₁).leaves o = (Edit.apply c₂ s₂).leaves o ↔
      (o ∈ s₁ ∧ o ∈ s₂) ∨ (o ∉ s₁ ∧ o ∉ s₂ ∧ ∃ c, c₁[o]? = some c ∧ c₂[o]? = some c) := by
  -- Where an application does not spend what it touches, it has a record of it.
  have hrecord {created : Coins} {spent : OutPoints} (h : o ∈ created ∨ o ∈ spent)
      (hs : o ∉ spent) : ∃ c, created[o]? = some c := by
    rw [← Option.isSome_iff_exists, ← Std.ExtTreeMap.mem_iff_isSome_getElem?]
    exact h.resolve_right hs
  simp only [Edit.leaves]
  by_cases hs₁ : o ∈ s₁
  · by_cases hs₂ : o ∈ s₂
    · simp [hs₁, hs₂]
    · obtain ⟨c, hc⟩ := hrecord h₂ hs₂
      simp [hs₁, hs₂, hc]
  · obtain ⟨c, hc⟩ := hrecord h₁ hs₁
    by_cases hs₂ : o ∈ s₂
    · simp [hs₁, hs₂, hc]
    · obtain ⟨c', hc'⟩ := hrecord h₂ hs₂
      simp [hs₁, hs₂, hc, hc', eq_comm]

/-- **Applying twice, and in the other order.**  What is applied twice is applied once.  Two
applications come to the same in either order, on all ledgers, just if each outpoint that both touch
is spent by both, or is spent by neither and has the same record in both. -/
theorem apply_twice_and_exchanged (c₁ c₂ : Coins) (s₁ s₂ : OutPoints) :
    (∀ l : Ledger, (l.apply c₁ s₁).apply c₁ s₁ = l.apply c₁ s₁) ∧
    ((∀ l : Ledger, (l.apply c₁ s₁).apply c₂ s₂ = (l.apply c₂ s₂).apply c₁ s₁) ↔
      ∀ o, o ∈ c₁ ∨ o ∈ s₁ → o ∈ c₂ ∨ o ∈ s₂ →
        (o ∈ s₁ ∧ o ∈ s₂) ∨ (o ∉ s₁ ∧ o ∉ s₂ ∧ ∃ c, c₁[o]? = some c ∧ c₂[o]? = some c)) := by
  refine ⟨fun l => l.apply_apply c₁ s₁, ?_⟩
  have hexchange (l : Ledger) := @edit_comm_iff (.apply c₁ s₁) (.apply c₂ s₂) l
  constructor
  · intro h o h₁ h₂
    exact (leaves_apply_eq_iff h₁ h₂).mp ((hexchange .empty).mp (h .empty) o h₁ h₂)
  · intro h l
    exact (hexchange l).mpr fun o h₁ h₂ => (leaves_apply_eq_iff h₁ h₂).mpr (h o h₁ h₂)

end Ledger

namespace Sample

def outpoint (vout : UInt32) : OutPoint := ⟨fundingId, vout⟩

def coin (vout : UInt32) (value : UInt64) : Coin := ⟨outpoint vout, value, "first", script 1, 1⟩

/-- The record of the first output is filed under the third outpoint, and what is created at the
second is spent at once. -/
def edits : List Edit :=
  [.insert (coin 0 5000),
    .apply (.ofList [(outpoint 2, coin 0 5000), (outpoint 1, coin 1 700)]) (.ofList [outpoint 1]),
    .remove (outpoint 0)]

theorem settled_edits : settled edits (outpoint 0) = none ∧ settled edits (outpoint 1) = none ∧
    settled edits (outpoint 2) = some (coin 0 5000) := by
  decide +kernel

/-- Of the three outpoints only the one under which the record was filed last holds it. -/
theorem held_after_edits : (Ledger.empty.editAll edits).get (outpoint 0) = none ∧
    (Ledger.empty.editAll edits).get (outpoint 1) = none ∧
    ((Ledger.empty.editAll edits).remove (outpoint 2)).1 = some (coin 0 5000) := by
  obtain ⟨_, hget, hremove, _⟩ := Ledger.settled_after_edits edits
  obtain ⟨hfirst, hsecond, hthird⟩ := settled_edits
  exact ⟨(hget _).trans hfirst, (hget _).trans hsecond, (hremove _).trans hthird⟩

/-- Two records of one outpoint. -/
def cheap : Coins := .ofList [(outpoint 0, coin 0 700)]

def dear : Coins := .ofList [(outpoint 0, coin 0 5000)]

/-- Two records of one outpoint are not applied in either order alike, unless both strike it out. -/
theorem exchanged_if_spent :
    (¬ ∀ l : Ledger, (l.apply cheap ∅).apply dear ∅ = (l.apply dear ∅).apply cheap ∅) ∧
    ∀ l : Ledger, (l.apply cheap (.ofList [outpoint 0])).apply dear (.ofList [outpoint 0]) =
      (l.apply dear (.ofList [outpoint 0])).apply cheap (.ofList [outpoint 0]) := by
  refine ⟨fun h => ?_, ?_⟩
  · have hcheap : cheap[outpoint 0]? = some (coin 0 700) := by decide +kernel
    have hdear : dear[outpoint 0]? = some (coin 0 5000) := by decide +kernel
    obtain ⟨_, hiff⟩ := Ledger.apply_twice_and_exchanged cheap dear ∅ ∅
    rcases hiff.mp h (outpoint 0) (by decide +kernel) (by decide +kernel) with
      ⟨hspent, _⟩ | ⟨_, _, c, hc, hc'⟩
    · exact absurd hspent (by decide +kernel)
    · rw [hcheap] at hc
      rw [hdear, ← hc] at hc'
      exact absurd hc' (by decide +kernel)
  · refine (Ledger.apply_twice_and_exchanged cheap dear _ _).2.mpr fun o h₁ h₂ => .inl ?_
    have hmem : o ∈ cheap → o ∈ (Std.ExtTreeSet.ofList [outpoint 0] : OutPoints) := by
      simp [cheap]
    exact ⟨h₁.elim hmem id, h₁.elim hmem id⟩

end Sample

end CoinWatch
