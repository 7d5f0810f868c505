import CoinWatch.Proofs.Walk
import CoinWatch.Tracker

/-! # What passes leave in the ledger

A pass is a scan that ended well.  For one outpoint it matters in two ways: a block that it went
through creates the outpoint as a watched output (`Pass.Creates`), or has an input that consumes
it (`Pass.Consumes`).

The ledger has no memory of a consumed outpoint that it did not hold.  So what a list of passes
leaves behind is told by their order (`get_enterAll_isSome`): an outpoint is held if some pass
creates it and neither that pass nor a later one consumes it (`Current`).  This is not the same as
being created in some pass and consumed in none (`Unspent`): the two differ just where an earlier
pass consumed what a later one brings back (`Revived`). -/

namespace CoinWatch

/-- A scan that ended well: what it watched, and its range. -/
structure Pass where
  watch : WatchSet
  start : Height
  stop : Height

namespace Pass

variable (src : Source) (p : Pass) (o : OutPoint)

/-- The transactions that the pass went through. -/
def walked : Stretch := src.walked p.watch.scripts p.start p.stop

/-- What the pass found. -/
def findings : Findings := CoinWatch.findings src p.watch p.start p.stop

/-- What the pass tells. -/
def summary : Summary :=
  let f := p.findings src
  ⟨p.start, p.stop, f.created.size, f.spent.size, f.skipped, f.matched⟩

/-- A block that the pass went through creates the outpoint as a watched output. -/
def Creates : Prop :=
  ∃ q ∈ (p.walked src).outputs, q.outpoint = o ∧ q.output.script ∈ p.watch.scripts

/-- A block that the pass went through has an input that consumes the outpoint. -/
def Consumes : Prop := (p.walked src).Consumes o

instance : Decidable (p.Creates src o) :=
  inferInstanceAs (Decidable (∃ q ∈ (p.walked src).outputs, _ ∧ _))

instance : Decidable (p.Consumes src o) :=
  inferInstanceAs (Decidable ((p.walked src).Consumes o))

variable {src p o}

theorem creates_iff_latest?_isSome :
    p.Creates src o ↔ (p.watch.latest? (p.walked src) o).isSome :=
  WatchSet.latest?_isSome_iff.symm

theorem mem_spent : o ∈ (p.findings src).spent ↔ p.Consumes src o := mem_spent_findings

theorem getElem?_created :
    (p.findings src).created[o]? =
      if p.Consumes src o then none else p.watch.latest? (p.walked src) o :=
  getElem?_created_findings o

end Pass

namespace Ledger

/-- The ledger once the findings of a pass have entered. -/
def enter (src : Source) (l : Ledger) (p : Pass) : Ledger :=
  l.apply (p.findings src).created (p.findings src).spent

/-- The ledger once the findings of some passes have entered one after another. -/
def enterAll (src : Source) (l : Ledger) (ps : List Pass) : Ledger := ps.foldl (enter src) l

variable {src : Source} {l : Ledger} {o : OutPoint}

theorem enterAll_append (ps qs : List Pass) :
    l.enterAll src (ps ++ qs) = (l.enterAll src ps).enterAll src qs := List.foldl_append

/-- What is held after a pass: nothing that it consumes, the last record of what it creates, and
else what was held before. -/
theorem get_enter (p : Pass) :
    (l.enter src p).get o =
      if p.Consumes src o then none else (p.watch.latest? (p.walked src) o).or (l.get o) := by
  rw [enter, get_apply]
  simp only [Pass.mem_spent]
  by_cases h : p.Consumes src o
  · rw [if_pos h, if_pos h]
  · rw [if_neg h, if_neg h, Pass.getElem?_created, if_neg h]

theorem get_enter_isSome (p : Pass) :
    ((l.enter src p).get o).isSome ↔
      ¬ p.Consumes src o ∧ (p.Creates src o ∨ (l.get o).isSome) := by
  rw [get_enter]
  by_cases h : p.Consumes src o
  · simp [h]
  · rw [if_neg h, Option.isSome_or, Bool.or_eq_true, ← Pass.creates_iff_latest?_isSome]
    exact ⟨fun hc => ⟨h, hc⟩, fun hc => hc.2⟩

theorem get_enterAll_eq_some {ps : List Pass} {c : Coin}
    (h : (l.enterAll src ps).get o = some c) :
    (∃ p ∈ ps, p.watch.latest? (p.walked src) o = some c) ∨ l.get o = some c := by
  induction ps generalizing l with
  | nil => exact .inr h
  | cons p ps ih =>
    rcases ih (l := l.enter src p) h with ⟨q, hq, hc⟩ | hc
    · exact .inl ⟨q, List.mem_cons_of_mem p hq, hc⟩
    · rw [get_enter] at hc
      split at hc
      · cases hc
      · rcases Option.or_eq_some_iff.mp hc with hnew | ⟨_, hold⟩
        · exact .inl ⟨p, List.mem_cons_self, hnew⟩
        · exact .inr hold

theorem get_enter_of_free {p : Pass} (h : l.get o = none) :
    (l.enter src p).get o = p.watch.unspent? (p.walked src) o := by
  rw [get_enter, h, Option.or_none]
  rfl

end Ledger

/-! ### The order of passes -/

section order

variable (src : Source) (ps : List Pass) (o : OutPoint)

/-- Some pass creates the outpoint, and neither it nor a later one consumes it. -/
def Current : Prop :=
  ∃ before p after, ps = before ++ p :: after ∧ p.Creates src o ∧
    ∀ q ∈ p :: after, ¬ q.Consumes src o

/-- Some pass creates the outpoint, and none consumes it. -/
def Unspent : Prop := (∃ p ∈ ps, p.Creates src o) ∧ ∀ p ∈ ps, ¬ p.Consumes src o

/-- Some pass creates the outpoint, and neither it nor a later one consumes it, but an earlier
one does. -/
def Revived : Prop :=
  ∃ before p after, ps = before ++ p :: after ∧ (∃ q ∈ before, q.Consumes src o) ∧
    p.Creates src o ∧ ∀ q ∈ p :: after, ¬ q.Consumes src o

variable {src ps o}

theorem not_current_nil : ¬ Current src [] o := by
  rintro ⟨before, p, after, heq, _⟩
  simp at heq

theorem current_cons {p : Pass} :
    Current src (p :: ps) o ↔
      (p.Creates src o ∧ ∀ q ∈ p :: ps, ¬ q.Consumes src o) ∨ Current src ps o := by
  constructor
  · rintro ⟨before, q, after, heq, hcreates, hkeep⟩
    cases before with
    | nil =>
      obtain ⟨rfl, rfl⟩ := List.cons.inj heq
      exact .inl ⟨hcreates, hkeep⟩
    | cons r before =>
      obtain ⟨rfl, rfl⟩ := List.cons.inj heq
      exact .inr ⟨before, q, after, rfl, hcreates, hkeep⟩
  · rintro (⟨hcreates, hkeep⟩ | ⟨before, q, after, rfl, hcreates, hkeep⟩)
    · exact ⟨[], p, ps, rfl, hcreates, hkeep⟩
    · exact ⟨p :: before, q, after, rfl, hcreates, hkeep⟩

/-- What is unspent is current, and what is current is unspent or revived. -/
theorem current_iff_unspent_or_revived :
    Current src ps o ↔ Unspent src ps o ∨ Revived src ps o := by
  constructor
  · rintro ⟨before, p, after, rfl, hcreates, hkeep⟩
    by_cases hbefore : ∃ q ∈ before, q.Consumes src o
    · exact .inr ⟨before, p, after, rfl, hbefore, hcreates, hkeep⟩
    · refine .inl ⟨⟨p, by simp, hcreates⟩, fun q hq => ?_⟩
      rcases List.mem_append.mp hq with hq | hq
      · exact fun hcons => hbefore ⟨q, hq, hcons⟩
      · exact hkeep q hq
  · rintro (⟨⟨p, hp, hcreates⟩, hnone⟩ | ⟨before, p, after, heq, _, hcreates, hkeep⟩)
    · obtain ⟨before, after, rfl⟩ := List.append_of_mem hp
      exact ⟨before, p, after, rfl, hcreates, fun q hq => hnone q (List.mem_append_right before hq)⟩
    · exact ⟨before, p, after, heq, hcreates, hkeep⟩

theorem not_unspent_of_revived (h : Revived src ps o) : ¬ Unspent src ps o := by
  obtain ⟨before, p, after, rfl, ⟨q, hq, hcons⟩, _⟩ := h
  rintro ⟨_, hnone⟩
  exact hnone q (List.mem_append_left _ hq) hcons

/-- What is held after some passes: what is current, and what was held before and none of them
consumes. -/
theorem Ledger.get_enterAll_isSome {l : Ledger} :
    ((l.enterAll src ps).get o).isSome ↔
      Current src ps o ∨ ((l.get o).isSome ∧ ∀ p ∈ ps, ¬ p.Consumes src o) := by
  induction ps generalizing l with
  | nil => simp [Ledger.enterAll, not_current_nil]
  | cons p ps ih =>
    have hfirst : (l.enterAll src (p :: ps)) = (l.enter src p).enterAll src ps := rfl
    rw [hfirst, ih, current_cons, Ledger.get_enter_isSome]
    simp only [List.forall_mem_cons]
    tauto

end order

end CoinWatch
