import CoinWatch.Address.Basic
import Std.Data.ExtTreeMap

/-! # Watch sets

The scripts handed to a scan, each with the address that owns it.  A script listed twice keeps
its first owner. -/

namespace CoinWatch

/-- Scripts and their owners. -/
structure WatchSet where
  owners : Std.ExtTreeMap Script String

namespace WatchSet

/-- Nothing is watched. -/
def empty : WatchSet := ⟨∅⟩

/-- Watches a script for an owner, unless it has one. -/
def insert (w : WatchSet) (script : Script) (owner : String) : WatchSet :=
  ⟨w.owners.insertIfNew script owner⟩

/-- The scripts of a list with their first owners. -/
def ofList (pairs : List (Script × String)) : WatchSet :=
  pairs.foldl (fun w (script, owner) => w.insert script owner) empty

/-- The scripts of payees, owned by their canonical spellings. -/
def ofPayees (payees : List Payee) : WatchSet := ofList (payees.map fun p => (p.script, p.address))

/-- The owner of a script. -/
def owner? (w : WatchSet) (script : Script) : Option String := w.owners[script]?

/-- The watched scripts. -/
def scripts (w : WatchSet) : List Script := w.owners.keys

/-- How many scripts are watched. -/
def size (w : WatchSet) : Nat := w.owners.size

/-- Nothing is watched. -/
def isEmpty (w : WatchSet) : Bool := w.owners.isEmpty

@[simp] theorem owner?_empty (script : Script) : empty.owner? script = none := by
  simp [empty, owner?]

theorem owner?_insert (w : WatchSet) (script : Script) (owner : String) (s : Script) :
    (w.insert script owner).owner? s =
      if script = s then some ((w.owner? s).getD owner) else w.owner? s := by
  simp only [insert, owner?, Std.ExtTreeMap.getElem?_insertIfNew, Std.compare_eq_iff_eq]
  by_cases h : script = s
  · subst h
    by_cases hm : script ∈ w.owners
    · simp [hm]
    · simp [hm]
  · simp [h]

end WatchSet

end CoinWatch
