import CoinWatch.Scan.Probe
import Mathlib.Data.List.Dedup
import Mathlib.Data.List.Sort

/-! # What a filter query depends on

A query walks a filter with the numbers of its scripts in ascending order.  A number that comes
twice in a row is passed twice at the same place (`walk_cons_self`), so the verdict of a walk
depends only on which numbers there are (`walk_eq_of_mem_iff`), also where the filter ends early.
With this, the walk over all numbers, repeats included, gives the verdict of the walk over the set
(`walk_sorted`), and a verdict, and with it what a height yields, depends only on which scripts are
asked about (`check_congr`, `probe_congr`). -/

namespace CoinWatch

namespace Filter

variable {query remaining element : ℕ} {bits : List Bool} {c : Cursor} {qs qs' : List ℕ}

theorem lt_of_seek_eq_passed (h : seek query remaining element bits = .passed c) :
    query < c.element := by
  fun_induction seek query remaining element bits with
  | case1 | case3 | case4 => cases h
  | case2 element _ bits _ hlt =>
    obtain rfl := Seek.passed.inj h
    exact hlt
  | case5 _ _ _ _ _ _ _ _ ih => exact ih h

theorem seek_of_lt (h : query < element) :
    seek query remaining element bits = .passed ⟨element, remaining, bits⟩ := by
  unfold seek
  rw [if_neg (Nat.ne_of_gt h), if_pos h]

/-- A query that comes twice in a row is settled at once. -/
theorem walk_cons_self (q : ℕ) (qs : List ℕ) (c : Cursor) :
    walk (q :: q :: qs) c = walk (q :: qs) c := by
  rw [walk, walk]
  cases hseek : seek q c.remaining c.element c.bits with
  | found | exhausted | unreadable => rfl
  | passed c' =>
    show walk (q :: qs) c' = walk qs c'
    rw [walk, seek_of_lt (lt_of_seek_eq_passed hseek)]

theorem walk_cons_congr (h : ∀ c, walk qs c = walk qs' c) (q : ℕ) (c : Cursor) :
    walk (q :: qs) c = walk (q :: qs') c := by
  rw [walk, walk]
  cases seek q c.remaining c.element c.bits with
  | found | exhausted | unreadable => rfl
  | passed c' => exact h c'

/-- Repeats in an ascending list of queries do not change the verdict. -/
theorem walk_dedup (h : qs.Pairwise (· ≤ ·)) (c : Cursor) : walk qs.dedup c = walk qs c := by
  induction qs generalizing c with
  | nil => rfl
  | cons q qs ih =>
    obtain ⟨hle, hqs⟩ := List.pairwise_cons.mp h
    by_cases hq : q ∈ qs
    · -- A later copy of the least query stands right behind it.
      obtain ⟨rest, rfl⟩ : ∃ rest, qs = q :: rest := by
        cases qs with
        | nil => cases hq
        | cons r rest =>
          have hqr : q ≤ r := hle r List.mem_cons_self
          have hrq : r ≤ q := by
            rcases List.mem_cons.mp hq with rfl | hq
            · exact Nat.le_refl q
            · exact List.rel_of_pairwise_cons hqs hq
          rw [Nat.le_antisymm hqr hrq]
          exact ⟨rest, rfl⟩
      rw [List.dedup_cons_of_mem hq, ih hqs, walk_cons_self]
    · rw [List.dedup_cons_of_notMem hq]
      exact walk_cons_congr (ih hqs) q c

/-- The verdict of a walk depends only on which queries there are. -/
theorem walk_eq_of_mem_iff (h : qs.Pairwise (· ≤ ·)) (h' : qs'.Pairwise (· ≤ ·))
    (hmem : ∀ q, q ∈ qs ↔ q ∈ qs') (c : Cursor) : walk qs c = walk qs' c := by
  have hperm : qs.dedup.Perm qs'.dedup := by
    rw [List.perm_ext_iff_of_nodup qs.nodup_dedup qs'.nodup_dedup]
    simpa only [List.mem_dedup] using hmem
  have heq : qs.dedup = qs'.dedup :=
    hperm.eq_of_pairwise (fun a b _ _ => Nat.le_antisymm) (h.sublist qs.dedup_sublist)
      (h'.sublist qs'.dedup_sublist)
  rw [← walk_dedup h, ← walk_dedup h', heq]

/-! ### Verdicts -/

variable {x : BlockHash} {n : ℕ} {scripts scripts' : List Script}

theorem mem_places {q : ℕ} : q ∈ places x n scripts ↔ ∃ s ∈ scripts, place x n s = q := by
  rw [places, Std.ExtTreeSet.mem_toList, Std.ExtTreeSet.mem_ofList, List.contains_iff_mem,
    List.mem_map]

theorem pairwise_places : (places x n scripts).Pairwise (· ≤ ·) := by
  have hlt : (places x n scripts).Pairwise fun a b => compare a b = .lt :=
    Std.ExtTreeSet.ordered_toList
  exact hlt.imp fun h => Nat.le_of_lt (Nat.compare_eq_lt.mp h)

/-- To walk the numbers of the scripts in ascending order, each as often as scripts have it, is to
walk the set of them. -/
theorem walk_sorted (x : BlockHash) (n : ℕ) (scripts : List Script) (c : Cursor) :
    walk ((scripts.map (place x n)).mergeSort) c = walk (places x n scripts) c := by
  have hsorted : ((scripts.map (place x n)).mergeSort).Pairwise (· ≤ ·) :=
    List.sortedLE_mergeSort.pairwise
  refine walk_eq_of_mem_iff hsorted pairwise_places (fun q => ?_) c
  rw [(List.mergeSort_perm _ _).mem_iff, mem_places, List.mem_map]

theorem check_congr (h : ∀ s, s ∈ scripts' ↔ s ∈ scripts) (x : BlockHash) (filter : Option Bytes) :
    check x filter scripts' = check x filter scripts := by
  have hempty : scripts'.isEmpty = scripts.isEmpty := by
    rw [Bool.eq_iff_iff, List.isEmpty_iff, List.isEmpty_iff, List.eq_nil_iff_forall_not_mem,
      List.eq_nil_iff_forall_not_mem]
    simp only [h]
  have hwalk (n : ℕ) (c : Cursor) : walk (places x n scripts') c = walk (places x n scripts) c :=
    walk_eq_of_mem_iff pairwise_places pairwise_places (fun q => by simp only [mem_places, h]) c
  cases filter with
  | none => rfl
  | some bytes => simp only [check, query, hempty, hwalk]

end Filter

/-- What a height yields, and the calls for it, depend only on which scripts are asked about. -/
theorem Source.probe_congr {scripts scripts' : List Script} (h : ∀ s, s ∈ scripts' ↔ s ∈ scripts)
    (src : Source) (k : Height) : src.probe scripts' k = src.probe scripts k := by
  unfold Source.probe
  simp only [Filter.check_congr h]

end CoinWatch
