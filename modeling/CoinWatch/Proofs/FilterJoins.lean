import CoinWatch.Proofs.FilterQueries
import CoinWatch.Proofs.FilterScan

/-! # Many scripts in one query

A query over many scripts decodes the filter once, and no further than it has to.  Damage in the
filter is met by a query only if it lies before the place where the query is settled, so the single
scripts may get different verdicts from one damaged filter.  What comes out for all of them is the
strongest (`Verdict.join`): a hit before damage, damage before a miss.

The reason is that a query behind another one in the order finds the walk where it would have got to
by itself: as long as the earlier query is not found, the later one goes the same way past it
(`seek_of_le`).  So each query of a walk gets the verdict that it gets alone (`walk_eq_join`), and
the verdict of a filter is the join of those for the single scripts (`check_eq_join`).  The walk is
against the sorted numbers of the scripts; that a number may come twice there does not show
(`query_eq_walk_sorted`). -/

namespace CoinWatch

namespace Verdict

/-- What some verdicts come to: a hit if there is one, or else damage if there is some. -/
def join (vs : List Verdict) : Verdict :=
  if .hit ∈ vs then .hit else if .unreadable ∈ vs then .unreadable else .miss

variable {vs vs' : List Verdict}

theorem join_eq_hit_iff : join vs = .hit ↔ .hit ∈ vs := by
  unfold join
  split_ifs <;> simp_all

theorem join_eq_unreadable_iff : join vs = .unreadable ↔ .hit ∉ vs ∧ .unreadable ∈ vs := by
  unfold join
  split_ifs <;> simp_all

theorem join_eq_miss_iff : join vs = .miss ↔ .hit ∉ vs ∧ .unreadable ∉ vs := by
  unfold join
  split_ifs <;> simp_all

theorem join_congr (h : ∀ v, v ∈ vs ↔ v ∈ vs') : join vs = join vs' := by
  unfold join
  simp only [h]

theorem join_cons_miss (vs : List Verdict) : join (.miss :: vs) = join vs := by
  simp [join]

theorem join_eq_of_forall {v : Verdict} (hne : vs ≠ []) (hv : v ≠ .absent) (h : ∀ u ∈ vs, u = v) :
    join vs = v := by
  have hv' : v ∈ vs := by
    obtain ⟨u, hu⟩ := List.exists_mem_of_ne_nil vs hne
    rwa [← h u hu]
  cases v with
  | absent => exact absurd rfl hv
  | hit => exact join_eq_hit_iff.mpr hv'
  | unreadable =>
    refine join_eq_unreadable_iff.mpr ⟨fun hmem => ?_, hv'⟩
    cases h _ hmem
  | miss =>
    refine join_eq_miss_iff.mpr ⟨fun hmem => ?_, fun hmem => ?_⟩
    · cases h _ hmem
    · cases h _ hmem

end Verdict

namespace Filter

/-! ### Walks -/

variable {q q' remaining element : ℕ} {bits : List Bool} {c : Cursor} {qs : List ℕ}

/-- Past a query that is not found, a later one goes the same way. -/
theorem seek_of_le (hle : q ≤ q') (hne : seek q remaining element bits ≠ .found) :
    seek q' remaining element bits =
      match seek q remaining element bits with
      | .passed c => seek q' c.remaining c.element c.bits
      | s => s := by
  fun_induction seek q remaining element bits with
  | case1 => exact absurd rfl hne
  | case2 => rfl
  | case3 element bits hne' hlt =>
    rw [seek, if_neg (by omega), if_neg (by omega)]
  | case4 element bits hne' hlt remaining hread =>
    rw [seek, if_neg (by omega), if_neg (by omega)]
    simp only [hread]
  | case5 element bits hne' hlt remaining delta rest hread ih =>
    rw [seek, if_neg (by omega), if_neg (by omega)]
    simp only [hread]
    exact ih hne

/-- The verdict on a query that is asked alone. -/
def Seek.verdict : Seek → Verdict
  | found => .hit
  | unreadable => .unreadable
  | passed _ | exhausted => .miss

theorem walk_singleton (q : ℕ) (c : Cursor) :
    walk [q] c = (seek q c.remaining c.element c.bits).verdict := by
  rw [walk]
  cases seek q c.remaining c.element c.bits <;> rfl

/-- Where a query ends the walk without being found, it ends it for the later ones as well. -/
theorem walk_singleton_of_ended {s : Seek} (hs : seek q c.remaining c.element c.bits = s)
    (hended : s = .exhausted ∨ s = .unreadable) (hle : q ≤ q') : walk [q'] c = s.verdict := by
  have hne : seek q c.remaining c.element c.bits ≠ .found := by
    intro hfound
    rw [hs] at hfound
    rcases hended with rfl | rfl <;> cases hfound
  rw [walk_singleton, seek_of_le hle hne, hs]
  rcases hended with rfl | rfl <;> rfl

/-- Each query of a walk gets the verdict that it gets alone. -/
theorem walk_eq_join (h : qs.Pairwise (· ≤ ·)) (c : Cursor) :
    walk qs c = Verdict.join (qs.map fun q => walk [q] c) := by
  induction qs generalizing c with
  | nil => rfl
  | cons q qs ih =>
    obtain ⟨hle, hqs⟩ := List.pairwise_cons.mp h
    have hleast : ∀ q' ∈ q :: qs, q ≤ q' := by
      intro q' hq'
      rcases List.mem_cons.mp hq' with rfl | hq'
      · exact Nat.le_refl q'
      · exact hle q' hq'
    -- A query that ends the walk without being found settles all that are left.
    have hended {s : Seek} (hs : seek q c.remaining c.element c.bits = s)
        (hended : s = .exhausted ∨ s = .unreadable) :
        Verdict.join ((q :: qs).map fun q => walk [q] c) = s.verdict := by
      apply Verdict.join_eq_of_forall (by simp)
      · rcases hended with rfl | rfl <;> simp [Seek.verdict]
      · intro v hv
        obtain ⟨q', hq', rfl⟩ := List.mem_map.mp hv
        exact walk_singleton_of_ended hs hended (hleast q' hq')
    cases hseek : seek q c.remaining c.element c.bits with
    | found =>
      have hhit : walk [q] c = .hit := by
        rw [walk_singleton, hseek]
        rfl
      rw [List.map_cons, hhit, Verdict.join_eq_hit_iff.mpr List.mem_cons_self]
      simp only [walk, hseek]
    | passed c' =>
      have hmiss : walk [q] c = .miss := by
        rw [walk_singleton, hseek]
        rfl
      have hrest : qs.map (fun q => walk [q] c) = qs.map fun q => walk [q] c' := by
        apply List.map_congr_left
        intro q' hq'
        rw [walk_singleton, seek_of_le (hle q' hq') (by simp [hseek]), hseek, walk_singleton]
      rw [List.map_cons, hmiss, Verdict.join_cons_miss, hrest, ← ih hqs]
      simp only [walk, hseek]
    | exhausted =>
      rw [hended hseek (.inl rfl)]
      simp only [walk, hseek]
      rfl
    | unreadable =>
      rw [hended hseek (.inr rfl)]
      simp only [walk, hseek]
      rfl

/-! ### Filters -/

variable {x : BlockHash} {scripts scripts' : List Script}

theorem places_singleton (x : BlockHash) (n : ℕ) (s : Script) (c : Cursor) :
    walk (places x n [s]) c = walk [place x n s] c :=
  walk_eq_of_mem_iff pairwise_places (List.pairwise_singleton _ _)
    (fun q => by simp [mem_places, eq_comm]) c

theorem walk_places_eq_join (x : BlockHash) (n : ℕ) (scripts : List Script) (c : Cursor) :
    walk (places x n scripts) c =
      Verdict.join (scripts.map fun s => walk (places x n [s]) c) := by
  rw [walk_eq_join pairwise_places]
  apply Verdict.join_congr
  intro v
  simp only [List.mem_map, mem_places, places_singleton]
  constructor
  · rintro ⟨_, ⟨s, hs, rfl⟩, rfl⟩
    exact ⟨s, hs, rfl⟩
  · rintro ⟨s, hs, rfl⟩
    exact ⟨_, ⟨s, hs, rfl⟩, rfl⟩

/-- What a filter starts with is looked at before the scripts, as soon as there is one. -/
theorem query_of_ne_nil (hne : scripts ≠ []) (x : BlockHash) (filter : Bytes) :
    query x filter scripts =
      if (header filter).1 = 0 then .miss
      else
        match Golomb.read remainderBits (Bits.ofBytes (header filter).2) with
        | none => .unreadable
        | some (first, bits) =>
          walk (places x (header filter).1 scripts) ⟨first, (header filter).1 - 1, bits⟩ := by
  have hfalse : scripts.isEmpty = false := by simpa using hne
  have hcond : (scripts.isEmpty || decide ((header filter).1 = 0)) = true ↔
      (header filter).1 = 0 := by
    rw [hfalse, Bool.false_or, decide_eq_true_iff]
  exact if_congr hcond rfl rfl

theorem query_eq_join (x : BlockHash) (filter : Bytes) (scripts : List Script) :
    query x filter scripts = Verdict.join (scripts.map fun s => query x filter [s]) := by
  by_cases hempty : scripts = []
  · rw [hempty]
    rfl
  have hne : (scripts.map fun s => query x filter [s]) ≠ [] := by simpa using hempty
  have hsingle (s : Script) := query_of_ne_nil (List.cons_ne_nil s []) x filter
  rw [query_of_ne_nil hempty]
  by_cases hn : (header filter).1 = 0
  · rw [if_pos hn, Verdict.join_eq_of_forall hne (v := .miss) (by simp)]
    intro v hv
    obtain ⟨s, _, rfl⟩ := List.mem_map.mp hv
    rw [hsingle, if_pos hn]
  · simp only [hsingle, if_neg hn]
    cases Golomb.read remainderBits (Bits.ofBytes (header filter).2) with
    | none => exact (Verdict.join_eq_of_forall (by simpa using hempty) (by simp) (by simp)).symm
    | some first => exact walk_places_eq_join x (header filter).1 scripts _

/-- The elements are walked once against the sorted numbers of the scripts, repeats included. -/
theorem query_eq_walk_sorted {filter rest : Bytes} {n first : ℕ} {bits : List Bool}
    (hheader : header filter = (n, rest)) (hn : n ≠ 0) (hne : scripts ≠ [])
    (hread : Golomb.read remainderBits (Bits.ofBytes rest) = some (first, bits)) (x : BlockHash) :
    query x filter scripts = walk ((scripts.map (place x n)).mergeSort) ⟨first, n - 1, bits⟩ := by
  rw [query_of_ne_nil hne, hheader, if_neg hn, walk_sorted]
  simp only [hread]

/-- **A query over many scripts is the join of the queries over the single ones**, whatever bytes
the filter is made of.  So order and repetition of the scripts do not matter, a hit stays one when
more scripts are asked about, and a miss when fewer are.  Where the filter has elements and the
first one can be read, all this is said of the one walk against the sorted numbers of the scripts. -/
theorem check_eq_join (x : BlockHash) (filter : Bytes) (scripts : List Script) :
    check x (some filter) scripts =
      Verdict.join (scripts.map fun s => check x (some filter) [s]) ∧
    (∀ scripts', (∀ s, s ∈ scripts' ↔ s ∈ scripts) →
      check x (some filter) scripts' = check x (some filter) scripts) ∧
    (∀ scripts', scripts ⊆ scripts' →
      (check x (some filter) scripts = .hit → check x (some filter) scripts' = .hit) ∧
      (check x (some filter) scripts' = .miss → check x (some filter) scripts = .miss)) ∧
    ∀ n rest first bits, header filter = (n, rest) → n ≠ 0 → scripts ≠ [] →
      Golomb.read remainderBits (Bits.ofBytes rest) = some (first, bits) →
      check x (some filter) scripts =
        walk ((scripts.map (place x n)).mergeSort) ⟨first, n - 1, bits⟩ := by
  have hjoin (scripts : List Script) : check x (some filter) scripts =
      Verdict.join (scripts.map fun s => check x (some filter) [s]) :=
    query_eq_join x filter scripts
  refine ⟨hjoin scripts, fun scripts' h => check_congr h x (some filter), fun scripts' hsub => ?_,
    fun n rest first bits hheader hn hne hread => query_eq_walk_sorted hheader hn hne hread x⟩
  have hmap : scripts.map (fun s => check x (some filter) [s]) ⊆
      scripts'.map fun s => check x (some filter) [s] := List.map_subset _ hsub
  rw [hjoin scripts, hjoin scripts']
  constructor
  · intro hhit
    rw [Verdict.join_eq_hit_iff] at hhit ⊢
    exact hmap hhit
  · intro hmiss
    rw [Verdict.join_eq_miss_iff] at hmiss ⊢
    exact ⟨fun h => hmiss.1 (hmap h), fun h => hmiss.2 (hmap h)⟩

end Filter

namespace Sample

/-- The filter of the block at height 1, cut off behind the first of its two elements. -/
def damaged : Bytes := [2, 128, 174, 105]

/-- Of three scripts, one is met before the damage, one is ruled out before it, and one is not. -/
theorem verdicts_of_damaged :
    [script 1, script 2, script 5].map (fun s => Filter.check ⟨1⟩ (some damaged) [s]) =
      [.unreadable, .hit, .miss] := by
  decide +kernel

/-- Together the three scripts hit, in any order and however often they are listed; without the one
that is met the damage shows. -/
theorem joined_in_damaged :
    [script 2] ⊆ [script 1, script 2, script 5] ∧
      Filter.check ⟨1⟩ (some damaged) [script 1, script 2, script 5] = .hit ∧
      (∀ s, s ∈ [script 2, script 5, script 1, script 2] ↔
        s ∈ [script 1, script 2, script 5]) ∧
      Filter.check ⟨1⟩ (some damaged) [script 2, script 5, script 1, script 2] = .hit ∧
      Filter.check ⟨1⟩ (some damaged) [script 1, script 5] = .unreadable := by
  have hverdicts := verdicts_of_damaged
  simp only [List.map_cons, List.map_nil, List.cons.injEq] at hverdicts
  obtain ⟨hfirst, hsecond, hthird, _⟩ := hverdicts
  have hsub : [script 2] ⊆ [script 1, script 2, script 5] := by simp
  have hmem : ∀ s, s ∈ [script 2, script 5, script 1, script 2] ↔
      s ∈ [script 1, script 2, script 5] := by
    intro s
    simp only [List.mem_cons, List.not_mem_nil, or_false]
    tauto
  obtain ⟨_, _, hmore, _⟩ := Filter.check_eq_join ⟨1⟩ damaged [script 2]
  obtain ⟨_, hsame, _, _⟩ := Filter.check_eq_join ⟨1⟩ damaged [script 1, script 2, script 5]
  obtain ⟨hwithout, _⟩ := Filter.check_eq_join ⟨1⟩ damaged [script 1, script 5]
  have hhit := (hmore _ hsub).1 hsecond
  refine ⟨hsub, hhit, hmem, (hsame _ hmem).trans hhit, ?_⟩
  rw [hwithout, List.map_cons, List.map_cons, List.map_nil, hfirst, hthird]
  rfl

end Sample

end CoinWatch
