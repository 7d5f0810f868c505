import CoinWatch.Proofs.FilterScan
import Mathlib.Data.List.Perm.Basic

/-! # Every height is accounted for

What a height yields is told by a course of answers: each of its steps depends on the one before,
and the first that fails is the reason for which the height is skipped (`Source.Course`).  A probe
follows the course that the answers prescribe (`course_iff`), so a height has one outcome, and it
asks for no more than it needs to get there: the hash, the filter of a hash that came back, and the
block of a filter that hits (`Source.asked`, `calls_probe_eq_asked`).

Along a range this puts each height into one of three classes.  A scan counts the first, lists the
second in ascending order, and passes over the third (`Accounts`), and the source learns of the
watched scripts only which heights hit (`scanRange_accounts`). -/

namespace CoinWatch

namespace Source

/-- The answers at a height, up to the first that ends it, and what the height yields by them. -/
inductive Course (src : Source) (scripts : List Script) (h : Height) : Probe → Prop
  | noBlockHash {text : String} (hhash : src.hashAt h = .error text) :
      Course src scripts h (.skipped .noBlockHash)
  | noFilter {x : BlockHash} (hhash : src.hashAt h = .ok x)
      (hfilter : ∀ bytes, src.filterOf x ≠ .ok (some bytes)) :
      Course src scripts h (.skipped .noFilter)
  | filterUnreadable {x : BlockHash} {bytes : Bytes} (hhash : src.hashAt h = .ok x)
      (hfilter : src.filterOf x = .ok (some bytes))
      (hcheck : Filter.query x bytes scripts = .unreadable) :
      Course src scripts h (.skipped .filterUnreadable)
  | miss {x : BlockHash} {bytes : Bytes} (hhash : src.hashAt h = .ok x)
      (hfilter : src.filterOf x = .ok (some bytes))
      (hcheck : Filter.query x bytes scripts = .miss) :
      Course src scripts h .miss
  | blockUnavailable {x : BlockHash} {bytes : Bytes} {text : String} (hhash : src.hashAt h = .ok x)
      (hfilter : src.filterOf x = .ok (some bytes))
      (hcheck : Filter.query x bytes scripts = .hit) (hblock : src.blockOf x = .error text) :
      Course src scripts h (.skipped .blockUnavailable)
  | blockUndecodable {x : BlockHash} {bytes raw : Bytes} (hhash : src.hashAt h = .ok x)
      (hfilter : src.filterOf x = .ok (some bytes))
      (hcheck : Filter.query x bytes scripts = .hit) (hblock : src.blockOf x = .ok raw)
      (hdecode : Block.decode? raw = none) :
      Course src scripts h (.skipped .blockUndecodable)
  | hit {x : BlockHash} {bytes raw : Bytes} {b : Block} (hhash : src.hashAt h = .ok x)
      (hfilter : src.filterOf x = .ok (some bytes))
      (hcheck : Filter.query x bytes scripts = .hit) (hblock : src.blockOf x = .ok raw)
      (hdecode : Block.decode? raw = some b) :
      Course src scripts h (.hit b)

/-- The verdict on the filter of a block; one that is not to be had is absent. -/
def verdict (src : Source) (scripts : List Script) (x : BlockHash) : Verdict :=
  Filter.check x (src.filterOf x).toOption.join scripts

/-- What has to be asked for at a height. -/
def asked (src : Source) (scripts : List Script) (h : Height) : List Call :=
  .hash h :: match src.hashAt h with
    | .error _ => []
    | .ok x => .filter x :: if (src.verdict scripts x).isHit then [.block x] else []

variable {src : Source} {scripts : List Script} {h : Height} {p : Probe}

/-! ### One height -/

theorem verdict_of_filter {x : BlockHash} {bytes : Bytes}
    (hfilter : src.filterOf x = .ok (some bytes)) :
    src.verdict scripts x = Filter.query x bytes scripts := by
  rw [verdict, hfilter]
  rfl

theorem exists_filter_or_absent (src : Source) (scripts : List Script) (x : BlockHash) :
    (∃ bytes, src.filterOf x = .ok (some bytes)) ∨
      ((∀ bytes, src.filterOf x ≠ .ok (some bytes)) ∧ src.verdict scripts x = .absent) := by
  rw [verdict]
  rcases hfilter : src.filterOf x with text | _ | bytes
  · exact .inr ⟨fun bytes h => (nomatch h), rfl⟩
  · exact .inr ⟨fun bytes h => (nomatch h), rfl⟩
  · exact .inl ⟨bytes, rfl⟩

theorem value_probe_of_hash {x : BlockHash} (hhash : src.hashAt h = .ok x) :
    (src.probe scripts h).value = match src.verdict scripts x with
      | .miss => .miss
      | .absent => .skipped .noFilter
      | .unreadable => .skipped .filterUnreadable
      | .hit => (src.fetch x).value := by
  simp only [probe, askHash, askFilter, Traced.bind_value, hhash, verdict]
  cases Filter.check x (src.filterOf x).toOption.join scripts <;> rfl

theorem Course.value_probe (hc : src.Course scripts h p) : (src.probe scripts h).value = p := by
  cases hc with
  | noBlockHash hhash => simp only [probe, askHash, Traced.bind_value, hhash, Traced.pure_value]
  | noFilter hhash hfilter =>
    rcases src.exists_filter_or_absent scripts _ with ⟨bytes, hbytes⟩ | ⟨_, habsent⟩
    · exact absurd hbytes (hfilter bytes)
    · rw [value_probe_of_hash hhash, habsent]
  | filterUnreadable hhash hfilter hcheck | miss hhash hfilter hcheck =>
    rw [value_probe_of_hash hhash, verdict_of_filter hfilter, hcheck]
  | blockUnavailable hhash hfilter hcheck hblock =>
    rw [value_probe_of_hash hhash, verdict_of_filter hfilter, hcheck]
    simp only [fetch, askBlock, Traced.bind_value, hblock, Traced.pure_value]
  | blockUndecodable hhash hfilter hcheck hblock hdecode
  | hit hhash hfilter hcheck hblock hdecode =>
    rw [value_probe_of_hash hhash, verdict_of_filter hfilter, hcheck]
    simp only [fetch, askBlock, Traced.bind_value, hblock, hdecode, Traced.pure_value]

end Source

theorem Filter.query_ne_absent (x : BlockHash) (bytes : Bytes) (scripts : List Script) :
    query x bytes scripts ≠ .absent := by
  have hwalk (qs : List ℕ) (c : Cursor) : walk qs c ≠ .absent := by
    induction qs generalizing c with
    | nil => simp [walk]
    | cons q qs ih =>
      rw [walk]
      cases seek q c.remaining c.element c.bits with
      | found | exhausted | unreadable => simp
      | passed c' => exact ih c'
  unfold query
  dsimp only
  split
  · simp
  · split
    · simp
    · exact hwalk _ _

namespace Source

variable {src : Source} {scripts : List Script} {h : Height} {p : Probe}

theorem exists_course (src : Source) (scripts : List Script) (h : Height) :
    ∃ p, src.Course scripts h p := by
  cases hhash : src.hashAt h with
  | error text => exact ⟨_, .noBlockHash hhash⟩
  | ok x =>
    rcases src.exists_filter_or_absent scripts x with ⟨bytes, hfilter⟩ | ⟨hfilter, _⟩
    · cases hcheck : Filter.query x bytes scripts with
      | absent => exact absurd hcheck (Filter.query_ne_absent x bytes scripts)
      | miss => exact ⟨_, .miss hhash hfilter hcheck⟩
      | unreadable => exact ⟨_, .filterUnreadable hhash hfilter hcheck⟩
      | hit =>
        cases hblock : src.blockOf x with
        | error text => exact ⟨_, .blockUnavailable hhash hfilter hcheck hblock⟩
        | ok raw =>
          cases hdecode : Block.decode? raw with
          | none => exact ⟨_, .blockUndecodable hhash hfilter hcheck hblock hdecode⟩
          | some b => exact ⟨_, .hit hhash hfilter hcheck hblock hdecode⟩
    · exact ⟨_, .noFilter hhash hfilter⟩

/-- The course of a height is that of its probe. -/
theorem course_iff : src.Course scripts h p ↔ (src.probe scripts h).value = p := by
  refine ⟨Course.value_probe, fun hp => ?_⟩
  obtain ⟨q, hq⟩ := src.exists_course scripts h
  rw [← hp, hq.value_probe]
  exact hq

theorem existsUnique_course (src : Source) (scripts : List Script) (h : Height) :
    ∃! p, src.Course scripts h p := by
  simp only [course_iff, existsUnique_eq']

theorem calls_fetch (src : Source) (x : BlockHash) : (src.fetch x).calls = [.block x] := by
  simp only [fetch, askBlock, Traced.bind_calls]
  cases src.blockOf x with
  | error text => rfl
  | ok raw =>
    dsimp only
    cases Block.decode? raw <;> rfl

/-- A probe asks for what has to be asked for, in this order. -/
theorem calls_probe_eq_asked (src : Source) (scripts : List Script) (h : Height) :
    (src.probe scripts h).calls = src.asked scripts h := by
  rw [asked]
  cases hhash : src.hashAt h with
  | error text => simp only [probe, askHash, Traced.bind_calls, hhash]; rfl
  | ok x =>
    simp only [probe, askHash, askFilter, Traced.bind_calls, hhash]
    cases hverdict : src.verdict scripts x with
    | miss | absent | unreadable => simp only [verdict] at hverdict; simp only [hverdict]; rfl
    | hit => simp only [verdict] at hverdict; simp only [hverdict, calls_fetch]; rfl

/-- What is asked for tells no more of the scripts than whether the filter hits. -/
theorem asked_congr {scripts' : List Script}
    (hsame : ∀ x, src.hashAt h = .ok x →
      (src.verdict scripts' x).isHit = (src.verdict scripts x).isHit) :
    src.asked scripts' h = src.asked scripts h := by
  unfold asked
  cases hhash : src.hashAt h with
  | error text => rfl
  | ok x => simp only [hsame x hhash]

end Source

/-! ### The heights of a range -/

/-- What a scan of a range tells of each height: those that led to a block are counted, those that
could not be looked at are listed, and the others are misses. -/
structure Accounts (src : Source) (scripts : List Script) (start stop : Height) (f : Findings)
    (hits misses : List Height) : Prop where
  hit : ∀ h, h ∈ hits ↔ (start ≤ h ∧ h ≤ stop) ∧ ∃ b, src.Course scripts h (.hit b)
  skipped : ∀ h reason, (h, reason) ∈ f.skipped ↔
    (start ≤ h ∧ h ≤ stop) ∧ src.Course scripts h (.skipped reason)
  miss : ∀ h, h ∈ misses ↔ (start ≤ h ∧ h ≤ stop) ∧ src.Course scripts h .miss
  /-- Each height is in one of the lists, and there once. -/
  each : (hits ++ f.skipped.map Prod.fst ++ misses).Perm (heights start stop)
  ascending : (f.skipped.map Prod.fst).Pairwise (· < ·)
  matched : f.matched = hits.length
  total : f.matched + f.skipped.length + misses.length = stop + 1 - start

/-- A list of heights sorted by what they yield. -/
theorem perm_by_outcome (yields : Height → Probe) (hs : List Height) :
    (hs.filter (fun h => (yields h).isHit)
      ++ (hs.filterMap fun h => (yields h).skip? h).map Prod.fst
      ++ hs.filter (fun h => yields h = .miss)).Perm hs := by
  induction hs with
  | nil => exact .refl _
  | cons h hs ih =>
    simp only [List.append_assoc, List.filter_cons, List.filterMap_cons] at ih ⊢
    cases hy : yields h with
    | hit b =>
      have hskip : (Probe.hit b).skip? h = none := rfl
      simp only [Probe.isHit, hskip, if_true, reduceCtorEq, decide_false, Bool.false_eq_true,
        if_false, List.cons_append]
      exact ih.cons h
    | skipped reason =>
      have hskip : (Probe.skipped reason).skip? h = some (h, reason) := rfl
      simp only [Probe.isHit, hskip, reduceCtorEq, decide_false, Bool.false_eq_true, if_false,
        List.map_cons, List.cons_append]
      exact List.perm_middle.trans (ih.cons h)
    | miss =>
      have hskip : Probe.miss.skip? h = none := rfl
      simp only [Probe.isHit, hskip, decide_true, Bool.false_eq_true, if_true, if_false]
      rw [← List.append_assoc] at ih ⊢
      exact List.perm_middle.trans (ih.cons h)

theorem pairwise_lt_heights (start stop : Height) : (heights start stop).Pairwise (· < ·) :=
  List.pairwise_lt_range'

section

variable {src : Source} {w : WatchSet} {start stop : Height}

/-- What a scan finds accounts for the heights of its range. -/
theorem accounts_findings (src : Source) (w : WatchSet) (start stop : Height) :
    Accounts src w.scripts start stop (findings src w start stop)
      ((heights start stop).filter fun h => (src.probe w.scripts h).value.isHit)
      ((heights start stop).filter fun h => (src.probe w.scripts h).value = .miss) := by
  have heach := perm_by_outcome (fun h => (src.probe w.scripts h).value) (heights start stop)
  have hmatched : (findings src w start stop).matched =
      ((heights start stop).filter fun h => (src.probe w.scripts h).value.isHit).length := by
    rw [matched_findings, List.countP_eq_length_filter]
  refine ⟨fun h => ?_, fun h reason => ?_, fun h => ?_, ?_, ?_, hmatched, ?_⟩
  · simp only [List.mem_filter, mem_heights, Source.course_iff]
    cases (src.probe w.scripts h).value <;> simp [Probe.isHit]
  · rw [pair_mem_skipped_findings, Source.course_iff]
  · rw [List.mem_filter, mem_heights, Source.course_iff, decide_eq_true_iff]
  · rw [skipped_findings]
    exact heach
  · rw [skipped_findings, List.pairwise_map, List.pairwise_filterMap]
    refine (pairwise_lt_heights start stop).imp fun {h k} hlt s hs r hr => ?_
    obtain ⟨rfl, _⟩ := Probe.skip?_eq_some_iff.mp hs
    obtain ⟨rfl, _⟩ := Probe.skip?_eq_some_iff.mp hr
    exact hlt
  · have hlength := heach.length_eq
    rw [List.length_append, List.length_append, List.length_map, ← skipped_findings,
      ← hmatched, heights, List.length_range', rangeSize] at hlength
    exact hlength

/-- The count of blocks stays below the number of heights there can be, unless all of these led to
one. -/
theorem Accounts.matched_lt {f : Findings} {hits misses : List Height}
    (h : Accounts src w.scripts start stop f hits misses) {size : ℕ} (hstop : stop < size) :
    f.matched < size ∨ (start = 0 ∧ stop + 1 = size ∧
      ∀ k ∈ heights start stop, ∃ b, src.Course w.scripts k (.hit b)) := by
  have htotal := h.total
  unfold Height at *
  by_cases hlt : f.matched < size
  · exact .inl hlt
  · have hskipped : f.skipped = [] := List.eq_nil_of_length_eq_zero (by omega)
    have hmisses : misses = [] := List.eq_nil_of_length_eq_zero (by omega)
    refine .inr ⟨by omega, by omega, fun k hk => ?_⟩
    have hmem := h.each.mem_iff.mpr hk
    rw [hskipped, hmisses, List.map_nil, List.append_nil, List.append_nil] at hmem
    exact ((h.hit k).mp hmem).2

end

/-- **Every height is accounted for, and the source is asked for what is needed.**  Each height has
one course.  The calls of a scan are those that its heights need, in ascending order, and its
findings account for all of them; the count of blocks falls short of the number of heights there can
be unless each of these led to a block.  A watch set that hits where another one does makes the same
calls. -/
theorem scanRange_accounts (src : Source) {w : WatchSet} (hw : w.isEmpty = false)
    (start stop : Height) :
    (∀ h, ∃! p, src.Course w.scripts h p) ∧
    (scanRange src w start stop .never).calls =
      (heights start stop).flatMap (src.asked w.scripts) ∧
    (∃ f hits misses, (scanRange src w start stop .never).value = .ok f ∧
      Accounts src w.scripts start stop f hits misses ∧
      (stop < UInt32.size → f.matched < UInt32.size ∨
        (start = 0 ∧ stop + 1 = UInt32.size ∧
          ∀ h ∈ heights start stop, ∃ b, src.Course w.scripts h (.hit b)))) ∧
    ∀ w' : WatchSet, w'.isEmpty = false →
      (∀ h ∈ heights start stop, ∀ x, src.hashAt h = .ok x →
        (src.verdict w'.scripts x).isHit = (src.verdict w.scripts x).isHit) →
      (scanRange src w' start stop .never).calls = (scanRange src w start stop .never).calls := by
  have hcalls {v : WatchSet} (hv : v.isEmpty = false) :
      (scanRange src v start stop .never).calls =
        (heights start stop).flatMap (src.asked v.scripts) := by
    simp only [calls_scanRange_never hv, Source.calls_probe_eq_asked]
  have haccounts := accounts_findings src w start stop
  refine ⟨src.existsUnique_course w.scripts, hcalls hw,
    ⟨_, _, _, scanRange_never hw, haccounts, haccounts.matched_lt⟩, fun w' hw' hsame => ?_⟩
  rw [hcalls hw, hcalls hw']
  exact List.flatMap_congr fun h hh => Source.asked_congr (hsame h hh)

namespace Sample

/-- The watch set with one more script, which no block of the chain has. -/
def wider : WatchSet := .ofPayees [⟨"first", script 1⟩, ⟨"second", script 9⟩]

theorem same_hits : ∀ h ∈ heights 0 3,
    (source.hashAt h).map (fun x => (source.verdict wider.scripts x).isHit) =
      (source.hashAt h).map fun x => (source.verdict watch.scripts x).isHit := by
  decide +kernel

theorem asked_of_watch : (heights 0 3).flatMap (source.asked watch.scripts) =
    [.hash 0, .hash 1, .filter ⟨1⟩, .block ⟨1⟩, .hash 2, .filter ⟨2⟩, .hash 3, .filter ⟨3⟩,
      .block ⟨3⟩] := by
  decide +kernel

/-- One height is skipped, one is a miss and two lead to their blocks, and the other watch set is
not told from this one. -/
theorem accounted_for : watch.isEmpty = false ∧
    (∃ f hits misses, (scanRange source watch 0 3 .never).value = .ok f ∧
      Accounts source watch.scripts 0 3 f hits misses ∧ f.matched < UInt32.size) ∧
    (scanRange source watch 0 3 .never).calls =
      [.hash 0, .hash 1, .filter ⟨1⟩, .block ⟨1⟩, .hash 2, .filter ⟨2⟩, .hash 3, .filter ⟨3⟩,
        .block ⟨3⟩] ∧
    (scanRange source wider 0 3 .never).calls = (scanRange source watch 0 3 .never).calls := by
  obtain ⟨_, hcalls, ⟨f, hits, misses, hf, haccounts, hcount⟩, hprivate⟩ :=
    scanRange_accounts source (w := watch) rfl 0 3
  refine ⟨rfl, ⟨f, hits, misses, hf, haccounts, ?_⟩, hcalls.trans asked_of_watch,
    hprivate wider rfl fun h hh x hx => ?_⟩
  · rcases hcount (by decide) with hlt | ⟨_, hfull, _⟩
    · exact hlt
    · exact absurd hfull (by decide)
  · have hsame := same_hits h hh
    rw [hx] at hsame
    exact Except.ok.inj hsame

end Sample

end CoinWatch
