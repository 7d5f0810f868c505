import CoinWatch.Proofs.Registration
import CoinWatch.Proofs.Requests

/-! # Scans in chunks

A range may be scanned in consecutive chunks (`Tracker.scanChunks`), each with a reply of its own.
The heights of the range are those of its chunks, one chunk after another (`heights_chunks`), so
the calls, the skipped heights, the matched blocks and the transactions gone through are those of
the chunks as well, whatever the source.

The ledger is another matter: the scan in one go reconciles what all chunks created with what any
of them consumed, while chunk after chunk what a later one creates stays although an earlier one
consumed it.  If no chunk creates what an earlier one consumed, the ledgers are equal outpoint by
outpoint (`Ledger.get_enterAll_of_pairwise`), and scanning in chunks is scanning in one go
(`Tracker.scanChunks_eq_scan`). -/

namespace CoinWatch

/-- The passes over consecutive chunks from `start` on, one up to each of the stops. -/
def WatchSet.chunks (w : WatchSet) : (start : Height) → (stops : List Height) → List Pass
  | _, [] => []
  | start, stop :: stops => ⟨w, start, stop⟩ :: w.chunks (stop + 1) stops

/-- The stops of consecutive chunks, none of them empty. -/
structure Ascending (start : Height) (stops : List Height) : Prop where
  first : ∀ m ∈ stops, start ≤ m
  pairwise : stops.Pairwise (· < ·)

theorem Ascending.tail {start m : Height} {stops : List Height} (h : Ascending start (m :: stops)) :
    Ascending (m + 1) stops where
  first _ hk := Nat.succ_le_of_lt (List.rel_of_pairwise_cons h.pairwise hk)
  pairwise := h.pairwise.of_cons

namespace WatchSet

variable {w : WatchSet} {start stop : Height} {stops : List Height}

theorem watch_of_mem_chunks {p : Pass} (hp : p ∈ w.chunks start stops) : p.watch = w := by
  induction stops generalizing start with
  | nil => cases hp
  | cons m stops ih =>
    rcases List.mem_cons.mp hp with rfl | hp
    · rfl
    · exact ih hp

theorem heights_chunks (w : WatchSet) (h : Ascending start (stops ++ [stop])) :
    heights start stop =
      (w.chunks start (stops ++ [stop])).flatMap fun p => heights p.start p.stop := by
  induction stops generalizing start with
  | nil => simp [chunks]
  | cons m stops ih =>
    have hstart : start ≤ m + 1 := Nat.le_succ_of_le (h.first m List.mem_cons_self)
    have hstop : m ≤ stop := Nat.le_of_lt (List.rel_of_pairwise_cons h.pairwise (by simp))
    rw [List.cons_append, chunks, List.flatMap_cons, ← ih h.tail]
    exact (heights_append hstart hstop).symm

end WatchSet

/-! ### What chunks add up to -/

namespace Pass

variable {src : Source} {w : WatchSet} {start stop : Height} {stops : List Height}

/-- The calls of a pass. -/
def calls (src : Source) (p : Pass) : List Call :=
  (heights p.start p.stop).flatMap fun h => (src.probe p.watch.scripts h).calls

theorem calls_chunks (h : Ascending start (stops ++ [stop])) :
    calls src ⟨w, start, stop⟩ = (w.chunks start (stops ++ [stop])).flatMap (calls src) := by
  rw [calls, w.heights_chunks h, List.flatMap_assoc]
  apply List.flatMap_congr
  intro p hp
  rw [calls, WatchSet.watch_of_mem_chunks hp]

theorem walked_chunks (h : Ascending start (stops ++ [stop])) :
    walked src ⟨w, start, stop⟩ = (w.chunks start (stops ++ [stop])).flatMap (walked src) := by
  unfold walked Source.walked Source.walkedAt
  rw [w.heights_chunks h, List.flatMap_assoc]
  apply List.flatMap_congr
  intro p hp
  rw [WatchSet.watch_of_mem_chunks hp]

theorem skipped_chunks (h : Ascending start (stops ++ [stop])) :
    (summary src ⟨w, start, stop⟩).skipped =
      (w.chunks start (stops ++ [stop])).flatMap fun p => (p.summary src).skipped := by
  simp only [summary, findings, skipped_findings]
  rw [w.heights_chunks h, List.filterMap_flatMap]
  apply List.flatMap_congr
  intro p hp
  rw [WatchSet.watch_of_mem_chunks hp]

theorem matched_chunks (h : Ascending start (stops ++ [stop])) :
    (summary src ⟨w, start, stop⟩).matched =
      ((w.chunks start (stops ++ [stop])).map fun p => (p.summary src).matched).sum := by
  simp only [summary, findings, matched_findings]
  rw [w.heights_chunks h, List.countP_flatMap]
  congr 1
  apply List.map_congr_left
  intro p hp
  rw [Function.comp_apply, WatchSet.watch_of_mem_chunks hp]

/-- A scan of the range sees consumed what the scans of its chunks see consumed. -/
theorem exists_spent_chunks (hw : w.isEmpty = false) (h : Ascending start (stops ++ [stop])) :
    ∃ f, (scanRange src w start stop .never).value = .ok f ∧
      ∀ o, o ∈ f.spent ↔ ∃ p ∈ w.chunks start (stops ++ [stop]),
        ∃ g, (scanRange src w p.start p.stop .never).value = .ok g ∧ o ∈ g.spent := by
  refine ⟨_, scanRange_never hw, fun o => ?_⟩
  have hwalked : src.walked w.scripts start stop =
      (w.chunks start (stops ++ [stop])).flatMap (walked src) := walked_chunks h
  rw [mem_spent_findings, hwalked]
  constructor
  · rintro ⟨x, hx, hcons⟩
    obtain ⟨p, hp, hxp⟩ := List.mem_flatMap.mp hx
    rw [walked, WatchSet.watch_of_mem_chunks hp] at hxp
    exact ⟨p, hp, _, scanRange_never hw, mem_spent_findings.mpr ⟨x, hxp, hcons⟩⟩
  · rintro ⟨p, hp, g, hg, ho⟩
    obtain ⟨_, rfl⟩ := scanRange_of_ok hg
    obtain ⟨x, hxp, hcons⟩ := mem_spent_findings.mp ho
    rw [← WatchSet.watch_of_mem_chunks hp] at hxp
    exact ⟨x, List.mem_flatMap.mpr ⟨p, hp, hxp⟩, hcons⟩

end Pass

/-! ### What chunks leave in the ledger -/

/-- What is held after passes of which none creates what an earlier one consumed: what the passes
together leave unspent, and else what was held before. -/
theorem Ledger.get_enterAll_of_pairwise {src : Source} {w : WatchSet} {ps : List Pass} {l : Ledger}
    (hw : ∀ p ∈ ps, p.watch = w)
    (hlate : ps.Pairwise fun p q => ∀ o, p.Consumes src o → ¬ q.Creates src o) (o : OutPoint) :
    (l.enterAll src ps).get o =
      if Stretch.Consumes (ps.flatMap (Pass.walked src)) o then none
      else (w.latest? (ps.flatMap (Pass.walked src)) o).or (l.get o) := by
  induction ps generalizing l with
  | nil => simp [enterAll, WatchSet.latest?_nil]
  | cons p ps ih =>
    obtain ⟨hp, hw⟩ := List.forall_mem_cons.mp hw
    obtain ⟨hlate, hrest⟩ := List.pairwise_cons.mp hlate
    have hfirst : l.enterAll src (p :: ps) = (l.enter src p).enterAll src ps := rfl
    rw [hfirst, ih hw hrest, get_enter, hp, List.flatMap_cons, WatchSet.latest?_append]
    simp only [Stretch.consumes_append]
    by_cases hcons : Stretch.Consumes (ps.flatMap (Pass.walked src)) o
    · simp [hcons]
    · by_cases hpcons : p.Consumes src o
      · -- The pass strikes the outpoint out, and no later one brings it back.
        have hnone : w.latest? (ps.flatMap (Pass.walked src)) o = none := by
          rw [← Option.not_isSome_iff_eq_none, WatchSet.latest?_isSome_iff]
          rintro ⟨q, hq, hqo, hqs⟩
          obtain ⟨x, hx, hqx⟩ := Stretch.mem_outputs.mp hq
          obtain ⟨r, hr, hxr⟩ := List.mem_flatMap.mp hx
          refine hlate r hr o hpcons ⟨q, Stretch.mem_outputs.mpr ⟨x, hxr, hqx⟩, hqo, ?_⟩
          rw [hw r hr]
          exact hqs
        have hwalked : (p.walked src).Consumes o := hpcons
        simp [hcons, hpcons, hwalked, hnone]
      · have hwalked : ¬ (p.walked src).Consumes o := hpcons
        rw [if_neg hcons, if_neg hpcons, if_neg (by simp [hwalked, hcons]), Option.or_assoc]

theorem Ledger.enterAll_chunks {src : Source} {w : WatchSet} {start stop : Height}
    {stops : List Height} (h : Ascending start (stops ++ [stop]))
    (hlate : (w.chunks start (stops ++ [stop])).Pairwise fun p q =>
      ∀ o, p.Consumes src o → ¬ q.Creates src o) (l : Ledger) :
    l.enterAll src (w.chunks start (stops ++ [stop])) = l.enter src ⟨w, start, stop⟩ := by
  apply Ledger.ext_get
  intro o
  rw [Ledger.get_enterAll_of_pairwise (fun p hp => WatchSet.watch_of_mem_chunks hp) hlate,
    ← Pass.walked_chunks h, Ledger.get_enter]
  rfl

/-! ### Chunks of a tracker -/

namespace Tracker

/-- Scans consecutive chunks from `start` on, one up to each of the stops.  Gives all replies and
the tracker afterwards. -/
def scanChunks (src : Source) (addresses : List String) :
    Tracker → (start : Height) → (stops : List Height) → List (Reply Summary) × Tracker
  | t, _, [] => ([], t)
  | t, start, stop :: stops =>
    let reply := t.scan src start stop addresses .never
    let rest := scanChunks src addresses reply.tracker (stop + 1) stops
    (reply :: rest.1, rest.2)

variable {src : Source} {t : Tracker} {addresses : List String} {start stop : Height}
  {stops : List Height} {w : WatchSet}

variable (src) in
/-- Scans for registered addresses all fail in the same way, or there is something to watch. -/
theorem scan_fails_or_watches (h : (t.book.watchSet addresses).2 = t.book) :
    (∃ e, ∀ start stop, t.scan src start stop addresses .never = ⟨.error e, [], t⟩) ∨
      ∃ w, t.book.watchSet addresses = (.ok w, t.book) ∧ w.isEmpty = false := by
  cases hset : (t.book.watchSet addresses).1 with
  | error e =>
    refine .inl ⟨e, fun start stop => ?_⟩
    rw [scan_of_watchSet_error hset, h]
  | ok w =>
    have hwatch : t.book.watchSet addresses = (.ok w, t.book) := Prod.ext hset h
    cases hw : w.isEmpty with
    | false => exact .inr ⟨w, hwatch, hw⟩
    | true =>
      refine .inl ⟨.noScripts, fun start stop => ?_⟩
      have hrefused : (scanRange src w start stop .never).value = .error .noScripts := by
        rw [scanRange_of_no_scripts hw]
      rw [scan_of_watchSet_self hwatch, scanWatched_of_error hrefused, scanRange_of_no_scripts hw]

theorem scan_of_ok (h : t.book.watchSet addresses = (.ok w, t.book)) (hw : w.isEmpty = false) :
    t.scan src start stop addresses .never =
      ⟨.ok (Pass.summary src ⟨w, start, stop⟩), Pass.calls src ⟨w, start, stop⟩,
        { t with ledger := t.ledger.enter src ⟨w, start, stop⟩ }⟩ := by
  rw [scan_of_watchSet_self h, scanWatched_of_ok (scanRange_never hw), calls_scanRange_never hw]
  rfl

theorem scanChunks_of_error {e : Failure}
    (h : ∀ start stop, t.scan src start stop addresses .never = ⟨.error e, [], t⟩) :
    t.scanChunks src addresses start stops = (stops.map fun _ => ⟨.error e, [], t⟩, t) := by
  induction stops generalizing start with
  | nil => rfl
  | cons stop stops ih => simp only [scanChunks, h, ih, List.map_cons]

variable (src) in
theorem scanChunks_of_ok (start : Height) (stops : List Height)
    (h : t.book.watchSet addresses = (.ok w, t.book)) (hw : w.isEmpty = false) :
    let passes := w.chunks start stops
    let parts := t.scanChunks src addresses start stops
    parts.1.map (·.result) = passes.map (fun p => .ok (p.summary src)) ∧
      parts.1.flatMap (·.calls) = passes.flatMap (Pass.calls src) ∧
      parts.2 = { t with ledger := t.ledger.enterAll src passes } := by
  induction stops generalizing t start with
  | nil => exact ⟨rfl, rfl, rfl⟩
  | cons stop stops ih =>
    obtain ⟨hresults, hcalls, htracker⟩ :=
      ih (stop + 1) (t := { t with ledger := t.ledger.enter src ⟨w, start, stop⟩ }) h
    simp only [scanChunks, scan_of_ok h hw, WatchSet.chunks]
    refine ⟨?_, ?_, htracker⟩
    · rw [List.map_cons, List.map_cons, hresults]
    · rw [List.flatMap_cons, List.flatMap_cons, hcalls]

variable (src) in
/-- It makes no difference if the addresses are registered beforehand. -/
theorem exists_registered (hbook : t.book.Coherent) (addresses : List String) :
    ∃ u : Tracker, u.book.watchSet addresses = ((t.book.watchSet addresses).1, u.book) ∧
      (∀ start stop, u.scan src start stop addresses .never =
        t.scan src start stop addresses .never) ∧
      ∀ start stops, stops ≠ [] →
        u.scanChunks src addresses start stops = t.scanChunks src addresses start stops := by
  let u : Tracker := { t with book := (t.book.watchSet addresses).2 }
  have hagain : u.book.watchSet addresses = t.book.watchSet addresses :=
    hbook.watchSet_of_extends (hbook.registerEach addresses).1 (.refl _)
  have hscan (start stop : Height) :
      u.scan src start stop addresses .never = t.scan src start stop addresses .never := by
    unfold scan scanIn
    rw [hagain]
  refine ⟨u, hagain, hscan, fun start stops hne => ?_⟩
  cases stops with
  | nil => exact absurd rfl hne
  | cons stop stops => simp only [scanChunks, hscan]

/-- **Scanning in chunks is scanning in one go.**  The address book is coherent, as that of every
session is (`Session.Sound`).  If no chunk creates a watched output that an earlier one consumed,
the tracker afterwards is the same and the calls are the same.  Either every chunk fails, in the way
in which the scan in one go fails, or the skipped heights, the matched blocks and the consumed
outpoints are those of the chunks. -/
theorem scanChunks_eq_scan (hbook : t.book.Coherent) (addresses : List String)
    (hstops : Ascending start (stops ++ [stop]))
    (hlate : ∀ w, (t.book.watchSet addresses).1 = .ok w →
      (w.chunks start (stops ++ [stop])).Pairwise fun p q =>
        ∀ o, p.Consumes src o → ¬ q.Creates src o) :
    let whole := t.scan src start stop addresses .never
    let parts := t.scanChunks src addresses start (stops ++ [stop])
    parts.2 = whole.tracker ∧ parts.1.flatMap (·.calls) = whole.calls ∧
      ((∃ e, whole.result = .error e ∧ ∀ r ∈ parts.1, r.result = .error e) ∨
        ∃ (w : WatchSet) (total : Summary) (summaries : List Summary),
          (t.book.watchSet addresses).1 = .ok w ∧ whole.result = .ok total ∧
          parts.1.map (·.result) = summaries.map .ok ∧
          total.skipped = summaries.flatMap (·.skipped) ∧
          total.matched = (summaries.map (·.matched)).sum ∧
          ∃ f, (scanRange src w start stop .never).value = .ok f ∧
            ∀ o, o ∈ f.spent ↔ ∃ p ∈ w.chunks start (stops ++ [stop]),
              ∃ g, (scanRange src w p.start p.stop .never).value = .ok g ∧ o ∈ g.spent) := by
  obtain ⟨u, hset, hscan, hchunks⟩ := exists_registered src hbook addresses
  have hwatched : (u.book.watchSet addresses).1 = (t.book.watchSet addresses).1 := by rw [hset]
  have hregistered : (u.book.watchSet addresses).2 = u.book := by rw [hset]
  rw [← hscan start stop, ← hchunks start (stops ++ [stop]) (by simp), ← hwatched]
  rw [← hwatched] at hlate
  rcases scan_fails_or_watches src hregistered with
    ⟨e, hfail⟩ | ⟨w, hwatch, hw⟩
  · rw [scanChunks_of_error hfail, hfail]
    refine ⟨rfl, by simp, .inl ⟨e, rfl, fun r hr => ?_⟩⟩
    obtain ⟨_, _, rfl⟩ := List.mem_map.mp hr
    rfl
  · obtain ⟨hresults, hcalls, htracker⟩ :=
      scanChunks_of_ok src start (stops ++ [stop]) hwatch hw
    have hlate := hlate w (by rw [hwatch])
    rw [scan_of_ok hwatch hw, hwatch]
    refine ⟨?_, ?_, .inr ⟨w, _, (w.chunks start (stops ++ [stop])).map (Pass.summary src), rfl, rfl,
      ?_, ?_, ?_, Pass.exists_spent_chunks hw hstops⟩⟩
    · rw [htracker, Ledger.enterAll_chunks hstops hlate]
    · rw [hcalls, Pass.calls_chunks hstops]
    · rw [hresults, List.map_map]
      rfl
    · rw [Pass.skipped_chunks hstops, List.flatMap_map]
    · rw [Pass.matched_chunks hstops, List.map_map]
      rfl

end Tracker

namespace Sample

theorem scripts_of_address :
    ((session.tracker.book.watchSet [address]).1.map WatchSet.scripts) = .ok [script 1] := by
  decide +kernel

theorem not_created_in_second_chunk : ∀ q ∈ (source.walked [script 1] 2 3).outputs,
    q.output.script ∉ [script 1] := by
  decide +kernel

theorem held_after_one_scan :
    let l := (session.tracker.scan source 0 3 [address] .never).tracker.ledger
    l.get ⟨fundingId, 0⟩ = none ∧
      l.get ⟨fundingId, 2⟩ = some ⟨⟨fundingId, 2⟩, 300, address, script 1, 1⟩ ∧ l.size = 1 := by
  decide +kernel

/-- The block of the creation is in one chunk and that of the spend in the next.  One of two outputs
is held in the end, and the other is not. -/
theorem scanned_in_two_chunks :
    let t := (session.tracker.scanChunks source [address] 0 [1, 3]).2
    t = (session.tracker.scan source 0 3 [address] .never).tracker ∧
      t.ledger.get ⟨fundingId, 0⟩ = none ∧
      t.ledger.get ⟨fundingId, 2⟩ = some ⟨⟨fundingId, 2⟩, 300, address, script 1, 1⟩ ∧
      t.ledger.size = 1 := by
  intro t
  have hstops : Ascending 0 ([1] ++ [3]) := ⟨by decide, by decide⟩
  have hlate : ∀ w, (session.tracker.book.watchSet [address]).1 = .ok w →
      (w.chunks 0 ([1] ++ [3])).Pairwise fun p q =>
        ∀ o, p.Consumes source o → ¬ q.Creates source o := by
    intro w hw
    have hscripts : w.scripts = [script 1] := by
      have hmap := scripts_of_address
      rw [hw] at hmap
      exact Except.ok.inj hmap
    have hsecond : ∀ o, ¬ Pass.Creates source ⟨w, 2, 3⟩ o := by
      rintro o ⟨q, hq, _, hpays⟩
      simp only [Pass.walked, hscripts] at hq hpays
      exact not_created_in_second_chunk q hq hpays
    exact List.pairwise_pair.mpr fun o _ => hsecond o
  have hbook : session.tracker.book.Coherent := AddressBook.coherent_empty .regtest
  obtain ⟨htracker, _⟩ := Tracker.scanChunks_eq_scan hbook [address] hstops hlate
  have ht : t = (session.tracker.scan source 0 3 [address] .never).tracker := htracker
  refine ⟨ht, ?_⟩
  rw [ht]
  exact held_after_one_scan

end Sample

end CoinWatch
