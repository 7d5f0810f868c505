import CoinWatch.Proofs.Accounts
import CoinWatch.Proofs.Requests

/-! # Where a token cuts a run

A walk looks at its token before each height, and at no other moment.  So a token that fires while
the hash of a height is asked for lets the walk finish that height, and ends it before the next one
if there is a next one.  How many heights a walk probes when nothing cancels it (`reach`) decides
whether there is: the walk may have seen enough, or its range may be over (`sweep_firingAt_of_lt`,
`sweep_firingAt_of_not_lt`).

What this means for a run over a range is told by its calls alone, without regard to the states in
between (`CutAtHeights`).  It holds of walks, and goes over to all that is computed from the end of
a walk: scans and lookups, those of a tracker and those up to the tip.  Besides, a scan of a tracker
commits all or nothing (`CommitsWhole`).  Both together are `cut_at_heights`. -/

namespace CoinWatch

/-! ### Calls for hashes -/

namespace Source

variable {src : Source} {scripts : List Script}

/-- Probing a height asks for its hash first, and for no hash after that. -/
theorem calls_probe (src : Source) (scripts : List Script) (h : Height) :
    ∃ rest, (src.probe scripts h).calls = .hash h :: rest ∧ ∀ k, .hash k ∉ rest := by
  refine ⟨_, src.calls_probe_eq_asked scripts h, fun k => ?_⟩
  cases src.hashAt h with
  | error text => exact List.not_mem_nil
  | ok x =>
    dsimp only
    split <;> simp

theorem hash_mem_calls_probe {h k : Height} : .hash k ∈ (src.probe scripts h).calls ↔ k = h := by
  obtain ⟨rest, hcalls, hrest⟩ := src.calls_probe scripts h
  simp [hcalls, hrest k]

end Source

/-! ### Sweeps -/

section sweep

variable {σ : Type} {src : Source} {scripts : List Script} {visit : Height → Probe → σ → σ}
  {enough : σ → Bool}

variable {n h c k : ℕ} {token : Token} {s : σ}

theorem hash_mem_calls_sweep :
    .hash k ∈ (sweep src scripts visit enough n h .never s).calls ↔
      h ≤ k ∧ k < h + reach src scripts visit enough n h s := by
  rw [calls_sweep, List.mem_flatMap]
  simp only [Source.hash_mem_calls_probe, exists_eq_right', List.mem_range'_1]

theorem Token.after_firingAt_self (c : Height) : ((firingAt c).after c).fired = true := by
  simp [after, firingAt]

theorem Token.after_firingAt_of_ne (h : k ≠ c) : (firingAt c).after k = firingAt c := by
  simp [after, firingAt, h]

/-- A token that fires at a height which is not the last one reached ends the walk before the
next. -/
theorem sweep_firingAt_of_lt (hc : h ≤ c)
    (hlt : c + 1 < h + reach src scripts visit enough n h s) :
    sweep src scripts visit enough n h (.firingAt c) s =
      ⟨.error (.cancelled (c + 1)),
        (List.range' h (c + 1 - h)).flatMap fun k => (src.probe scripts k).calls⟩ := by
  induction n generalizing h s with
  | zero =>
    rw [reach] at hlt
    omega
  | succ n ih =>
    cases he : enough (visit h (src.probe scripts h).value s) with
    | true =>
      rw [reach_succ_of_enough he] at hlt
      omega
    | false =>
      rw [reach_succ_of_not_enough he] at hlt
      rw [sweep_succ_of_not_enough rfl he]
      have hlen : c + 1 - h = c - h + 1 := by omega
      rw [hlen, List.range'_succ, List.flatMap_cons]
      rcases Nat.eq_or_lt_of_le hc with rfl | hlt'
      · -- The walk has another height before it, which the fired token withholds.
        have hle := reach_le src scripts visit enough n (h + 1)
          (visit h (src.probe scripts h).value s)
        obtain ⟨m, rfl⟩ : ∃ m, n = m + 1 := ⟨n - 1, by omega⟩
        rw [sweep_succ_of_fired (Token.after_firingAt_self h), Nat.sub_self]
        rfl
      · have hc' : h + 1 ≤ c := hlt'
        rw [Token.after_firingAt_of_ne (Nat.ne_of_lt hlt'), ih hc' (by omega),
          Nat.add_sub_add_right]

/-- A token that fires at the last height reached, or at none of them, changes nothing. -/
theorem sweep_firingAt_of_not_lt
    (hc : ¬ (h ≤ c ∧ c + 1 < h + reach src scripts visit enough n h s)) :
    sweep src scripts visit enough n h (.firingAt c) s =
      sweep src scripts visit enough n h .never s := by
  induction n generalizing h s with
  | zero => rfl
  | succ n ih =>
    cases he : enough (visit h (src.probe scripts h).value s) with
    | true => rw [sweep_succ_of_enough rfl he, sweep_succ_of_enough rfl he]
    | false =>
      rw [reach_succ_of_not_enough he] at hc
      rw [sweep_succ_of_not_enough rfl he, sweep_succ_of_not_enough rfl he, Token.after_never]
      by_cases hhc : h = c
      · -- The token fires at the last height of the range.
        subst hhc
        obtain rfl : n = 0 := by
          by_contra hn
          have hpos : 0 < reach src scripts visit enough n (h + 1)
              (visit h (src.probe scripts h).value s) := reach_pos (Nat.pos_of_ne_zero hn)
          omega
        rfl
      · rw [Token.after_firingAt_of_ne hhc, ih (by omega)]

end sweep

/-! ### Runs over a range -/

/-- A run that nothing cancels asks for the hash at a height, and for one above it. -/
def AsksBeyond {α : Type} (run : Token → Traced α) (c : Height) : Prop :=
  .hash c ∈ (run .never).calls ∧ ∃ k > c, .hash k ∈ (run .never).calls

/-- A run over the heights from `start` to `stop`, which makes some calls before it comes to them,
is cut by its token between two heights or not at all. -/
structure CutAtHeights {α : Type} (src : Source) (scripts : List Script) (before : List Call)
    (start stop : Height) (run : Token → Traced (Except Failure α)) : Prop where
  /-- A token that fired beforehand lets no height be looked at. -/
  beforehand : start ≤ stop → run .alreadyFired = ⟨.error (.cancelled start), before⟩
  /-- A token that fires at a height lets that height be finished, but not the next one be
  begun. -/
  during : ∀ c, AsksBeyond run c →
    (start ≤ c ∧ c + 1 ≤ stop) ∧
    run (.firingAt c) = ⟨.error (.cancelled (c + 1)),
      before ++ (heights start c).flatMap fun h => (src.probe scripts h).calls⟩ ∧
    ∃ rest, (run .never).calls = (run (.firingAt c)).calls ++ .hash (c + 1) :: rest
  /-- A token that fires at the last height asked for, or at one never asked for, comes too
  late. -/
  late : ∀ c, ¬ AsksBeyond run c → run (.firingAt c) = run .never
  /-- Without heights there is nothing to cut. -/
  vacuous : stop < start → ∀ token, run token = run .never

section runs

variable {σ : Type} {src : Source} {scripts : List Script} {visit : Height → Probe → σ → σ}
  {enough : σ → Bool} {start stop : ℕ}

theorem asksBeyond_sweepRange {s : σ} {c : ℕ} :
    AsksBeyond (fun token => sweepRange src scripts visit enough start stop token s) c ↔
      start ≤ c ∧
        c + 1 < start + reach src scripts visit enough (rangeSize start stop) start s := by
  simp only [AsksBeyond, sweepRange, hash_mem_calls_sweep]
  constructor
  · rintro ⟨hc, k, hk, _, hreach⟩
    exact ⟨hc.1, Nat.lt_of_le_of_lt hk hreach⟩
  · rintro ⟨hstart, hlt⟩
    exact ⟨⟨hstart, by omega⟩, c + 1, Nat.lt_succ_self c, by omega, hlt⟩

theorem cutAtHeights_sweepRange (src : Source) (scripts : List Script)
    (visit : Height → Probe → σ → σ) (enough : σ → Bool) (start stop : ℕ) (s : σ) :
    CutAtHeights src scripts [] start stop
      fun token => sweepRange src scripts visit enough start stop token s := by
  refine ⟨fun hle => ?_, fun (c : ℕ) hc => ?_, fun c hc => ?_, fun hlt token => ?_⟩
  · have hsize : rangeSize start stop = stop - start + 1 := Nat.succ_sub hle
    rw [sweepRange, hsize]
    exact sweep_succ_of_fired rfl
  · obtain ⟨hstart, hlt⟩ := asksBeyond_sweepRange.mp hc
    have hcut : sweepRange src scripts visit enough start stop (.firingAt c) s =
        ⟨.error (.cancelled (c + 1)),
          (heights start c).flatMap fun h => (src.probe scripts h).calls⟩ :=
      sweep_firingAt_of_lt hstart hlt
    have hstop : c + 1 ≤ stop := by
      have hreach := reach_le src scripts visit enough (rangeSize start stop) start s
      have hsize : rangeSize start stop = stop + 1 - start := rfl
      omega
    refine ⟨⟨hstart, hstop⟩, hcut, ?_⟩
    -- The heights reached are those up to `c`, then the next one, then perhaps others.
    obtain ⟨calls, hprobe, _⟩ := src.calls_probe scripts (c + 1)
    rw [hcut, sweepRange, calls_sweep]
    generalize reach src scripts visit enough (rangeSize start stop) start s = r at hlt
    obtain ⟨m, rfl⟩ : ∃ m, r = (c + 1 - start) + (m + 1) := ⟨start + r - (c + 2), by omega⟩
    rw [← List.range'_append_1, Nat.add_sub_cancel' (by omega : start ≤ c + 1), List.range'_succ,
      List.flatMap_append, List.flatMap_cons, hprobe]
    exact ⟨_, rfl⟩
  · exact sweep_firingAt_of_not_lt fun h => hc (asksBeyond_sweepRange.mpr h)
  · have hsize : rangeSize start stop = 0 := Nat.sub_eq_zero_of_le hlt
    simp only [sweepRange, hsize]
    rfl

/-- What is computed from the end of a run, and calls that come first and ask for no hash, leave the
cut where it is. -/
theorem CutAtHeights.of_run {α β : Type} {before : List Call}
    {run : Token → Traced (Except Failure α)} {run' : Token → Traced (Except Failure β)}
    (hrun : CutAtHeights src scripts before start stop run) (first : List Call)
    (hfirst : ∀ k, .hash k ∉ first) (f : Except Failure α → Except Failure β)
    (hf : ∀ e, f (.error e) = .error e)
    (heq : ∀ token, run' token = ⟨f (run token).value, first ++ (run token).calls⟩) :
    CutAtHeights src scripts (first ++ before) start stop run' := by
  have hasks (c : Height) : AsksBeyond run' c ↔ AsksBeyond run c := by
    simp only [AsksBeyond, heq, List.mem_append, hfirst, false_or]
  refine ⟨fun hle => ?_, fun c hc => ?_, fun c hc => ?_, fun hlt token => ?_⟩
  · rw [heq, hrun.beforehand hle]
    simp only [hf]
  · obtain ⟨hrange, hcut, rest, hrest⟩ := hrun.during c ((hasks c).mp hc)
    refine ⟨hrange, ?_, rest, ?_⟩
    · rw [heq, hcut]
      simp only [hf, List.append_assoc]
    · rw [heq, heq, hrest, List.append_assoc]
  · rw [heq, heq, hrun.late c (fun h => hc ((hasks c).mpr h))]
  · rw [heq, heq, hrun.vacuous hlt token]

theorem cutAtHeights_scanRange {w : WatchSet} (hw : w.isEmpty = false) :
    CutAtHeights src w.scripts [] start stop (scanRange src w start stop) := by
  refine (cutAtHeights_sweepRange src w.scripts (Findings.visit w) (fun _ => false) start stop
    .empty).of_run [] (by simp) (·.map Findings.reconcile) (fun e => rfl) fun token => ?_
  rw [scanRange_of_scripts hw]
  exact congrArg (Traced.mk _) (List.append_nil _)

theorem scanRange_of_not_cancelled {w : WatchSet} {token : Token}
    (h : ∀ k, (scanRange src w start stop token).value ≠ .error (.cancelled k)) :
    scanRange src w start stop token = scanRange src w start stop .never := by
  cases hw : w.isEmpty with
  | true => rw [scanRange_of_no_scripts hw, scanRange_of_no_scripts hw]
  | false =>
    rw [scanRange_of_scripts hw] at h
    rw [scanRange_of_scripts hw, scanRange_of_scripts hw]
    cases hs : (sweepRange src w.scripts (Findings.visit w) (fun _ => false) start stop token
        .empty).value with
    | ok f => rw [sweepRange_of_ok hs]
    | error e =>
      obtain ⟨k, rfl⟩ := sweep_of_error hs
      exact absurd (map_eq_error_iff.mpr hs) (h k)

theorem cutAtHeights_lookup (target : OutPoint) (script : Script) :
    CutAtHeights src [script] [] start stop (lookup src target script start stop) := by
  refine (cutAtHeights_sweepRange src [script] (Sighting.visit target) Sighting.isSpent start stop
    .unseen).of_run [] (by simp) (·.bind (Sighting.report target start)) (fun e => rfl)
    fun token => ?_
  exact congrArg (Traced.mk _) (List.append_nil _)

end runs

/-! ### Trackers -/

/-- The result of a request and the calls made for it. -/
def Reply.traced {α : Type} (r : Reply α) : Traced (Except Failure α) := ⟨r.result, r.calls⟩

theorem Reply.value_traced {α : Type} (r : Reply α) : r.traced.value = r.result := rfl

/-- A run commits all or nothing: if it is cancelled, the ledger is as it was before, and if not, it
is in all respects the run without a cancellation. -/
structure Tracker.CommitsWhole {α : Type} (t : Tracker) (run : Token → Reply α) : Prop where
  nothing : ∀ token k, (run token).result = .error (.cancelled k) →
    (run token).tracker.ledger = t.ledger
  everything : ∀ token, (∀ k, (run token).result ≠ .error (.cancelled k)) → run token = run .never

namespace Tracker

variable {src : Source} {t : Tracker} {w : WatchSet} {start stop : Height}

theorem commitsWhole_scanWatched (src : Source) (t : Tracker) (w : WatchSet)
    (start stop : Height) : t.CommitsWhole (t.scanWatched src w start stop) where
  nothing token k h := by
    cases hs : (scanRange src w start stop token).value with
    | error e => rw [scanWatched_of_error hs]
    | ok f =>
      rw [scanWatched_of_ok hs] at h
      cases h
  everything token h := by
    have hscan : scanRange src w start stop token = scanRange src w start stop .never := by
      refine scanRange_of_not_cancelled fun k hk => h k ?_
      rw [scanWatched_of_error hk]
    cases hs : (scanRange src w start stop .never).value with
    | error e => rw [scanWatched_of_error hs, scanWatched_of_error (by rw [hscan, hs]), hscan]
    | ok f => rw [scanWatched_of_ok hs, scanWatched_of_ok (by rw [hscan, hs]), hscan]

theorem commitsWhole_scan (src : Source) (t : Tracker) (start stop : Height)
    (addresses : List String) : t.CommitsWhole (t.scan src start stop addresses) := by
  cases hw : (t.book.watchSet addresses).1 with
  | error e =>
    constructor
    · intro token k _
      rw [scan_of_watchSet_error hw]
    · intro token _
      rw [scan_of_watchSet_error hw, scan_of_watchSet_error hw]
  | ok w =>
    have hscan := commitsWhole_scanWatched src
      { t with book := (t.book.watchSet addresses).2 } w start stop
    constructor
    · intro token k h
      rw [scan_of_watchSet_ok hw] at h ⊢
      exact hscan.nothing token k h
    · intro token h
      simp only [scan_of_watchSet_ok hw] at h ⊢
      exact hscan.everything token h

theorem commitsWhole_scanToTip (src : Source) (t : Tracker) (w : WatchSet) (start : Height) :
    t.CommitsWhole (t.scanToTip src w start) := by
  cases htip : src.tip with
  | error text =>
    constructor
    · intro token k _
      rw [scanToTip_of_error htip]
    · intro token _
      rw [scanToTip_of_error htip, scanToTip_of_error htip]
  | ok stop =>
    have hscan := commitsWhole_scanWatched src t w start stop
    constructor
    · intro token k h
      rw [scanToTip_of_ok htip] at h ⊢
      exact hscan.nothing token k h
    · intro token h
      simp only [scanToTip_of_ok htip] at h ⊢
      rw [hscan.everything token h]

theorem cutAtHeights_scanWatched (hw : w.isEmpty = false) :
    CutAtHeights src w.scripts [] start stop
      fun token => (t.scanWatched src w start stop token).traced := by
  refine (cutAtHeights_scanRange hw).of_run [] (by simp)
    (·.map fun f => ⟨start, stop, f.created.size, f.spent.size, f.skipped, f.matched⟩)
    (fun e => rfl) fun token => ?_
  cases h : (scanRange src w start stop token).value with
  | error e =>
    rw [scanWatched_of_error h]
    rfl
  | ok f =>
    rw [scanWatched_of_ok h]
    rfl

theorem cutAtHeights_scan {addresses : List String} (hw : (t.book.watchSet addresses).1 = .ok w)
    (hne : w.isEmpty = false) :
    CutAtHeights src w.scripts [] start stop
      fun token => (t.scan src start stop addresses token).traced := by
  simp only [scan_of_watchSet_ok hw]
  exact cutAtHeights_scanWatched hne

theorem cutAtHeights_scanToTip (htip : src.tip = .ok stop) (hne : w.isEmpty = false) :
    CutAtHeights src w.scripts [.tip] start stop
      fun token => (t.scanToTip src w start token).traced := by
  refine (cutAtHeights_scanWatched (t := t) hne).of_run [.tip] (by simp) id (fun e => rfl)
    fun token => ?_
  rw [scanToTip_of_ok htip]
  rfl

theorem cutAtHeights_trackerLookup {txid address : String} {vout : UInt32} {target : OutPoint}
    {script : Script} (htarget : t.target txid vout address = .ok (target, script)) :
    CutAtHeights src [script] [] start stop (t.lookup src txid vout address start stop) := by
  have hlookup : t.lookup src txid vout address start stop =
      CoinWatch.lookup src target script start stop := by
    funext token
    simp only [Tracker.lookup, htarget]
  rw [hlookup]
  exact cutAtHeights_lookup target script

end Tracker

/-- A token cuts scans and lookups at the boundary between two heights or not at all, and a scan or
rescan that is cut leaves the ledger as it was. -/
theorem cut_at_heights (src : Source) (start : Height) :
    (∀ stop w, w.isEmpty = false →
      CutAtHeights src w.scripts [] start stop (scanRange src w start stop)) ∧
    (∀ stop target script,
      CutAtHeights src [script] [] start stop (lookup src target script start stop)) ∧
    ∀ t : Tracker,
      (∀ stop addresses,
        (∀ w, (t.book.watchSet addresses).1 = .ok w → w.isEmpty = false →
          CutAtHeights src w.scripts [] start stop
            fun token => (t.scan src start stop addresses token).traced) ∧
        t.CommitsWhole (t.scan src start stop addresses)) ∧
      (∀ w,
        (∀ stop, src.tip = .ok stop → w.isEmpty = false →
          CutAtHeights src w.scripts [.tip] start stop
            fun token => (t.scanToTip src w start token).traced) ∧
        t.CommitsWhole (t.scanToTip src w start)) ∧
      ∀ stop txid vout address target script,
        t.target txid vout address = .ok (target, script) →
          CutAtHeights src [script] [] start stop (t.lookup src txid vout address start stop) := by
  refine ⟨fun stop w hw => cutAtHeights_scanRange hw,
    fun stop target script => cutAtHeights_lookup target script, fun t => ⟨?_, ?_, ?_⟩⟩
  · intro stop addresses
    exact ⟨fun w hw hne => Tracker.cutAtHeights_scan hw hne,
      Tracker.commitsWhole_scan src t start stop addresses⟩
  · intro w
    exact ⟨fun stop htip hne => Tracker.cutAtHeights_scanToTip htip hne,
      Tracker.commitsWhole_scanToTip src t w start⟩
  · intro stop txid vout address target script htarget
    exact Tracker.cutAtHeights_trackerLookup htarget

namespace Sample

theorem watchSet_address : (session.tracker.book.watchSet [address]).1.map WatchSet.isEmpty =
    .ok false := by
  decide +kernel

theorem asks_beyond :
    AsksBeyond (fun token => (session.tracker.scan source 1 3 [address] token).traced) 2 ∧
      ¬ AsksBeyond (lookup source ⟨fundingId, 0⟩ (script 1) 1 7) 3 := by
  refine ⟨⟨?_, 3, by decide, ?_⟩, ?_⟩
  · decide +kernel
  · decide +kernel
  · rintro ⟨_, k, hk, hcall⟩
    have hheights : ∀ k ∈ (lookup source ⟨fundingId, 0⟩ (script 1) 1 7 .never).calls.filterMap
        Call.height?, k ≤ 3 := by decide +kernel
    exact Nat.not_le_of_gt hk (hheights k (List.mem_filterMap.mpr ⟨_, hcall, rfl⟩))

/-- A token that fires at the second height ends a scan before the third and keeps it from the
ledger; one that fires at the height of the spend does nothing to a lookup. -/
theorem cut_before_third_height :
    (session.tracker.scan source 1 3 [address] (.firingAt 2)).result = .error (.cancelled 3) ∧
      (session.tracker.scan source 1 3 [address] (.firingAt 2)).tracker.ledger =
        session.tracker.ledger ∧
      lookup source ⟨fundingId, 0⟩ (script 1) 1 7 (.firingAt 3) =
        lookup source ⟨fundingId, 0⟩ (script 1) 1 7 .never := by
  obtain ⟨hbeyond, hnot⟩ := asks_beyond
  obtain ⟨_, hlookup, htracker⟩ := cut_at_heights source 1
  obtain ⟨hscan, hwhole⟩ := (htracker session.tracker).1 3 [address]
  cases hw : (session.tracker.book.watchSet [address]).1 with
  | error e =>
    have hok := watchSet_address
    rw [hw] at hok
    cases hok
  | ok w =>
    have hok := watchSet_address
    rw [hw] at hok
    obtain ⟨_, hcut, _⟩ := (hscan w hw (Except.ok.inj hok)).during 2 hbeyond
    have hresult : (session.tracker.scan source 1 3 [address] (.firingAt 2)).result =
        .error (.cancelled 3) := by
      rw [← Reply.value_traced]
      exact congrArg Traced.value hcut
    exact ⟨hresult, hwhole.nothing (.firingAt 2) 3 hresult, (hlookup 7 _ _).late 3 hnot⟩

end Sample

end CoinWatch
