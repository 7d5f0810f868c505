import CoinWatch.Proofs.Background

/-! # What a scan does to the ledger

A scan that ends well enters all that it created and strikes out all that it spent.  The two have no
outpoint in common, since a scan drops what it sees consumed, so the created coins are held
afterwards, the spent outpoints are not, and at every other outpoint the ledger is as it was
(`Findings.Enters`).  Such an entry made twice is made once (`Ledger.apply_apply`), and a list of
addresses that was registered is known, so the same scan once more changes nothing
(`Tracker.Commits`).  This holds of scans in the foreground and of rescans that were waited for,
each at its turn (`Session.commits_of_ok`). -/

namespace CoinWatch

/-! ### What enters a ledger -/

namespace Ledger

variable {l : Ledger} {created : Coins} {spent : OutPoints} {o : OutPoint}

/-- The outpoints at which a coin is held. -/
def outpoints (l : Ledger) : List OutPoint := l.coins.keys

theorem mem_outpoints : o ∈ l.outpoints ↔ (l.get o).isSome := by
  rw [outpoints, Std.ExtTreeMap.mem_keys, Std.ExtTreeMap.mem_iff_isSome_getElem?, get]

theorem nodup_outpoints (l : Ledger) : l.outpoints.Nodup := Std.ExtTreeMap.nodup_keys

theorem length_outpoints (l : Ledger) : l.outpoints.length = l.size := Std.ExtTreeMap.length_keys

theorem apply_apply (l : Ledger) (created : Coins) (spent : OutPoints) :
    (l.apply created spent).apply created spent = l.apply created spent := by
  apply ext_get
  intro o
  simp only [get_apply]
  split
  · rfl
  · cases created[o]? <;> rfl

/-- What is held afterwards was held before and not touched, or was created. -/
theorem outpoints_apply (hdisjoint : ∀ o ∈ created, o ∉ spent) :
    (l.apply created spent).outpoints.Perm
      (l.outpoints.filter (fun o => o ∉ created ∧ o ∉ spent) ++ created.keys) := by
  have hold : (l.outpoints.filter fun o => o ∉ created ∧ o ∉ spent).Nodup :=
    l.nodup_outpoints.filter _
  have hboth : (l.outpoints.filter (fun o => o ∉ created ∧ o ∉ spent) ++ created.keys).Nodup := by
    refine List.nodup_append'.mpr ⟨hold, Std.ExtTreeMap.nodup_keys, fun o ho hc => ?_⟩
    have houtside := (List.mem_filter.mp ho).2
    simp only [decide_eq_true_eq] at houtside
    exact houtside.1 (Std.ExtTreeMap.mem_keys.mp hc)
  rw [List.perm_ext_iff_of_nodup (nodup_outpoints _) hboth]
  intro o
  rw [List.mem_append, List.mem_filter, Std.ExtTreeMap.mem_keys, mem_outpoints, mem_outpoints,
    get_apply, decide_eq_true_iff]
  have hcreated : o ∈ created ↔ created[o]?.isSome := Std.ExtTreeMap.mem_iff_isSome_getElem?
  by_cases hs : o ∈ spent
  · have hc : o ∉ created := fun hc => hdisjoint o hc hs
    simp [hs, hc]
  · cases hc : created[o]? with
    | none => simp [hs, hcreated, hc]
    | some c => simp [hs, hcreated, hc]

end Ledger

/-- One ledger turns into another by what a scan found: what was created is held, what was spent is
not, and the rest is as it was. -/
structure Findings.Enters (f : Findings) (l l' : Ledger) : Prop where
  disjoint : ∀ o ∈ f.created, o ∉ f.spent
  created : ∀ (o : OutPoint) (c : Coin), f.created[o]? = some c → l'.get o = some c
  spent : ∀ o ∈ f.spent, l'.get o = none
  untouched : ∀ o, o ∉ f.created → o ∉ f.spent → l'.get o = l.get o
  size : l'.size =
    (l.outpoints.filter fun o => o ∉ f.created ∧ o ∉ f.spent).length + f.created.size

theorem not_mem_spent_findings {src : Source} {w : WatchSet} {start stop : Height} :
    ∀ o ∈ (findings src w start stop).created, o ∉ (findings src w start stop).spent := by
  intro o hc hs
  rw [Std.ExtTreeMap.mem_iff_isSome_getElem?, getElem?_created_findings, WatchSet.unspent?,
    if_pos (mem_spent_findings.mp hs)] at hc
  cases hc

theorem Findings.enters_apply {f : Findings} (h : ∀ o ∈ f.created, o ∉ f.spent) (l : Ledger) :
    f.Enters l (l.apply f.created f.spent) where
  disjoint := h
  created o c hc := by
    have hmem : o ∈ f.created := (Std.ExtTreeMap.getElem?_eq_some_iff.mp hc).1
    rw [Ledger.get_apply, if_neg (h o hmem), hc]
    rfl
  spent o hs := by rw [Ledger.get_apply, if_pos hs]
  untouched o hc hs := by
    rw [Ledger.get_apply, if_neg hs, Std.ExtTreeMap.getElem?_eq_none hc]
    rfl
  size := by
    rw [← Ledger.length_outpoints, (Ledger.outpoints_apply h).length_eq, List.length_append,
      Std.ExtTreeMap.length_keys]

/-! ### Scans of a tracker -/

namespace Tracker

/-- A scan that came to a summary has entered what it found, and leaves a tracker for which the same
scan, if nothing cancels it, comes to the same summary and changes nothing. -/
structure Commits (t : Tracker) (src : Source) (start stop : Height) (addresses : List String)
    (token : Token) (summary : Summary) (after : Tracker) : Prop where
  entered : ∃ w f, (t.book.watchSet addresses).1 = .ok w ∧
    (scanRange src w start stop token).value = .ok f ∧ f.Enters t.ledger after.ledger ∧
    summary = ⟨start, stop, f.created.size, f.spent.size, f.skipped, f.matched⟩
  result_again : (after.scan src start stop addresses .never).result = .ok summary
  tracker_again : (after.scan src start stop addresses .never).tracker = after

variable {src : Source} {t : Tracker} {start stop : Height} {addresses : List String}
  {token : Token} {summary : Summary}

/-- A scan that ends well had something to watch, and entered its findings. -/
theorem scan_eq_of_ok (hok : (t.scan src start stop addresses token).result = .ok summary) :
    ∃ w f, (t.book.watchSet addresses).1 = .ok w ∧ w.isEmpty = false ∧
      (scanRange src w start stop token).value = .ok f ∧ f = findings src w start stop ∧
      summary = ⟨start, stop, f.created.size, f.spent.size, f.skipped, f.matched⟩ ∧
      (t.scan src start stop addresses token).tracker =
        ⟨t.config, (t.book.watchSet addresses).2, t.ledger.apply f.created f.spent⟩ := by
  cases hw : (t.book.watchSet addresses).1 with
  | error e =>
    rw [scan_of_watchSet_error hw] at hok
    cases hok
  | ok w =>
    rw [scan_of_watchSet_ok hw] at hok ⊢
    cases hscan : (scanRange src w start stop token).value with
    | error e =>
      rw [scanWatched_of_error hscan] at hok
      cases hok
    | ok f =>
      obtain ⟨hne, rfl⟩ := scanRange_of_ok hscan
      rw [scanWatched_of_ok hscan] at hok ⊢
      exact ⟨w, _, rfl, hne, hscan, rfl, (Except.ok.inj hok).symm, rfl⟩

theorem commits_scan (h : t.book.Coherent)
    (hok : (t.scan src start stop addresses token).result = .ok summary) :
    t.Commits src start stop addresses token summary
      (t.scan src start stop addresses token).tracker := by
  obtain ⟨w, f, hw, hne, hscan, rfl, rfl, htracker⟩ := scan_eq_of_ok hok
  -- The registered texts are known, and the second scan finds what the first one found.
  have hagain : (t.book.watchSet addresses).2.watchSet addresses =
      (.ok w, (t.book.watchSet addresses).2) :=
    (h.watchSet_of_extends (h.registerEach addresses).1 (.refl _)).trans (Prod.ext hw rfl)
  have hnever : (scanRange src w start stop .never).value = .ok (findings src w start stop) :=
    scanRange_never hne
  rw [htracker]
  refine ⟨⟨w, _, hw, hscan, Findings.enters_apply not_mem_spent_findings t.ledger, rfl⟩, ?_, ?_⟩
  · rw [scan_of_watchSet_self hagain, scanWatched_of_ok hnever]
  · rw [scan_of_watchSet_self hagain, scanWatched_of_ok hnever]
    exact congrArg (Tracker.mk _ _) (t.ledger.apply_apply _ _)

end Tracker

namespace Tracker

variable {src : Source} {t : Tracker} {start tip : Height} {addresses : List String}
  {token : Token} {summary : Summary}

theorem commits_scanUpToTip (h : t.book.Coherent)
    (hok : (t.scanUpToTip src start addresses token).result = .ok summary) :
    ∃ tip, src.tip = .ok tip ∧ t.Commits src start tip addresses token summary
      (t.scanUpToTip src start addresses token).tracker := by
  cases htip : src.tip with
  | error text =>
    rw [scanUpToTip_of_error htip] at hok
    cases hok
  | ok tip =>
    rw [scanUpToTip_of_ok htip] at hok ⊢
    exact ⟨tip, rfl, commits_scan h hok⟩

/-- After a scan that leaves the tracker as it is, the texts are known and have something to
watch. -/
theorem watchSet_of_scan_self
    (hok : (t.scan src start tip addresses token).result = .ok summary)
    (hself : (t.scan src start tip addresses token).tracker = t) :
    ∃ w, t.book.watchSet addresses = (.ok w, t.book) ∧ w.isEmpty = false := by
  obtain ⟨w, _, hw, hne, _⟩ := scan_eq_of_ok hok
  have hbook : (t.scan src start tip addresses token).tracker.book =
      (t.book.watchSet addresses).2 := t.book_scan start tip addresses token
  rw [hself] at hbook
  exact ⟨w, Prod.ext hw hbook.symm, hne⟩

end Tracker

/-! ### Rescans that were waited for -/

namespace Session

variable {src : Source} {s : Session} {start tip : Height} {addresses : List String}
  {summary : Summary}

/-- A rescan that was started and waited for while nothing else was waiting came to a summary and
changed nothing. -/
structure RescansIdly (s : Session) (src : Source) (start : Height) (addresses : List String)
    (summary : Summary) : Prop where
  started : (s.startRescan true start addresses).1 = .ok s.started
  tracker : (s.startRescan true start addresses).2.tracker = s.tracker
  results : ((s.startRescan true start addresses).2.runPending src []).1 =
    [(s.started, .ok summary)]
  tracker_again : ((s.startRescan true start addresses).2.runPending src []).2.2.tracker =
    s.tracker

theorem rescansIdly_of_scan (hp : s.pending = []) (htip : src.tip = .ok tip)
    (hok : (s.tracker.scan src start tip addresses .never).result = .ok summary)
    (hself : (s.tracker.scan src start tip addresses .never).tracker = s.tracker) :
    s.RescansIdly src start addresses summary := by
  obtain ⟨w, hw, hne⟩ := Tracker.watchSet_of_scan_self hok hself
  have hstart : s.startRescan true start addresses =
      (.ok s.started, ⟨s.tracker, [⟨s.started, start, w, false⟩], s.started + 1⟩) := by
    simp [startRescan, hw, hne, hp]
  have hserves : (⟨s.started, start, w, false⟩ : Rescan).Serves
      ⟨s.started, start, addresses, false⟩ s.tracker.book := ⟨rfl, rfl, rfl, hw⟩
  have hscan := hserves.scanToTip src .never
  rw [Tracker.scanUpToTip_of_ok htip] at hscan
  have htoken : (⟨s.started, start, w, false⟩ : Rescan).token [] [] = .never := rfl
  refine ⟨?_, ?_, ?_, ?_⟩
  · rw [hstart]
  · rw [hstart]
  · rw [hstart]
    simp only [runPending, Tracker.runRescans, htoken, hscan, hok]
  · rw [hstart]
    simp only [runPending, Tracker.runRescans, htoken, hscan, hself]

/-- The rescan at place `n` of a run serves an errand with its number.  It commits a scan up to the
tip, between the state that the rescans before it leave and the one that it leaves itself, and once
it has, the same rescan changes nothing. -/
def CommitsInTurn (s : Session) (src : Source) (stops : List Stop) (es : List Errand) (n id : ℕ)
    (summary : Summary) : Prop :=
  let before := s.tracker.runRescans src stops [] (s.pending.take n)
  let after := s.tracker.runRescans src stops [] (s.pending.take (n + 1))
  ∃ e tip, es[n]? = some e ∧ e.id = id ∧ src.tip = .ok tip ∧
    before.tracker.Commits src e.start tip e.addresses (e.token stops before.asked) summary
      after.tracker ∧
    ∀ s' : Session, s'.tracker = after.tracker → s'.pending = [] →
      s'.RescansIdly src e.start e.addresses summary

theorem Serving.commitsInTurn {es : List Errand} (h : s.Serving es) {stops : List Stop} {n id : ℕ}
    (hresult : (s.runPending src stops).1[n]? = some (id, .ok summary)) :
    s.CommitsInTurn src stops es n id summary := by
  unfold CommitsInTurn
  intro before after
  rw [h.runPending_eq src stops] at hresult
  -- There is an errand at this place, and the result is what it comes to.
  obtain ⟨e, he⟩ : ∃ e, es[n]? = some e := by
    have hn := (List.getElem?_eq_some_iff.mp hresult).1
    rw [s.tracker.length_results_carryOut] at hn
    exact ⟨es[n], List.getElem?_eq_getElem hn⟩
  have hplace := s.tracker.getElem?_results_carryOut src stops he
  obtain ⟨rfl, hok⟩ := Prod.mk.inj (Option.some.inj (hplace.symm.trans hresult))
  have hbook : before.tracker.book = s.tracker.book :=
    s.tracker.book_runRescans stops [] (s.pending.take n)
  have hafter : after = before.follow src stops e := by
    have hturn := s.tracker.carryOut_take_succ src stops he
    rwa [h.carryOut_take, h.carryOut_take] at hturn
  rw [h.carryOut_take] at hok
  obtain ⟨tip, htip, hcommits⟩ :=
    Tracker.commits_scanUpToTip (t := before.tracker) (by rw [hbook]; exact h.coherent) hok
  rw [hafter]
  refine ⟨e, tip, he, rfl, htip, hcommits, fun s' hs' hp => ?_⟩
  refine rescansIdly_of_scan hp htip ?_ ?_
  · rw [hs']
    exact hcommits.result_again
  · rw [hs']
    exact hcommits.tracker_again

/-- **Scans commit what they found.**  After any history of a session, a scan that ends well enters
its findings, and would end the same way again with nothing changed.  So does each rescan of a run
that ends well, in its turn, over the range up to the tip. -/
theorem commits_of_ok (config : Config) (history : List Event) (src : Source) :
    let s := (new config).undergoAll history
    let errands := (new config).errands [] history
    (∀ start stop addresses token summary,
      (s.tracker.scan src start stop addresses token).result = .ok summary →
        s.tracker.Commits src start stop addresses token summary
          (s.tracker.scan src start stop addresses token).tracker) ∧
    ∀ stops n id summary, (s.runPending src stops).1[n]? = some (id, .ok summary) →
      s.CommitsInTurn src stops errands n id summary := by
  intro s errands
  have hserving : s.Serving errands := ((serving_new config).undergoAll history).1
  refine ⟨fun start stop addresses token summary hok => ?_, fun stops n id summary hresult => ?_⟩
  · exact Tracker.commits_scan hserving.coherent hok
  · exact hserving.commitsInTurn hresult

end Session

namespace Sample

theorem result_first : ((session.undergoAll busy).runPending source stops).1[0]? =
    some (0, .ok firstSummary) := by
  decide +kernel

theorem result_scan : (session.tracker.scan source 1 3 [address] .never).result =
    .ok firstSummary := by
  decide +kernel

/-- The tracker once the first of the rescans has run. -/
def afterFirst : Tracker :=
  ((session.undergoAll busy).tracker.runRescans source stops []
    ((session.undergoAll busy).pending.take 1)).tracker

/-- The coin is entered beside the one that was written into the ledger, and a rescan thereafter
comes to the same; so does a scan of an empty ledger that is made twice. -/
theorem committed_by_the_first :
    (∃ f : Findings, f.Enters (session.undergoAll busy).tracker.ledger afterFirst.ledger ∧
      f.created.size = 1) ∧
    (⟨afterFirst, [], 2⟩ : Session).RescansIdly source 1 [address] firstSummary ∧
    session.tracker.Commits source 1 3 [address] .never firstSummary
      (session.tracker.scan source 1 3 [address] .never).tracker := by
  obtain ⟨_, hrescans⟩ := Session.commits_of_ok ⟨.regtest, 0⟩ busy source
  obtain ⟨hscans, _⟩ := Session.commits_of_ok ⟨.regtest, 0⟩ [] source
  rw [show (Session.new ⟨.regtest, 0⟩).undergoAll [] = session from rfl] at hscans
  rw [show Session.new ⟨.regtest, 0⟩ = session from rfl] at hrescans
  obtain ⟨e, _, he, _, _, hcommits, hagain⟩ := hrescans stops 0 0 firstSummary result_first
  rw [errands_busy] at he
  obtain rfl : firstErrand = e := Option.some.inj he
  rw [Nat.zero_add, ← afterFirst, List.take_zero, Tracker.runRescans] at hcommits
  rw [Nat.zero_add, ← afterFirst] at hagain
  obtain ⟨_, f, _, _, henters, hsummary⟩ := hcommits.entered
  dsimp only at henters
  exact ⟨⟨f, henters, (congrArg Summary.created hsummary).symm⟩,
    hagain ⟨afterFirst, [], 2⟩ (by dsimp only) rfl,
    hscans 1 3 [address] .never firstSummary result_scan⟩

end Sample

end CoinWatch
