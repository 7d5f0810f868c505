import CoinWatch.Proofs.FilterScan
import CoinWatch.Proofs.Ownership

/-! # Rescans to one tip

Each rescan runs over its own range up to the tip, for its own addresses, and enters what it found
into one ledger, from which it also strikes out what other rescans brought in.  This does no harm
if each is faithful to one chain (`Pass.Faithful`): a pass that creates an output has all that
consumes it in its own range, so it consumes the output just if the chain does
(`Pass.Faithful.consumes_iff`).  So what some faithful passes leave is told by which passes there
are (`Ledger.get_enterAll_of_faithful`), whatever their order and however often each of them
enters (`Ledger.enterAll_eq_of_mem_iff`).

A session that is asked for nothing but rescans, all of which run to their end with no height
skipped (`Session.Rescans`), enters one such pass for each rescan, in the order in which they
started (`Session.allPasses_eq_rescanPasses`).  Its ledger holds what the chain creates in the
range and for an address of some rescan, and nothing consumes (`Session.get_rescans_iff`). -/

namespace CoinWatch

/-! ### Faithful passes -/

/-- What is on record over the end of a chain in order. -/
theorem WatchSet.latest?_stretchAt {chain : Height → Block} {tip : Height}
    (horder : (stretchAt chain (heights 0 tip)).Orderly)
    (hlen : ∀ x ∈ stretchAt chain (heights 0 tip), x.tx.outputs.length < UInt32.size)
    {w : WatchSet} {start : Height} {o : OutPoint} {c : Coin} :
    w.latest? (stretchAt chain (heights start tip)) o = some c ↔
      c.outpoint = o ∧ w.owner? c.script = some c.address ∧
        ∃ x ∈ stretchAt chain (heights start tip),
          x.tx.outputAt? o = some ⟨c.value, c.script⟩ ∧ x.height = c.height := by
  have hsub := (stretchAt_suffix chain start tip).sublist
  exact (horder.sublist hsub).latest?_eq_some_iff fun x hx => hlen x (hsub.subset hx)

/-- A pass up to the tip of a chain that looked at every height of its range and could rely on the
source for its scripts. -/
structure Pass.Faithful (src : Source) (chain : Height → Block) (tip : Height) (p : Pass) :
    Prop where
  stop_eq : p.stop = tip
  served : (p.findings src).skipped = []
  reliable : src.Reliable p.watch.scripts chain p.start p.stop

namespace Pass.Faithful

variable {src : Source} {chain : Height → Block} {tip : Height} {p : Pass} {o : OutPoint} {c : Coin}

/-- Where a faithful pass did not go, the filter told it so. -/
theorem miss (h : p.Faithful src chain tip) {x : Mined}
    (hx : x ∈ stretchAt chain (heights p.start tip))
    (hhit : (src.probe p.watch.scripts x.height).value.isHit = false) :
    (src.probe p.watch.scripts x.height).value = .miss := by
  have hrange := mem_heights.mp (mem_stretchAt.mp hx).1
  rw [← h.stop_eq] at hrange
  refine (Probe.isHit_eq_false_iff fun reason hskip => ?_).mp hhit
  have hskipped : x.height ∈ (p.findings src).skipped.map Prod.fst :=
    mem_skipped_findings.mpr ⟨hrange, reason, hskip⟩
  rw [h.served] at hskipped
  cases hskipped

theorem walked_eq (h : p.Faithful src chain tip) :
    p.walked src = (stretchAt chain (heights p.start tip)).filter fun x =>
      (src.probe p.watch.scripts x.height).value.isHit := by
  rw [Pass.walked, h.reliable.walked_eq_filter, h.stop_eq]

theorem latest?_walked (h : p.Faithful src chain tip) (o : OutPoint) :
    p.watch.latest? (p.walked src) o =
      p.watch.latest? (stretchAt chain (heights p.start tip)) o := by
  rw [WatchSet.latest?, WatchSet.latest?, h.walked_eq, WatchSet.coins_filter]
  intro x hx hhit q hq
  have hmiss := h.miss hx hhit
  rw [← h.stop_eq] at hx
  exact h.reliable.not_pays_of_miss hx hmiss hq

theorem consumes_of_consumes (h : p.Faithful src chain tip) (hcons : p.Consumes src o) :
    (stretchAt chain (heights 0 tip)).Consumes o := by
  obtain ⟨x, hx, hxo⟩ := hcons
  rw [h.walked_eq] at hx
  obtain ⟨hheight, htx⟩ := mem_stretchAt.mp (List.mem_of_mem_filter hx)
  have hmem : x.height ∈ heights 0 tip :=
    mem_heights.mpr ⟨Nat.zero_le _, (mem_heights.mp hheight).2⟩
  exact ⟨x, mem_stretchAt.mpr ⟨hmem, htx⟩, hxo⟩

theorem consumes_iff (h : p.Faithful src chain tip)
    (horder : (stretchAt chain (heights 0 tip)).Orderly)
    (hlen : ∀ x ∈ stretchAt chain (heights 0 tip), x.tx.outputs.length < UInt32.size)
    (hcreates : p.Creates src o) :
    p.Consumes src o ↔ (stretchAt chain (heights 0 tip)).Consumes o := by
  refine ⟨h.consumes_of_consumes, fun hcons => ?_⟩
  -- The range of the pass is the end of the chain, and it has the creating transaction.
  rw [Pass.creates_iff_latest?_isSome, h.latest?_walked, WatchSet.latest?_isSome_iff] at hcreates
  obtain ⟨q, hq, rfl, hpays⟩ := hcreates
  obtain ⟨x, hx, hxq⟩ := Stretch.mem_outputs.mp hq
  obtain ⟨before, hchain⟩ := stretchAt_suffix chain p.start tip
  obtain ⟨pre, post, hsplit⟩ := List.append_of_mem hx
  rw [← hchain, hsplit, ← List.append_assoc] at horder hlen hcons
  have hxo := Mined.outputAt?_of_mem_outputs hxq (hlen x (by simp))
  rw [horder.consumes_iff hxo] at hcons
  obtain ⟨y, hy, hyo⟩ := hcons
  have hy : y ∈ stretchAt chain (heights p.start tip) := by
    rw [hsplit]
    simp [hy]
  refine ⟨y, ?_, hyo⟩
  rw [h.walked_eq, List.mem_filter]
  refine ⟨hy, ?_⟩
  by_contra hhit
  rw [← h.stop_eq] at hq hy
  exact h.reliable.not_consumes_of_miss hq hpays hy
    (h.miss (by rwa [h.stop_eq] at hy) (by simpa using hhit)) hyo

end Pass.Faithful

/-! ### The order of faithful passes -/

/-- The watch set of some texts: a script is owned by the canonical spelling that the texts have
for it. -/
def WatchSet.IsOf (w : WatchSet) (network : Network) (ts : List String) : Prop :=
  ∀ s a, w.owner? s = some a ↔ ∃ t ∈ ts, Address.canonicalize network t = .ok ⟨a, s⟩

/-- Two watch sets of texts have one owner for a script that both watch. -/
theorem WatchSet.IsOf.owner_eq {w v : WatchSet} {network : Network} {ts us : List String}
    {s : Script} {a b : String} (hw : w.IsOf network ts) (hv : v.IsOf network us)
    (ha : w.owner? s = some a) (hb : v.owner? s = some b) : a = b := by
  obtain ⟨_, _, hreada⟩ := (hw s a).mp ha
  obtain ⟨_, _, hreadb⟩ := (hv s b).mp hb
  exact congrArg Payee.address (Address.eq_of_canonicalize hreada hreadb rfl)

namespace Ledger

variable {src : Source} {chain : Height → Block} {tip : Height} {network : Network}
  {ps qs : List Pass} {o : OutPoint} {c d : Coin}

theorem latest?_unique (horder : (stretchAt chain (heights 0 tip)).Orderly)
    (hlen : ∀ x ∈ stretchAt chain (heights 0 tip), x.tx.outputs.length < UInt32.size)
    {w v : WatchSet} {ts us : List String} (hw : w.IsOf network ts) (hv : v.IsOf network us)
    {start start' : Height} (hc : w.latest? (stretchAt chain (heights start tip)) o = some c)
    (hd : v.latest? (stretchAt chain (heights start' tip)) o = some d) : c = d := by
  obtain ⟨hco, hcown, x, hx, hxout, hxheight⟩ := (WatchSet.latest?_stretchAt horder hlen).mp hc
  obtain ⟨hdo, hdown, y, hy, hyout, hyheight⟩ := (WatchSet.latest?_stretchAt horder hlen).mp hd
  have hx := (stretchAt_suffix chain start tip).subset hx
  have hy := (stretchAt_suffix chain start' tip).subset hy
  obtain rfl := horder.eq_of_outputAt? hx hy hxout hyout
  obtain ⟨hvalue, hscript⟩ := Output.mk.inj (Option.some.inj (hxout.symm.trans hyout))
  rw [hscript] at hcown
  have haddress : c.address = d.address := hw.owner_eq hv hcown hdown
  cases c
  cases d
  simp_all

variable (hps : ∀ p ∈ ps, p.Faithful src chain tip) (hof : ∀ p ∈ ps, ∃ ts, p.watch.IsOf network ts)
  (horder : (stretchAt chain (heights 0 tip)).Orderly)
  (hlen : ∀ x ∈ stretchAt chain (heights 0 tip), x.tx.outputs.length < UInt32.size)

include hps hof horder hlen

/-- What faithful passes leave in an empty ledger: what one of them has on record, and the chain
does not consume. -/
theorem get_enterAll_of_faithful :
    (empty.enterAll src ps).get o = some c ↔
      (∃ p ∈ ps, p.watch.latest? (stretchAt chain (heights p.start tip)) o = some c) ∧
        ¬ (stretchAt chain (heights 0 tip)).Consumes o := by
  have hheld : ((empty.enterAll src ps).get o).isSome ↔ Current src ps o := by
    simp [get_enterAll_isSome]
  have hrecord {d : Coin} (hd : (empty.enterAll src ps).get o = some d) :
      ∃ p ∈ ps, p.watch.latest? (stretchAt chain (heights p.start tip)) o = some d := by
    rcases get_enterAll_eq_some hd with ⟨p, hp, hlatest⟩ | hempty
    · refine ⟨p, hp, ?_⟩
      rw [← (hps p hp).latest?_walked]
      exact hlatest
    · rw [get_empty] at hempty
      cases hempty
  constructor
  · intro hc
    refine ⟨hrecord hc, fun hcons => ?_⟩
    -- The pass that brought the record in would have consumed it as well.
    obtain ⟨before, p, after, rfl, hcreates, hkeep⟩ := hheld.mp (by rw [hc]; rfl)
    have hfaithful := hps p (by simp)
    exact hkeep p List.mem_cons_self ((hfaithful.consumes_iff horder hlen hcreates).mpr hcons)
  · rintro ⟨⟨p, hp, hlatest⟩, hcons⟩
    have hcreates : p.Creates src o := by
      rw [Pass.creates_iff_latest?_isSome, (hps p hp).latest?_walked, hlatest]
      rfl
    have hunspent : Unspent src ps o :=
      ⟨⟨p, hp, hcreates⟩, fun q hq hq' => hcons ((hps q hq).consumes_of_consumes hq')⟩
    obtain ⟨d, hd⟩ := Option.isSome_iff_exists.mp
      (hheld.mpr (current_iff_unspent_or_revived.mpr (.inl hunspent)))
    obtain ⟨q, hq, hlatest'⟩ := hrecord hd
    obtain ⟨ts, hts⟩ := hof p hp
    obtain ⟨us, hus⟩ := hof q hq
    rw [hd, latest?_unique horder hlen hus hts hlatest' hlatest]

/-- The same faithful passes leave the same, whatever their order and however often each of them
enters. -/
theorem enterAll_eq_of_mem_iff (hqs : ∀ p, p ∈ qs ↔ p ∈ ps) :
    empty.enterAll src qs = empty.enterAll src ps := by
  apply ext_get
  intro o
  apply Option.ext
  intro c
  rw [get_enterAll_of_faithful hps hof horder hlen,
    get_enterAll_of_faithful (fun p hp => hps p ((hqs p).mp hp))
      (fun p hp => hof p ((hqs p).mp hp)) horder hlen]
  simp only [hqs]

end Ledger

/-! ### Sessions that rescan -/

/-- The pass of a rescan up to the tip. -/
def Rescan.pass (tip : Height) (r : Rescan) : Pass := ⟨r.watch, r.start, tip⟩

namespace Tracker

variable {src : Source} {t : Tracker} {tip : Height}

theorem summary_of_scanToTip (htip : src.tip = .ok tip) {w : WatchSet} {start : Height}
    {token : Token} {summary : Summary}
    (h : (t.scanToTip src w start token).result = .ok summary) :
    summary = Pass.summary src ⟨w, start, tip⟩ := by
  simp only [scanToTip, show src.askTip.value = .ok tip from htip] at h
  cases hscan : (scanRange src w start tip token).value with
  | error e =>
    rw [scanWatched_of_error hscan] at h
    cases h
  | ok f =>
    obtain ⟨_, rfl⟩ := scanRange_of_ok hscan
    rw [scanWatched_of_ok hscan] at h
    exact (Except.ok.inj h).symm

theorem passesOf_runRescans (htip : src.tip = .ok tip) {stops : List Stop} {asked : List Height}
    {rs : List Rescan} (h : ∀ x ∈ (t.runRescans src stops asked rs).results,
      ∃ summary, x.2 = .ok summary ∧ summary.skipped = []) :
    passesOf (t.runRescans src stops asked rs).results rs = rs.map (Rescan.pass tip) ∧
      ∀ r ∈ rs, ((r.pass tip).findings src).skipped = [] := by
  induction rs generalizing t asked with
  | nil => exact ⟨rfl, by simp⟩
  | cons r rs ih =>
    unfold runRescans at h ⊢
    obtain ⟨⟨summary, hresult, hskipped⟩, hrest⟩ := List.forall_mem_cons.mp h
    obtain ⟨hpasses, hserved⟩ := ih hrest
    dsimp only at hresult ⊢
    obtain rfl := summary_of_scanToTip htip hresult
    refine ⟨?_, List.forall_mem_cons.mpr ⟨hskipped, hserved⟩⟩
    rw [passesOf, hpasses, hresult]
    rfl

end Tracker

namespace Session

variable {src : Source} {s : Session} {tip : Height}

/-- The request is no scan; if it starts a rescan, the rescan starts, and if it runs rescans, they
end well with no height skipped. -/
def Done (src : Source) (s : Session) : Request → Prop
  | .scan .. => False
  | .startRescan runtime start addresses => ∃ id, (s.startRescan runtime start addresses).1 = .ok id
  | .runPending stops =>
    ∀ x ∈ (s.runPending src stops).1, ∃ summary, x.2 = .ok summary ∧ summary.skipped = []
  | _ => True

/-- Nothing but rescans is asked for that touches the ledger, and all of these run to their end with
no height skipped. -/
def Rescans (src : Source) : Session → List Request → Prop
  | s, [] => s.pending = []
  | s, r :: rs => s.Done src r ∧ Rescans src (s.perform src r) rs

/-- The pass of the rescan that a request starts. -/
def startedPasses (tip : Height) (s : Session) : Request → List Pass
  | .startRescan _ start addresses =>
    match (s.tracker.book.watchSet addresses).1 with
    | .ok w => [⟨w, start, tip⟩]
    | .error _ => []
  | _ => []

/-- The passes of the rescans that some requests start, in the order in which they start. -/
def rescanPasses (src : Source) (tip : Height) : Session → List Request → List Pass
  | _, [] => []
  | s, r :: rs => s.startedPasses tip r ++ rescanPasses src tip (s.perform src r) rs

/-- What waits and what starts is what runs and what waits afterwards. -/
theorem passes_append_pending (htip : src.tip = .ok tip) {r : Request} (h : s.Done src r) :
    s.passes src r ++ (s.perform src r).pending.map (Rescan.pass tip) =
      s.pending.map (Rescan.pass tip) ++ s.startedPasses tip r := by
  cases r with
  | watch | coins | lookup | lookupToTip => simp [passes, perform, startedPasses]
  | scan => exact h.elim
  | startRescan runtime start addresses =>
    obtain ⟨id, hid⟩ := h
    obtain ⟨_, w, hw, _, hs⟩ := startRescan_of_ok hid
    simp only [passes, perform, startedPasses, hs, hw]
    simp [Rescan.pass]
  | cancel id =>
    have hpass : Rescan.pass tip ∘
        (fun r => if r.id = id then { r with cancelled := true } else r) = Rescan.pass tip := by
      funext r
      rw [Function.comp_apply]
      split <;> rfl
    simp only [passes, perform, cancel, startedPasses, List.map_map, hpass]
    simp
  | runPending stops =>
    have hrun := (Tracker.passesOf_runRescans htip h).1
    simp only [passes, perform, runPending, startedPasses] at hrun ⊢
    simp [hrun]

/-- The passes enter in the order in which the rescans start. -/
theorem allPasses_eq_rescanPasses (htip : src.tip = .ok tip) {rs : List Request}
    (h : s.Rescans src rs) :
    allPasses src s rs = s.pending.map (Rescan.pass tip) ++ rescanPasses src tip s rs := by
  induction rs generalizing s with
  | nil =>
    rw [show s.pending = [] from h]
    rfl
  | cons r rs ih =>
    obtain ⟨hdone, hrest⟩ := h
    rw [allPasses, ih hrest, ← List.append_assoc, passes_append_pending htip hdone,
      List.append_assoc, rescanPasses]

theorem skipped_of_mem_allPasses (htip : src.tip = .ok tip) {rs : List Request}
    (h : s.Rescans src rs) {p : Pass} (hp : p ∈ allPasses src s rs) :
    (p.findings src).skipped = [] := by
  induction rs generalizing s with
  | nil => cases hp
  | cons r rs ih =>
    obtain ⟨hdone, hrest⟩ := h
    rcases List.mem_append.mp hp with hp | hp
    · cases r with
      | watch | coins | lookup | lookupToTip | startRescan | cancel => cases hp
      | scan => exact hdone.elim
      | runPending stops =>
        obtain ⟨hpasses, hserved⟩ := Tracker.passesOf_runRescans htip hdone
        rw [passes, runPending, hpasses] at hp
        obtain ⟨r, hr, rfl⟩ := List.mem_map.mp hp
        exact hserved r hr
    · exact ih hrest hp

theorem asked_of_mem_startedPasses (hs : s.Sound) {r : Request} {p : Pass}
    (hp : p ∈ s.startedPasses tip r) : p.stop = tip ∧
      ∃ runtime addresses, r = .startRescan runtime p.start addresses ∧
        p.watch.IsOf s.tracker.book.network addresses := by
  cases r with
  | watch | coins | scan | lookup | lookupToTip | cancel | runPending => cases hp
  | startRescan runtime start addresses =>
    simp only [startedPasses] at hp
    cases hw : (s.tracker.book.watchSet addresses).1 with
    | error e =>
      rw [hw] at hp
      cases hp
    | ok w =>
      rw [hw] at hp
      obtain rfl := List.mem_singleton.mp hp
      exact ⟨rfl, runtime, addresses, rfl, fun _ _ => hs.coherent.owner?_of_watchSet hw⟩

variable (tip) in
theorem exists_mem_startedPasses (hs : s.Sound) {runtime : Bool} {start : Height}
    {addresses : List String} (h : s.Done src (.startRescan runtime start addresses)) :
    ∃ p ∈ s.startedPasses tip (.startRescan runtime start addresses), p.start = start ∧
      p.watch.IsOf s.tracker.book.network addresses := by
  obtain ⟨id, hid⟩ := h
  obtain ⟨_, w, hw, _, _⟩ := startRescan_of_ok hid
  refine ⟨⟨w, start, tip⟩, ?_, rfl, fun _ _ => hs.coherent.owner?_of_watchSet hw⟩
  simp only [startedPasses, hw, List.mem_singleton]

theorem asked_of_mem_rescanPasses (hs : s.Sound) {rs : List Request} {p : Pass}
    (hp : p ∈ rescanPasses src tip s rs) : p.stop = tip ∧
      ∃ runtime addresses, .startRescan runtime p.start addresses ∈ rs ∧
        p.watch.IsOf s.tracker.book.network addresses := by
  induction rs generalizing s with
  | nil => cases hp
  | cons r rs ih =>
    rcases List.mem_append.mp hp with hp | hp
    · obtain ⟨hstop, runtime, addresses, rfl, hof⟩ := asked_of_mem_startedPasses hs hp
      exact ⟨hstop, runtime, addresses, List.mem_cons_self, hof⟩
    · obtain ⟨hstop, runtime, addresses, hmem, hof⟩ := ih (hs.perform src r) hp
      rw [(hs.coherent_perform src r).2.network] at hof
      exact ⟨hstop, runtime, addresses, List.mem_cons_of_mem r hmem, hof⟩

variable (tip) in
theorem exists_mem_rescanPasses (hs : s.Sound) {rs : List Request} (h : s.Rescans src rs)
    {runtime : Bool} {start : Height} {addresses : List String}
    (hr : .startRescan runtime start addresses ∈ rs) :
    ∃ p ∈ rescanPasses src tip s rs, p.start = start ∧
      p.watch.IsOf s.tracker.book.network addresses := by
  induction rs generalizing s with
  | nil => cases hr
  | cons r rs ih =>
    obtain ⟨hdone, hrest⟩ := h
    rcases List.mem_cons.mp hr with rfl | hr
    · obtain ⟨p, hp, hasked⟩ := exists_mem_startedPasses tip hs hdone
      exact ⟨p, List.mem_append_left _ hp, hasked⟩
    · obtain ⟨p, hp, hasked⟩ := ih (hs.perform src r) hrest hr
      rw [(hs.coherent_perform src r).2.network] at hasked
      exact ⟨p, List.mem_append_right _ hp, hasked⟩

/-- **Rescans to one tip are exact, in any order.**  A session is asked for rescans, all of which
run to their end with no height skipped, over a source that is to be relied on for what they watch.
Then the ledger holds what the chain creates in the range and for an address of one of them, up to
the tip, and does not consume, each output under the canonical spelling of its address.  The passes
leave the same ledger in any other order and with any repetitions. -/
theorem get_rescans_iff (config : Config) {chain : Height → Block} {rs : List Request}
    (htip : src.tip = .ok tip) (hrun : (new config).Rescans src rs)
    (hsrc : ∀ p ∈ allPasses src (new config) rs,
      src.Reliable p.watch.scripts chain p.start p.stop)
    (horder : (stretchAt chain (heights 0 tip)).Orderly)
    (hlen : ∀ x ∈ stretchAt chain (heights 0 tip), x.tx.outputs.length < UInt32.size) :
    let ledger := ((new config).performAll src rs).tracker.ledger
    (∀ o c, ledger.get o = some c ↔
      (∃ runtime start addresses, .startRescan runtime start addresses ∈ rs ∧
        (∃ a ∈ addresses,
          Address.canonicalize config.network a = .ok ⟨c.address, c.script⟩) ∧
        ∃ x ∈ stretchAt chain (heights start tip),
          x.tx.outputAt? o = some ⟨c.value, c.script⟩ ∧ x.height = c.height) ∧
      c.outpoint = o ∧ ¬ (stretchAt chain (heights 0 tip)).Consumes o) ∧
    ∀ ps : List Pass, (∀ p, p ∈ ps ↔ p ∈ allPasses src (new config) rs) →
      Ledger.empty.enterAll src ps = ledger := by
  intro ledger
  have hpasses : allPasses src (new config) rs = rescanPasses src tip (new config) rs :=
    allPasses_eq_rescanPasses htip hrun
  have hasked : ∀ p ∈ allPasses src (new config) rs, p.stop = tip ∧
      ∃ runtime addresses, .startRescan runtime p.start addresses ∈ rs ∧
        p.watch.IsOf config.network addresses := by
    intro p hp
    rw [hpasses] at hp
    exact asked_of_mem_rescanPasses (sound_new config) hp
  have hledger : ledger = Ledger.empty.enterAll src (allPasses src (new config) rs) :=
    ledger_performAll src (new config) rs
  have hfaithful : ∀ p ∈ allPasses src (new config) rs, p.Faithful src chain tip :=
    fun p hp => ⟨(hasked p hp).1, skipped_of_mem_allPasses htip hrun hp, hsrc p hp⟩
  have hof : ∀ p ∈ allPasses src (new config) rs, ∃ ts, p.watch.IsOf config.network ts := by
    intro p hp
    obtain ⟨_, _, addresses, _, hof⟩ := hasked p hp
    exact ⟨addresses, hof⟩
  refine ⟨fun o c => ?_, fun ps hps => ?_⟩
  · rw [hledger, Ledger.get_enterAll_of_faithful hfaithful hof horder hlen]
    simp only [WatchSet.latest?_stretchAt horder hlen]
    constructor
    · rintro ⟨⟨p, hp, ho, howner, hcreated⟩, hcons⟩
      obtain ⟨_, runtime, addresses, hmem, hof⟩ := hasked p hp
      exact ⟨⟨runtime, p.start, addresses, hmem, (hof _ _).mp howner, hcreated⟩, ho, hcons⟩
    · rintro ⟨⟨runtime, start, addresses, hmem, hread, hcreated⟩, ho, hcons⟩
      obtain ⟨p, hp, rfl, hof⟩ := exists_mem_rescanPasses tip (sound_new config) hrun hmem
      rw [← hpasses] at hp
      exact ⟨⟨p, hp, ho, (hof _ _).mpr hread, hcreated⟩, hcons⟩
  · rw [hledger]
    exact Ledger.enterAll_eq_of_mem_iff hfaithful hof horder hlen hps

end Session

namespace Sample

/-- Two rescans of ranges that overlap, for one address in two spellings. -/
def rescans : List Request :=
  [.startRescan true 2 [capitals], .startRescan true 1 [address], .runPending []]

/-- The session once both rescans have started. -/
def waiting : Session :=
  (session.perform source (.startRescan true 2 [capitals])).perform source
    (.startRescan true 1 [address])

theorem skipped_of_rescans : ∀ x ∈ (waiting.runPending source []).1,
    x.2.map Summary.skipped = .ok [] := by
  decide +kernel

theorem passes_of_rescans : ∀ p ∈ session.allPasses source rescans,
    p.watch.scripts = [script 1] ∧ p.stop = 3 := by
  decide +kernel

theorem rescans_done : session.Rescans source rescans := by
  have hfirst : session.Done source (.startRescan true 2 [capitals]) := ⟨0, by decide +kernel⟩
  have hsecond : (session.perform source (.startRescan true 2 [capitals])).Done source
      (.startRescan true 1 [address]) := ⟨1, by decide +kernel⟩
  have hrun : waiting.Done source (.runPending []) := by
    intro x hx
    have hskipped := skipped_of_rescans x hx
    cases hresult : x.2 with
    | error e =>
      rw [hresult] at hskipped
      cases hskipped
    | ok summary =>
      rw [hresult] at hskipped
      exact ⟨summary, rfl, Except.ok.inj hskipped⟩
  exact ⟨hfirst, hsecond, hrun, rfl⟩

theorem reliable_for_rescans : ∀ p ∈ session.allPasses source rescans,
    source.Reliable p.watch.scripts chain p.start p.stop := by
  intro p hp
  obtain ⟨hscripts, hstop⟩ := passes_of_rescans p hp
  rw [hscripts, hstop]
  exact reliable.mono (Nat.zero_le p.start) (Nat.le_refl 3)

/-- The third output is created at height 1, which only the second rescan looks at. -/
theorem held_after_rescans :
    (session.performAll source rescans).tracker.ledger.get ⟨fundingId, 2⟩ =
      some ⟨⟨fundingId, 2⟩, 300, address, script 1, 1⟩ := by
  have hlen : ∀ x ∈ stretchAt chain (heights 0 3), x.tx.outputs.length < UInt32.size := by decide
  have htip : source.tip = .ok 3 := rfl
  obtain ⟨hheld, _⟩ :=
    Session.get_rescans_iff ⟨.regtest, 0⟩ htip rescans_done reliable_for_rescans orderly hlen
  have hasked : .startRescan true 1 [address] ∈ rescans :=
    List.mem_cons_of_mem _ List.mem_cons_self
  rw [show Session.new ⟨.regtest, 0⟩ = session from rfl] at hheld
  rw [hheld]
  refine ⟨⟨true, 1, [address], hasked, ⟨address, List.mem_cons_self, canonicalize_address⟩,
    ⟨1, funding⟩, ?_, ?_, rfl⟩, rfl, ?_⟩
  · decide
  · decide +kernel
  · decide +kernel

end Sample

end CoinWatch
