import CoinWatch.Proofs.Requests
import CoinWatch.Proofs.Sightings

/-! # Scans and lookups agree

A scan for one address and a lookup of one output that pays to it go through the same stretch,
that of the hits for the address's script, whatever the source.  If the stretch is in order
(`Stretch.Orderly`), one transaction at most creates the output and nothing before it consumes it,
so the two tell the same story (`scan_agrees_with_lookup`): the ledger holds the output if the
lookup reports it unspent, and with the same value, script and height. -/

namespace CoinWatch

/-! ### What both are asked for -/

/-- The watch set of an address is its script, which is also what a lookup goes by. -/
theorem AddressBook.watchSet_of_resolve {b : AddressBook} {text : String} {script : Script}
    (h : b.resolve text = .ok script) :
    ∃ w, (b.watchSet [text]).1 = .ok w ∧ w.scripts = [script] ∧ w.isEmpty = false := by
  have hregister : ∃ p, (b.register text).1 = .ok p ∧ p.script = script := by
    unfold resolve at h
    unfold register
    cases hp : b.payee? text with
    | some p =>
      rw [hp] at h
      exact ⟨p, rfl, Except.ok.inj h⟩
    | none =>
      rw [hp] at h
      cases hd : b.decode text with
      | ok p =>
        simp only [hd, Except.map, Except.ok.injEq] at h
        exact ⟨p, rfl, h⟩
      | error e =>
        simp only [hd, Except.map] at h
        cases h
  obtain ⟨p, hp, rfl⟩ := hregister
  refine ⟨WatchSet.ofPayees [p], ?_, rfl, rfl⟩
  unfold watchSet registerEach
  rcases hr : b.register text with ⟨_ | q, book⟩
  · rw [hr] at hp
    cases hp
  · rw [hr] at hp
    obtain rfl := Except.ok.inj hp
    rfl

/-! ### What one stretch tells -/

section stretch

variable {txs : Stretch} {s : Sighting} {o : OutPoint} {w : WatchSet} {start : Height}

/-- Over a stretch in order, what is on record as unspent and what a lookup reports are one
story. -/
theorem Sighting.Of.agrees (hs : Sighting.Of o txs s) (horder : txs.Orderly)
    (hpays : ∀ x ∈ txs, ∀ out, x.tx.outputAt? o = some out → out.script ∈ w.scripts)
    (hlen : ∀ x ∈ txs, x.tx.outputs.length < UInt32.size) :
    ((w.unspent? txs o).isSome ↔ ∃ value s' h, s.report o start = .ok (.unspent value s' h)) ∧
    (∀ c, w.unspent? txs o = some c →
      s.report o start = .ok (.unspent c.value c.script c.height)) ∧
    ((∃ spender i h, s.report o start = .ok (.spent spender i h)) ↔
      (w.latest? txs o).isSome ∧ txs.Consumes o) ∧
    (s.report o start = .error (.notFound o start) ↔ ∀ x ∈ txs, x.tx.outputAt? o = none) := by
  cases hs with
  | unseen hnone =>
    have hlatest : w.latest? txs o = none := by
      rw [← Option.not_isSome_iff_eq_none, WatchSet.latest?_isSome_iff]
      rintro ⟨q, hq, hqo, _⟩
      obtain ⟨y, hy, hyo⟩ := Stretch.exists_outputAt?_of_mem_outputs hlen hq hqo
      rw [hnone y hy] at hyo
      cases hyo
    have hunspent : w.unspent? txs o = none := by
      rw [WatchSet.unspent?, hlatest]
      simp
    rw [hunspent, hlatest]
    simp only [Sighting.report]
    simpa using hnone
  | @created pre post x out hfirst hcreates hkept =>
    have hx : x ∈ pre ++ x :: post := by simp
    have hcons : ¬ Stretch.Consumes (pre ++ x :: post) o :=
      fun h => hkept ((horder.consumes_iff hcreates).mp h)
    obtain ⟨owner, hlatest⟩ := horder.latest?_eq hlen hx hcreates (hpays x hx out hcreates)
    have hunspent : w.unspent? (pre ++ x :: post) o =
        some ⟨o, out.value, owner, out.script, x.height⟩ := by
      rw [WatchSet.unspent?, if_neg hcons, hlatest]
    have hsome : ¬ ∀ y ∈ pre ++ x :: post, y.tx.outputAt? o = none := by
      intro h
      rw [h x hx] at hcreates
      cases hcreates
    rw [hunspent, hlatest]
    simp only [Sighting.report]
    refine ⟨by simp, ?_, by simp [hcons], iff_of_false (by simp) hsome⟩
    intro c hc
    obtain rfl := Option.some.inj hc
    rfl
  | @spent pre mid post x y out i hfirst hcreates hkept hconsumes =>
    have hx : x ∈ pre ++ x :: (mid ++ y :: post) := by simp
    have hcons : Stretch.Consumes (pre ++ x :: (mid ++ y :: post)) o := by
      refine ⟨y, by simp, ?_⟩
      rw [Sighting.consumes_iff_findIdx?, hconsumes]
      rfl
    obtain ⟨owner, hlatest⟩ := horder.latest?_eq hlen hx hcreates (hpays x hx out hcreates)
    have hunspent : w.unspent? (pre ++ x :: (mid ++ y :: post)) o = none := by
      rw [WatchSet.unspent?, if_pos hcons]
    have hsome : ¬ ∀ z ∈ pre ++ x :: (mid ++ y :: post), z.tx.outputAt? o = none := by
      intro h
      rw [h x hx] at hcreates
      cases hcreates
    rw [hunspent, hlatest]
    simp only [Sighting.report]
    exact ⟨by simp, by simp, by simp [hcons], iff_of_false (by simp) hsome⟩

end stretch

namespace Tracker

variable {t : Tracker} {src : Source} {txid address : String} {vout : UInt32} {o : OutPoint}
  {script : Script} {start stop : Height}

theorem resolve_of_target (h : t.target txid vout address = .ok (o, script)) :
    t.book.resolve address = .ok script := by
  unfold target at h
  split at h
  · cases h
  · cases hr : t.book.resolve address with
    | error e =>
      rw [hr] at h
      cases h
    | ok s =>
      rw [hr] at h
      cases hp : Hash256.parse txid with
      | error fault =>
        simp only [hp] at h
        cases h
      | ok id =>
        simp only [hp] at h
        obtain ⟨_, rfl⟩ := Prod.mk.inj (Except.ok.inj h)
        rfl

theorem lookup_of_target (h : t.target txid vout address = .ok (o, script)) (token : Token) :
    t.lookup src txid vout address start stop token =
      CoinWatch.lookup src o script start stop token := by
  simp only [lookup, h]

variable (src start stop) in
theorem scan_of_watchSet {addresses : List String} {w : WatchSet} (hw : w.isEmpty = false)
    (h : (t.book.watchSet addresses).1 = .ok w) :
    (t.scan src start stop addresses .never).tracker.ledger =
        t.ledger.enter src ⟨w, start, stop⟩ ∧
      ∃ summary, (t.scan src start stop addresses .never).result = .ok summary := by
  rw [scan_of_watchSet_ok h, scanWatched_of_ok (scanRange_never hw)]
  exact ⟨rfl, _, rfl⟩

/-! ### What both tell -/

/-- **A scan and a lookup of one output agree.** -/
theorem scan_agrees_with_lookup (htarget : t.target txid vout address = .ok (o, script))
    (hfree : t.ledger.get o = none) (horder : (src.walked [script] start stop).Orderly)
    (hpays : ∀ x ∈ src.walked [script] start stop, ∀ out,
      x.tx.outputAt? o = some out → out.script = script)
    (hlen : ∀ x ∈ src.walked [script] start stop, x.tx.outputs.length < UInt32.size) :
    ∃ w summary, (t.book.watchSet [address]).1 = .ok w ∧ w.scripts = [script] ∧
      (scanRange src w start stop .never).value = .ok (findings src w start stop) ∧
      (t.scan src start stop [address] .never).result = .ok summary ∧
      let pass : Pass := ⟨w, start, stop⟩
      let held := (t.scan src start stop [address] .never).tracker.ledger.get o
      let report := (t.lookup src txid vout address start stop .never).value
      (held.isSome ↔ ∃ value s h, report = .ok (.unspent value s h)) ∧
      (∀ c, held = some c → report = .ok (.unspent c.value c.script c.height)) ∧
      ((∃ spender i h, report = .ok (.spent spender i h)) ↔
        pass.Creates src o ∧ o ∈ (findings src w start stop).spent) ∧
      (report = .error (.notFound o start) ↔
        ∀ x ∈ src.walked w.scripts start stop, x.tx.outputAt? o = none) := by
  obtain ⟨w, hw, hscripts, hne⟩ := AddressBook.watchSet_of_resolve (resolve_of_target htarget)
  obtain ⟨hledger, summary, hsummary⟩ := scan_of_watchSet src start stop hne hw
  obtain ⟨s, hs, hreport⟩ := lookup_never src o script start stop
  have hwalked : src.walked w.scripts start stop = src.walked [script] start stop := by
    rw [hscripts]
  have hheld : (t.ledger.enter src ⟨w, start, stop⟩).get o =
      w.unspent? (src.walked [script] start stop) o := by
    rw [Ledger.get_enter_of_free hfree, Pass.walked, hwalked]
  have hcreates : (⟨w, start, stop⟩ : Pass).Creates src o ↔
      (w.latest? (src.walked [script] start stop) o).isSome := by
    rw [Pass.creates_iff_latest?_isSome, Pass.walked, hwalked]
  refine ⟨w, summary, hw, hscripts, scanRange_never hne, hsummary, ?_⟩
  simp only [hledger, hheld, lookup_of_target htarget, hreport, hcreates, mem_spent_findings,
    hwalked]
  refine hs.agrees horder ?_ hlen
  intro x hx out hout
  rw [hscripts, hpays x hx out hout]
  exact List.mem_singleton_self script

end Tracker

namespace Sample

theorem target_third_output : session.tracker.target fundingId.text 2 address =
    .ok (⟨fundingId, 2⟩, script 1) := by decide +kernel

theorem script_of_third_output : ∀ x ∈ stretchAt chain (heights 0 3),
    ∀ out ∈ x.tx.outputAt? ⟨fundingId, 2⟩, out.script = script 1 := by decide +kernel

theorem held_third_output :
    ((session.tracker.scan source 0 3 [address] .never).tracker.ledger.get
      ⟨fundingId, 2⟩).isSome := by decide +kernel

/-- Over a skip, two hits and a miss. -/
theorem reported_as_held : ∃ c,
    (session.tracker.scan source 0 3 [address] .never).tracker.ledger.get ⟨fundingId, 2⟩ =
      some c ∧
    (session.tracker.lookup source fundingId.text 2 address 0 3 .never).value =
      .ok (.unspent c.value c.script c.height) := by
  have hchain : ∀ x ∈ source.walked [script 1] 0 3, x ∈ stretchAt chain (heights 0 3) := by
    rw [reliable.walked_eq_filter]
    exact fun x hx => List.mem_of_mem_filter hx
  have hlen : ∀ x ∈ stretchAt chain (heights 0 3), x.tx.outputs.length < UInt32.size := by decide
  obtain ⟨c, hc⟩ := Option.isSome_iff_exists.mp held_third_output
  obtain ⟨_, _, _, _, _, _, _, hreport, _⟩ :=
    Tracker.scan_agrees_with_lookup target_third_output (Ledger.get_empty _)
      (reliable.orderly_walked orderly)
      (fun x hx => script_of_third_output x (hchain x hx)) (fun x hx => hlen x (hchain x hx))
  exact ⟨c, hc, hreport c hc⟩

end Sample

end CoinWatch
