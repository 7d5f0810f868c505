import CoinWatch.Proofs.UnspentReports

/-! # Lookups are exact

What there is to tell of an output is read off all transactions of a range (`Stretch.report`): the
first that creates it, and the first that consumes it.  Over a stretch in order a lookup tells just
this of the stretch it went through (`Sighting.Of.report_eq`).  If the source serves every height
and is to be relied on, the blocks that the lookup never saw neither create the output, as it pays
the script that was asked about, nor consume it, and such blocks may be left out
(`Stretch.report_filter`).  So the answer is that of the whole range
(`lookup_eq_report_of_reliable`), and each of the three reports is given just when it is true
(`lookup_iff_of_reliable`). -/

namespace CoinWatch

namespace Stretch

/-- Some transaction of the stretch creates an output at the outpoint. -/
def Creates (txs : Stretch) (o : OutPoint) : Prop := ∃ x ∈ txs, (x.tx.outputAt? o).isSome

/-- The first transaction that creates an output, and the output. -/
def creation? (txs : Stretch) (o : OutPoint) : Option (Mined × Output) :=
  txs.findSome? fun x => (x.tx.outputAt? o).map (x, ·)

/-- The first transaction that consumes an output, and the index of the first input that does. -/
def spender? (txs : Stretch) (o : OutPoint) : Option (Mined × Nat) :=
  txs.findSome? fun y => (y.tx.inputs.findIdx? (·.prevout = o)).map (y, ·)

/-- What all transactions of a stretch tell of an output that is looked for from `start` on. -/
def report (txs : Stretch) (o : OutPoint) (start : Height) : Except Failure SpendReport :=
  match txs.creation? o, txs.spender? o with
  | none, _ => .error (.notFound o start)
  | some (x, out), none => .ok (.unspent out.value out.script x.height)
  | some _, some (y, i) => .ok (.spent y.tx.txid (UInt32.ofNat i) y.height)

variable {txs pre post : Stretch} {o : OutPoint} {x y : Mined} {out : Output} {i : Nat}

theorem isSome_creation? : (txs.creation? o).isSome ↔ txs.Creates o := by
  simp [creation?, Creates]

theorem isSome_spender? : (txs.spender? o).isSome ↔ txs.Consumes o := by
  simp [spender?, Consumes, Sighting.consumes_iff_findIdx?]

theorem creation?_eq_some_iff :
    txs.creation? o = some (x, out) ↔
      ∃ pre post, txs = pre ++ x :: post ∧ x.tx.outputAt? o = some out ∧
        ∀ y ∈ pre, y.tx.outputAt? o = none := by
  rw [creation?, List.findSome?_eq_some_iff]
  simp only [Option.map_eq_some_iff, Prod.mk.injEq, Option.map_eq_none_iff]
  constructor
  · rintro ⟨pre, y, post, rfl, ⟨_, hout, rfl, rfl⟩, hfirst⟩
    exact ⟨pre, post, rfl, hout, hfirst⟩
  · rintro ⟨pre, post, rfl, hout, hfirst⟩
    exact ⟨pre, x, post, rfl, ⟨out, hout, rfl, rfl⟩, hfirst⟩

theorem spender?_eq_some_iff :
    txs.spender? o = some (y, i) ↔
      ∃ pre post, txs = pre ++ y :: post ∧ y.tx.inputs.findIdx? (·.prevout = o) = some i ∧
        ¬ Stretch.Consumes pre o := by
  rw [spender?, List.findSome?_eq_some_iff]
  simp only [Option.map_eq_some_iff, Prod.mk.injEq, Option.map_eq_none_iff]
  constructor
  · rintro ⟨pre, z, post, rfl, ⟨_, hfind, rfl, rfl⟩, hfirst⟩
    refine ⟨pre, post, rfl, hfind, fun ⟨x, hx, hcons⟩ => ?_⟩
    rw [Sighting.consumes_iff_findIdx?, hfirst x hx] at hcons
    cases hcons
  · rintro ⟨pre, post, rfl, hfind, hfirst⟩
    refine ⟨pre, y, post, rfl, ⟨i, hfind, rfl, rfl⟩, fun x hx => ?_⟩
    rw [← Option.not_isSome_iff_eq_none, ← Sighting.consumes_iff_findIdx?]
    exact fun hcons => hfirst ⟨x, hx, hcons⟩

variable {start : Height}

theorem report_eq_notFound_iff :
    txs.report o start = .error (.notFound o start) ↔ ¬ txs.Creates o := by
  rw [← isSome_creation?, report]
  cases txs.creation? o with
  | none => simp
  | some c => cases txs.spender? o <;> simp

theorem report_isSpent_iff :
    (∃ id k h, txs.report o start = .ok (.spent id k h)) ↔ txs.Creates o ∧ txs.Consumes o := by
  rw [← isSome_creation?, ← isSome_spender?, report]
  cases txs.creation? o with
  | none => simp
  | some c => cases txs.spender? o <;> simp

theorem report_isUnspent_iff :
    (∃ value s h, txs.report o start = .ok (.unspent value s h)) ↔
      txs.Creates o ∧ ¬ txs.Consumes o := by
  rw [← isSome_creation?, ← isSome_spender?, report]
  cases txs.creation? o with
  | none => simp
  | some c => cases txs.spender? o <;> simp

theorem report_eq_spent_iff {h : Height} {id : Txid} {k : UInt32} :
    txs.report o start = .ok (.spent id k h) ↔ txs.Creates o ∧
      ∃ pre y post i, txs = pre ++ y :: post ∧ y.tx.inputs.findIdx? (·.prevout = o) = some i ∧
        ¬ Stretch.Consumes pre o ∧ y.tx.txid = id ∧ UInt32.ofNat i = k ∧ y.height = h := by
  have hspender : (∃ y i, txs.spender? o = some (y, i) ∧ y.tx.txid = id ∧ UInt32.ofNat i = k ∧
      y.height = h) ↔ ∃ pre y post i, txs = pre ++ y :: post ∧
        y.tx.inputs.findIdx? (·.prevout = o) = some i ∧ ¬ Stretch.Consumes pre o ∧
          y.tx.txid = id ∧ UInt32.ofNat i = k ∧ y.height = h := by
    constructor
    · rintro ⟨y, i, hs, htold⟩
      obtain ⟨pre, post, hsplit, hfind, hfirst⟩ := spender?_eq_some_iff.mp hs
      exact ⟨pre, y, post, i, hsplit, hfind, hfirst, htold⟩
    · rintro ⟨pre, y, post, i, hsplit, hfind, hfirst, htold⟩
      exact ⟨y, i, spender?_eq_some_iff.mpr ⟨pre, post, hsplit, hfind, hfirst⟩, htold⟩
  rw [← isSome_creation?, ← hspender, report]
  cases txs.creation? o with
  | none => simp
  | some c =>
    cases txs.spender? o with
    | none => simp
    | some s =>
      obtain ⟨y, i⟩ := s
      simp [and_assoc]

/-! ### Stretches in order and parts of them -/

theorem Orderly.creation?_eq_some_iff (h : txs.Orderly) :
    txs.creation? o = some (x, out) ↔ x ∈ txs ∧ x.tx.outputAt? o = some out := by
  constructor
  · intro hc
    obtain ⟨pre, post, rfl, hout, _⟩ := Stretch.creation?_eq_some_iff.mp hc
    exact ⟨by simp, hout⟩
  · rintro ⟨hx, hout⟩
    obtain ⟨⟨y, out'⟩, hc⟩ := Option.isSome_iff_exists.mp
      (isSome_creation?.mpr ⟨x, hx, by rw [hout]; rfl⟩)
    obtain ⟨pre, post, hsplit, hout', _⟩ := Stretch.creation?_eq_some_iff.mp hc
    have hy : y ∈ txs := by
      rw [hsplit]
      simp
    obtain rfl := h.eq_of_outputAt? hx hy hout hout'
    rw [hc, Option.some.inj (hout.symm.trans hout')]

theorem Orderly.report_eq_unspent_iff (h : txs.Orderly) {k : Height} {value : UInt64}
    {s : Script} :
    txs.report o start = .ok (.unspent value s k) ↔
      (∃ x ∈ txs, x.tx.outputAt? o = some ⟨value, s⟩ ∧ x.height = k) ∧ ¬ txs.Consumes o := by
  have hcreated : (∃ x ∈ txs, x.tx.outputAt? o = some ⟨value, s⟩ ∧ x.height = k) ↔
      ∃ x, txs.creation? o = some (x, ⟨value, s⟩) ∧ x.height = k := by
    simp only [h.creation?_eq_some_iff, and_assoc]
  rw [hcreated, ← isSome_spender?, report]
  cases txs.creation? o with
  | none => simp
  | some c =>
    obtain ⟨x, ⟨v, s'⟩⟩ := c
    cases txs.spender? o with
    | some r => simp
    | none => simp [and_assoc]

theorem findSome?_filter {α β : Type} {l : List α} {p : α → Bool} {f : α → Option β}
    (h : ∀ a ∈ l, p a = false → f a = none) : (l.filter p).findSome? f = l.findSome? f := by
  induction l with
  | nil => rfl
  | cons a l ih =>
    have ih := ih fun b hb => h b (List.mem_cons_of_mem a hb)
    by_cases ha : p a = true
    · rw [List.filter_cons_of_pos ha, List.findSome?_cons, List.findSome?_cons, ih]
    · rw [List.filter_cons_of_neg ha, List.findSome?_cons, ih,
        h a List.mem_cons_self (by simpa using ha)]

/-- Transactions that do not create an output, nor consume it if it is created at all, may be left
out. -/
theorem report_filter {p : Mined → Bool}
    (hcreate : ∀ x ∈ txs, p x = false → x.tx.outputAt? o = none)
    (hconsume : ∀ x ∈ txs, ∀ out, x.tx.outputAt? o = some out →
      ∀ y ∈ txs, p y = false → ¬ y.tx.Consumes o) :
    Stretch.report (txs.filter p) o start = txs.report o start := by
  have hcreation : Stretch.creation? (txs.filter p) o = txs.creation? o :=
    findSome?_filter fun x hx hp => by rw [hcreate x hx hp, Option.map_none]
  unfold report
  rw [hcreation]
  cases hc : txs.creation? o with
  | none => rfl
  | some c =>
    obtain ⟨x, out⟩ := c
    obtain ⟨pre, post, hsplit, hout, _⟩ := creation?_eq_some_iff.mp hc
    have hx : x ∈ txs := by
      rw [hsplit]
      simp
    have hspender : Stretch.spender? (txs.filter p) o = txs.spender? o := by
      apply findSome?_filter
      intro y hy hp
      have hnone := hconsume x hx out hout y hy hp
      rw [Sighting.consumes_iff_findIdx?, Option.not_isSome_iff_eq_none] at hnone
      rw [hnone, Option.map_none]
    rw [hspender]

end Stretch

/-! ### What a lookup tells -/

/-- Over a stretch in order a lookup knows at the end what the stretch tells. -/
theorem Sighting.Of.report_eq {target : OutPoint} {txs : Stretch} {s : Sighting} {start : Height}
    (hs : Sighting.Of target txs s) (horder : txs.Orderly) :
    s.report target start = txs.report target start := by
  cases hs with
  | unseen hnone =>
    symm
    rw [report, Stretch.report_eq_notFound_iff]
    rintro ⟨x, hx, hsome⟩
    rw [hnone x hx] at hsome
    cases hsome
  | @created pre post x out hfirst hcreates hkept =>
    symm
    rw [report, horder.report_eq_unspent_iff, horder.consumes_iff hcreates]
    exact ⟨⟨x, by simp, hcreates, rfl⟩, hkept⟩
  | @spent pre mid post x y out i hfirst hcreates hkept hconsumes =>
    have hpre : Stretch.Orderly (pre ++ x :: mid) := by
      apply horder.sublist
      simp
    have hkept' : ¬ Stretch.Consumes (pre ++ x :: mid) target := by
      rwa [hpre.consumes_iff hcreates]
    symm
    rw [report, Stretch.report_eq_spent_iff]
    exact ⟨⟨x, by simp, by rw [hcreates]; rfl⟩,
      pre ++ x :: mid, y, post, i, by simp, hconsumes, hkept', rfl, rfl, rfl⟩

section

variable {src : Source} {chain : Height → Block} {target : OutPoint} {script : Script}
  {start stop : Height}

/-- A lookup over a source that is to be relied on tells what the whole range tells. -/
theorem lookup_eq_report_of_reliable (hsrc : src.Reliable [script] chain start stop)
    (hserved : ∀ k ∈ heights start stop, ∀ reason,
      (src.probe [script] k).value ≠ .skipped reason)
    (horder : (stretchAt chain (heights start stop)).Orderly)
    (hpays : ∀ x ∈ stretchAt chain (heights start stop), ∀ out,
      x.tx.outputAt? target = some out → out.script = script) :
    (lookup src target script start stop .never).value =
      (stretchAt chain (heights start stop)).report target start := by
  obtain ⟨s, hs, hvalue⟩ := lookup_never src target script start stop
  have hmiss : ∀ x ∈ stretchAt chain (heights start stop),
      (src.probe [script] x.height).value.isHit = false →
        (src.probe [script] x.height).value = .miss := fun x hx =>
    (Probe.isHit_eq_false_iff (hserved x.height (mem_stretchAt.mp hx).1)).mp
  rw [hvalue, hs.report_eq (hsrc.orderly_walked horder), hsrc.walked_eq_filter]
  apply Stretch.report_filter
  · intro x hx hp
    by_contra hne
    obtain ⟨out, hout⟩ := Option.ne_none_iff_exists'.mp hne
    refine hsrc.not_pays_of_miss hx (hmiss x hx hp) (Mined.mem_outputs_of_outputAt? hout) ?_
    rw [hpays x hx out hout]
    exact List.mem_singleton_self script
  · intro x hx out hout y hy hp
    have hplaced : ⟨x.height, target, out⟩ ∈ (stretchAt chain (heights start stop)).outputs :=
      Stretch.mem_outputs.mpr ⟨x, hx, Mined.mem_outputs_of_outputAt? hout⟩
    refine hsrc.not_consumes_of_miss hplaced ?_ hy (hmiss y hy hp)
    rw [hpays x hx out hout]
    exact List.mem_singleton_self script

theorem creates_stretchAt_heights {o : OutPoint} :
    (stretchAt chain (heights start stop)).Creates o ↔
      ∃ h, start ≤ h ∧ h ≤ stop ∧ ∃ t ∈ (chain h).transactions,
        t.txid = o.txid ∧ o.vout.toNat < t.outputs.length := by
  constructor
  · rintro ⟨x, hx, hsome⟩
    obtain ⟨hxh, hxt⟩ := mem_stretchAt.mp hx
    obtain ⟨hstart, hstop⟩ := mem_heights.mp hxh
    exact ⟨x.height, hstart, hstop, x.tx, hxt, Transaction.isSome_outputAt?.mp hsome⟩
  · rintro ⟨h, hstart, hstop, t, ht, hout⟩
    have hx : ⟨h, t⟩ ∈ stretchAt chain (heights start stop) :=
      mem_stretchAt.mpr ⟨mem_heights.mpr ⟨hstart, hstop⟩, ht⟩
    exact ⟨⟨h, t⟩, hx, Transaction.isSome_outputAt?.mpr hout⟩

/-- **Lookups are exact.**  If the source serves the range and is to be relied on, and the output
pays the script that was asked about wherever the range creates it, the output is reported missing
just if no block of the range creates it, spent, by the first input that consumes it, just if the
range creates and consumes it, and else unspent, as it was created. -/
theorem lookup_iff_of_reliable (hsrc : src.Reliable [script] chain start stop)
    (hserved : ∀ k ∈ heights start stop, ∀ reason,
      (src.probe [script] k).value ≠ .skipped reason)
    (horder : (stretchAt chain (heights start stop)).Orderly)
    (hpays : ∀ x ∈ stretchAt chain (heights start stop), ∀ out,
      x.tx.outputAt? target = some out → out.script = script) :
    let txs := stretchAt chain (heights start stop)
    let report := (lookup src target script start stop .never).value
    let created := ∃ h, start ≤ h ∧ h ≤ stop ∧ ∃ t ∈ (chain h).transactions,
      t.txid = target.txid ∧ target.vout.toNat < t.outputs.length
    (report = .error (.notFound target start) ↔ ¬ created) ∧
    ((∃ id i h, report = .ok (.spent id i h)) ↔ created ∧ txs.Consumes target) ∧
    (∀ id i h, report = .ok (.spent id i h) ↔ created ∧
      ∃ pre y post k, txs = pre ++ y :: post ∧
        y.tx.inputs.findIdx? (·.prevout = target) = some k ∧ ¬ Stretch.Consumes pre target ∧
        y.tx.txid = id ∧ UInt32.ofNat k = i ∧ y.height = h) ∧
    ((∃ value s h, report = .ok (.unspent value s h)) ↔ created ∧ ¬ txs.Consumes target) ∧
    (∀ value s h, report = .ok (.unspent value s h) ↔
      (∃ x ∈ txs, x.tx.outputAt? target = some ⟨value, s⟩ ∧ x.height = h) ∧
        ¬ txs.Consumes target) := by
  intro txs report created
  have hreport : report = txs.report target start :=
    lookup_eq_report_of_reliable hsrc hserved horder hpays
  have hcreated : txs.Creates target ↔ created := creates_stretchAt_heights
  rw [hreport, ← hcreated]
  exact ⟨Stretch.report_eq_notFound_iff, Stretch.report_isSpent_iff,
    fun _ _ _ => Stretch.report_eq_spent_iff, Stretch.report_isUnspent_iff,
    fun _ _ _ => horder.report_eq_unspent_iff⟩

end

namespace Sample

theorem script_of_first_output : ∀ x ∈ stretchAt chain (heights 1 3), ∀ out,
    x.tx.outputAt? ⟨fundingId, 0⟩ = some out → out.script = script 1 := by
  decide +kernel

/-- The first output is created at height 1 and consumed at height 3. -/
theorem spent_at_third_height :
    (lookup source ⟨fundingId, 0⟩ (script 1) 1 3 .never).value =
      .ok (.spent (spending 0).txid 0 3) := by
  have hsrc : source.Reliable [script 1] chain 1 3 := reliable.mono (by decide) (Nat.le_refl 3)
  have horder : (stretchAt chain (heights 1 3)).Orderly := orderly.sublist (by decide)
  obtain ⟨_, _, hspent, _⟩ := lookup_iff_of_reliable hsrc served horder script_of_first_output
  rw [hspent]
  refine ⟨⟨1, by decide, by decide, funding, by decide, ?_⟩,
    [⟨1, funding⟩, ⟨2, spending 1⟩], ⟨3, spending 0⟩, [], 0, rfl, ?_, ?_, rfl, rfl, rfl⟩
  · decide +kernel
  · decide +kernel
  · decide +kernel

end Sample

end CoinWatch
