import CoinWatch.Proofs.FilterScan
import CoinWatch.Proofs.Sightings

/-! # Reports of an unspent output

A lookup finds blocks by the filters of one script, but knows the output it is asked for by its
outpoint alone.  Over a source that is to be relied on and serves every height of the range, an
unspent report is about an output that the chain has, and the lookup saw all blocks after it that
touch the script (`unspent_report_of_reliable`).  So nothing consumes the output if it pays the
script that was asked about.  If it pays another one, the filters for the script say nothing about
its spends: a transaction that consumes it goes unseen in a block that is a miss. -/

namespace CoinWatch

/-- A transaction that is kept of a stretch splits the stretch as it splits what is kept. -/
theorem Stretch.exists_split_of_filter {txs pre post : Stretch} {x : Mined} {p : Mined → Bool}
    (h : txs.filter p = pre ++ x :: post) :
    ∃ pre' post', txs = pre' ++ x :: post' ∧ pre'.filter p = pre ∧ post'.filter p = post := by
  obtain ⟨left, right, rfl, hleft, hright⟩ := List.filter_eq_append_iff.mp h
  obtain ⟨gap, rest, rfl, hgap, _, hrest⟩ := List.filter_eq_cons_iff.mp hright
  refine ⟨left ++ gap, rest, (List.append_assoc left gap (x :: rest)).symm, ?_, hrest⟩
  rw [List.filter_append, hleft, List.filter_eq_nil_iff.mpr hgap, List.append_nil]

section

variable {src : Source} {chain : Height → Block} {target : OutPoint} {script s : Script}
  {start stop h : Height} {value : UInt64}

/-- What an unspent report tells of the stretch that the lookup went through. -/
theorem split_of_unspent_report
    (hreport : (lookup src target script start stop .never).value = .ok (.unspent value s h)) :
    ∃ pre x post, src.walked [script] start stop = pre ++ x :: post ∧ x.height = h ∧
      (∀ y ∈ pre, y.tx.outputAt? target = none) ∧ x.tx.outputAt? target = some ⟨value, s⟩ ∧
      ¬ Stretch.Consumes post target := by
  obtain ⟨sighting, hof, hvalue⟩ := lookup_never src target script start stop
  rw [hvalue] at hreport
  generalize src.walked [script] start stop = txs at hof
  cases hof with
  | unseen hnone => simp [Sighting.report] at hreport
  | spent hfirst hcreates hkept hconsumes => simp [Sighting.report] at hreport
  | @created pre post x out hfirst hcreates hkept =>
    simp only [Sighting.report, Except.ok.injEq, SpendReport.unspent.injEq] at hreport
    obtain ⟨rfl, rfl, rfl⟩ := hreport
    exact ⟨pre, x, post, rfl, rfl, hfirst, hcreates, hkept⟩

/-- **What an unspent report is worth.**  The output it is about is one that the chain creates at
the height told, and whatever consumes it afterwards does so in a block that is a miss.  So the
output pays the script and nothing consumes it just if it pays the script. -/
theorem unspent_report_of_reliable (hsrc : src.Reliable [script] chain start stop)
    (hserved : ∀ k ∈ heights start stop, ∀ reason,
      (src.probe [script] k).value ≠ .skipped reason)
    (hreport : (lookup src target script start stop .never).value = .ok (.unspent value s h)) :
    ∃ pre x post, stretchAt chain (heights start stop) = pre ++ x :: post ∧ x.height = h ∧
      x.tx.outputAt? target = some ⟨value, s⟩ ∧
      (∀ y ∈ pre, (src.probe [script] y.height).value ≠ .miss → y.tx.outputAt? target = none) ∧
      (∀ y ∈ post, y.tx.Consumes target → (src.probe [script] y.height).value = .miss) ∧
      ((s = script ∧ ¬ Stretch.Consumes post target) ↔ s = script) := by
  obtain ⟨pre, x, post, hwalked, hheight, hfirst, hcreates, hkept⟩ :=
    split_of_unspent_report hreport
  rw [hsrc.walked_eq_filter] at hwalked
  obtain ⟨before, after, hsplit, rfl, rfl⟩ := Stretch.exists_split_of_filter hwalked
  have hmem : ∀ y ∈ before ++ x :: after, y ∈ stretchAt chain (heights start stop) := by
    rw [hsplit]
    exact fun y hy => hy
  have hhit : ∀ y ∈ before ++ x :: after, (src.probe [script] y.height).value ≠ .miss →
      (src.probe [script] y.height).value.isHit = true := by
    intro y hy hmiss
    by_contra hno
    have hserved := hserved y.height (mem_stretchAt.mp (hmem y hy)).1
    exact hmiss ((Probe.isHit_eq_false_iff hserved).mp (by simpa using hno))
  have hlater : ∀ y ∈ after, y.tx.Consumes target →
      (src.probe [script] y.height).value = .miss := by
    intro y hy hcons
    by_contra hmiss
    have hin : y ∈ before ++ x :: after := by simp [hy]
    exact hkept ⟨y, List.mem_filter.mpr ⟨hy, hhit y hin hmiss⟩, hcons⟩
  refine ⟨before, x, after, hsplit, hheight, hcreates, ?_, hlater, And.left, fun hs => ⟨hs, ?_⟩⟩
  · intro y hy hmiss
    exact hfirst y (List.mem_filter.mpr ⟨hy, hhit y (List.mem_append_left _ hy) hmiss⟩)
  · -- The filters for the script cover the spends of an output that pays it.
    rintro ⟨y, hy, hcons⟩
    have hplaced :
        ⟨x.height, target, ⟨value, s⟩⟩ ∈ (stretchAt chain (heights start stop)).outputs :=
      Stretch.mem_outputs.mpr ⟨x, hmem x (by simp), Mined.mem_outputs_of_outputAt? hcreates⟩
    have hpays : s ∈ [script] := by
      rw [hs]
      exact List.mem_singleton_self script
    exact hsrc.not_consumes_of_miss hplaced hpays (hmem y (by simp [hy])) (hlater y hy hcons) hcons

end

namespace Sample

theorem lookup_second_output :
    (lookup source ⟨fundingId, 1⟩ (script 1) 1 3 .never).value =
      .ok (.unspent 700 (script 2) 1) := by decide +kernel

/-- The second output is asked about under the script of the first, and is reported unspent although
the block at height 2 consumes it. -/
theorem unspent_though_consumed :
    (lookup source ⟨fundingId, 1⟩ (script 1) 1 3 .never).value =
        .ok (.unspent 700 (script 2) 1) ∧
      ∃ pre x post, stretchAt chain (heights 1 3) = pre ++ x :: post ∧ x.height = 1 ∧
        x.tx.outputAt? ⟨fundingId, 1⟩ = some ⟨700, script 2⟩ ∧
        Stretch.Consumes post ⟨fundingId, 1⟩ := by
  obtain ⟨pre, x, post, hsplit, hheight, hcreates, _⟩ :=
    unspent_report_of_reliable (reliable.mono (by decide) (Nat.le_refl 3)) served
      lookup_second_output
  refine ⟨lookup_second_output, pre, x, post, hsplit, hheight, hcreates, ?_⟩
  have hstretch : stretchAt chain (heights 1 3) =
      [⟨1, funding⟩, ⟨2, spending 1⟩, ⟨3, spending 0⟩] := rfl
  rw [hstretch] at hsplit
  cases pre with
  | nil =>
    obtain ⟨_, rfl⟩ := List.cons.inj hsplit
    decide
  | cons y pre =>
    -- No other transaction of the range is at height 1.
    obtain ⟨_, hrest⟩ := List.cons.inj hsplit
    have hx : x ∈ [(⟨2, spending 1⟩ : Mined), ⟨3, spending 0⟩] := by
      rw [hrest]
      simp
    have hnot : ∀ z ∈ [(⟨2, spending 1⟩ : Mined), ⟨3, spending 0⟩], z.height ≠ 1 := by decide
    exact absurd hheight (hnot x hx)

end Sample

end CoinWatch
