import CoinWatch.Proofs.LookupOutcomes

/-! # Lookups over wider ranges

What is known after a range is where the walk over the heights behind it starts from, and it only
grows (`grows_sighting`).  So a range may be extended at its end: a report of a spend stays as it
is, calls included, as the walk ended there; a report of an unspent output stays or gives way to a
spend at one of the new heights; and an output that was missing is created at one of the new heights
if it is found.

In front, heights may be added as well, as long as the blocks that they lead to do not create the
output: then nothing is known after them, whatever they consume (`sighting_of_early_start`).  Both
together are `lookup_of_wider_range`. -/

namespace CoinWatch

section

variable (src : Source) (target : OutPoint) (script : Script) {start stop stop' : Height}

/-! ### At the end -/

theorem grows_sighting (hstart : start ≤ stop + 1) (hstop : stop ≤ stop') :
    Sighting.Grows (heights (stop + 1) stop') (sighting src target script start stop)
      (sighting src target script start stop') := by
  rw [sighting_split src target script hstart (Nat.succ_le_succ hstop)]
  exact Sighting.grows_visitAll src target script (fun h hh => hh) _

theorem lookup_never_eq (start stop : Height) :
    lookup src target script start stop .never =
      ⟨(sighting src target script start stop).report target start,
        (heights start ((sighting src target script start stop).last stop)).flatMap
          fun h => (src.probe [script] h).calls⟩ := by
  rw [← value_lookup_never, ← calls_lookup_never]

variable {src target script}

/-- A lookup that sees the spend ends there, however far the range goes on. -/
theorem lookup_of_spent_before {id : Txid} {i : UInt32} {h : Height} (hstart : start ≤ stop + 1)
    (hstop : stop ≤ stop')
    (hvalue : (lookup src target script start stop .never).value = .ok (.spent id i h)) :
    lookup src target script start stop' .never = lookup src target script start stop .never := by
  rw [value_lookup_never, Sighting.report_eq_spent_iff] at hvalue
  have hgrows := grows_sighting src target script hstart hstop
  have hspent : (sighting src target script start stop).isSpent = true := by
    rw [hvalue]
    rfl
  rw [lookup_never_eq, lookup_never_eq, hgrows.eq_of_isSpent hspent, hvalue]
  rfl

/-- An output that was unspent stays so, or is spent at one of the new heights. -/
theorem lookup_of_unspent_before {value : UInt64} {s : Script} {h : Height}
    (hstart : start ≤ stop + 1) (hstop : stop ≤ stop')
    (hvalue : (lookup src target script start stop .never).value = .ok (.unspent value s h)) :
    (lookup src target script start stop' .never).value =
        (lookup src target script start stop .never).value ∨
      ∃ id i k, (lookup src target script start stop' .never).value = .ok (.spent id i k) ∧
        stop < k ∧ k ≤ stop' := by
  have hgrows := grows_sighting src target script hstart hstop
  rw [value_lookup_never, Sighting.report_eq_unspent_iff] at hvalue
  rw [value_lookup_never, value_lookup_never]
  rw [hvalue] at hgrows ⊢
  generalize sighting src target script start stop' = s' at hgrows ⊢
  cases hgrows with
  | same => exact .inl rfl
  | @spent _ id i k _ hmem => exact .inr ⟨id, i, k, rfl, mem_heights.mp hmem⟩

theorem height_of_createdAt {p : ℕ} {x : Mined} (hstart : start ≤ stop + 1) (hstop : stop ≤ stop')
    (hs : sighting src target script start stop = .unseen)
    (hx : (src.walked [script] start stop').CreatedAt target p x) :
    stop < x.height ∧ x.height ≤ stop' := by
  have hof := of_sighting src target script start stop
  rw [hs] at hof
  generalize hwalked : src.walked [script] start stop = txs at hof
  cases hof with
  | unseen hnone =>
    obtain ⟨hheight, b, hprobe, ht⟩ := Source.mem_walkedAt.mp hx.mem
    rw [← heights_append hstart hstop, List.mem_append] at hheight
    rcases hheight with hearly | hlate
    · have hmem : x ∈ txs := by
        rw [← hwalked]
        exact Source.mem_walkedAt.mpr ⟨hearly, b, hprobe, ht⟩
      exact absurd hx.creates (Transaction.outputAt?_eq_none_iff.mp (hnone x hmem))
    · exact mem_heights.mp hlate

/-- An output that was missing stays so, or is created at one of the new heights. -/
theorem lookup_of_missing_before (hstart : start ≤ stop + 1) (hstop : stop ≤ stop')
    (hvalue : (lookup src target script start stop .never).value =
      .error (.notFound target start)) :
    (lookup src target script start stop' .never).value = .error (.notFound target start) ∨
      ∃ p x, (src.walked [script] start stop').CreatedAt target p x ∧
        (stop < x.height ∧ x.height ≤ stop') ∧
        ((∃ out, x.tx.outputs[target.vout.toNat]? = some out ∧
            (lookup src target script start stop' .never).value =
              .ok (.unspent out.value out.script x.height)) ∨
          ∃ q y i, (src.walked [script] start stop').SpentAt target p q y i ∧
            (lookup src target script start stop' .never).value =
              .ok (.spent y.tx.txid (UInt32.ofNat i) y.height)) := by
  rw [value_lookup_never, Sighting.report_eq_notFound_iff] at hvalue
  by_cases hcreated : ∃ p x, (src.walked [script] start stop').CreatedAt target p x
  · obtain ⟨p, x, hx⟩ := hcreated
    refine .inr ⟨p, x, hx, height_of_createdAt hstart hstop hvalue hx, ?_⟩
    by_cases hspent : ∃ q y i, (src.walked [script] start stop').SpentAt target p q y i
    · obtain ⟨q, y, i, hy⟩ := hspent
      exact .inr ⟨q, y, i, hy, (lookup_of_spent hx hy).1⟩
    · obtain ⟨out, hout, hreport, _⟩ := lookup_of_kept hx fun q y i hy => hspent ⟨q, y, i, hy⟩
      exact .inl ⟨out, hout, hreport⟩
  · exact .inl (lookup_of_not_created fun p x hx => hcreated ⟨p, x, hx⟩).1

/-! ### In front -/

/-- Blocks that do not create the output leave nothing to be known, though they may consume it. -/
theorem sighting_of_early_start {start' : Height} (hstart : start ≤ stop + 1)
    (hearly : start' ≤ start)
    (hnone : ∀ k b, start' ≤ k → k < start → src.Course [script] k (.hit b) →
      ∀ t ∈ b.transactions, ¬ t.Creates target) :
    sighting src target script start' stop = sighting src target script start stop := by
  have hof := Sighting.of_visitAll src target script (List.range' start' (start - start'))
  have hunseen : visitAll src [script] (Sighting.visit target)
      (List.range' start' (start - start')) .unseen = .unseen := by
    apply hof.eq_unseen
    intro p x hx
    obtain ⟨hheight, b, hprobe, ht⟩ := Source.mem_walkedAt.mp hx.mem
    obtain ⟨hlow, hhigh⟩ := List.mem_range'_1.mp hheight
    rw [Nat.add_sub_cancel' hearly] at hhigh
    exact hnone x.height b hlow hhigh (Source.course_iff.mpr hprobe) x.tx ht hx.creates
  rw [sighting_split src target script hearly hstart, hunseen]
  rfl

/-! ### On both sides -/

/-- **Lookups are stable.**  Over a range that goes on further, a spend is reported by the same run;
an unspent output is reported as it was, or as spent at one of the new heights; and an output that
was missing is missing, or is created at one of the new heights.  Over a range that starts earlier,
where the added blocks that the hits lead to do not create the output, the report is the same, but
for the height from which a missing output was looked for. -/
theorem lookup_of_wider_range (src : Source) (target : OutPoint) (script : Script)
    {start stop stop' : Height} (hstart : start ≤ stop) (hstop : stop ≤ stop') :
    let run := lookup src target script start stop .never
    let wide := lookup src target script start stop' .never
    let txs := src.walked [script] start stop'
    (∀ id i h, run.value = .ok (.spent id i h) → wide = run) ∧
    (∀ value s h, run.value = .ok (.unspent value s h) →
      wide.value = run.value ∨
        ∃ id i k, wide.value = .ok (.spent id i k) ∧ stop < k ∧ k ≤ stop') ∧
    (run.value = .error (.notFound target start) →
      wide.value = .error (.notFound target start) ∨
        ∃ p x, txs.CreatedAt target p x ∧ (stop < x.height ∧ x.height ≤ stop') ∧
          ((∃ out, x.tx.outputs[target.vout.toNat]? = some out ∧
              wide.value = .ok (.unspent out.value out.script x.height)) ∨
            ∃ q y i, txs.SpentAt target p q y i ∧
              wide.value = .ok (.spent y.tx.txid (UInt32.ofNat i) y.height))) ∧
    ∀ start' ≤ start,
      (∀ k b, start' ≤ k → k < start → src.Course [script] k (.hit b) →
        ∀ t ∈ b.transactions, ¬ t.Creates target) →
      let early := lookup src target script start' stop .never
      (∀ r, early.value = .ok r ↔ run.value = .ok r) ∧
      (early.value = .error (.notFound target start') ↔
        run.value = .error (.notFound target start)) := by
  intro run wide txs
  have hstart' : start ≤ stop + 1 := Nat.le_succ_of_le hstart
  refine ⟨fun id i h => lookup_of_spent_before hstart' hstop,
    fun value s h => lookup_of_unspent_before hstart' hstop,
    lookup_of_missing_before hstart' hstop, fun start' hearly hnone => ?_⟩
  intro early
  have hrun : run.value = (sighting src target script start stop).report target start :=
    value_lookup_never src target script start stop
  have hvalue : early.value = (sighting src target script start stop).report target start' := by
    rw [← sighting_of_early_start hstart' hearly hnone]
    exact value_lookup_never src target script start' stop
  rw [hvalue, hrun]
  constructor
  · intro r
    exact Sighting.report_eq_ok_congr start' start
  · rw [Sighting.report_eq_notFound_iff, Sighting.report_eq_notFound_iff]

end

namespace Sample

theorem lookup_first_output :
    (lookup source ⟨fundingId, 0⟩ (script 1) 1 2 .never).value =
      .ok (.unspent 5000 (script 1) 1) := by
  decide +kernel

theorem lookup_before_first_output :
    (lookup source ⟨fundingId, 0⟩ (script 1) 0 0 .never).value =
      .error (.notFound ⟨fundingId, 0⟩ 0) := by
  decide +kernel

theorem lookup_further : (lookup source ⟨fundingId, 0⟩ (script 1) 1 3 .never).value ≠
    .ok (.unspent 5000 (script 1) 1) := by
  decide +kernel

theorem lookup_whole : (lookup source ⟨fundingId, 0⟩ (script 1) 0 3 .never).value ≠
    .error (.notFound ⟨fundingId, 0⟩ 0) := by
  decide +kernel

/-- The first output is unspent up to height 2, from height 0 on just as from its own height, and is
spent at height 3.  Behind height 0, where it is missing, it is created. -/
theorem spent_at_added_height :
    (∃ id i k, (lookup source ⟨fundingId, 0⟩ (script 1) 1 3 .never).value =
      .ok (.spent id i k) ∧ 2 < k ∧ k ≤ 3) ∧
    (lookup source ⟨fundingId, 0⟩ (script 1) 0 2 .never).value =
      .ok (.unspent 5000 (script 1) 1) ∧
    ∃ p x, (source.walked [script 1] 0 3).CreatedAt ⟨fundingId, 0⟩ p x ∧ 0 < x.height := by
  obtain ⟨_, hunspent, _, hearly⟩ := lookup_of_wider_range source ⟨fundingId, 0⟩ (script 1)
    (show 1 ≤ 2 by decide) (show 2 ≤ 3 by decide)
  obtain ⟨_, _, hmissing, _⟩ := lookup_of_wider_range source ⟨fundingId, 0⟩ (script 1)
    (Nat.le_refl 0) (show 0 ≤ 3 by decide)
  refine ⟨?_, ?_, ?_⟩
  · rcases hunspent _ _ _ lookup_first_output with hsame | hspent
    · exact absurd (hsame.trans lookup_first_output) lookup_further
    · exact hspent
  · obtain ⟨hsame, _⟩ := hearly 0 (Nat.zero_le 1) fun k b _ hk hcourse => by
      obtain rfl : k = 0 := Nat.lt_one_iff.mp hk
      have hskipped := value_probe 0 (by decide)
      rw [hcourse.value_probe] at hskipped
      cases hskipped
    exact (hsame _).mpr lookup_first_output
  · rcases hmissing lookup_before_first_output with hgone | ⟨p, x, hx, hheight, _⟩
    · exact absurd hgone lookup_whole
    · exact ⟨p, x, hx, hheight.1⟩

end Sample

end CoinWatch
