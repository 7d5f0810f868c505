import CoinWatch.Proofs.Walk

/-! # What a lookup sees

A lookup that nothing cancels goes through the stretch of its script's hits.  What it knows at the
end is told by three kinds of stretches (`Sighting.Of`): no transaction creates the output; one
does, the first that can, and nothing after it consumes the output; or one after it does, the
first that can.  Each transaction keeps this relation, so the report is read off the stretch
(`lookup_never`).

What is known only grows (`Sighting.Grows`), and the heights of creation and spend are those at
which it did.  So the lookup goes to the height of the spend, and to the end of the range if it sees
none (`calls_lookup_never`). -/

namespace CoinWatch

namespace Sighting

/-- What is known of an output after a stretch. -/
inductive Of (target : OutPoint) : Stretch → Sighting → Prop
  | unseen {txs : Stretch} (none : ∀ x ∈ txs, x.tx.outputAt? target = none) : Of target txs .unseen
  | created {pre post : Stretch} {x : Mined} {out : Output}
      (first : ∀ y ∈ pre, y.tx.outputAt? target = none) (creates : x.tx.outputAt? target = some out)
      (kept : ¬ Stretch.Consumes post target) :
      Of target (pre ++ x :: post) (.created out x.height)
  | spent {pre mid post : Stretch} {x y : Mined} {out : Output} {i : Nat}
      (first : ∀ z ∈ pre, z.tx.outputAt? target = none) (creates : x.tx.outputAt? target = some out)
      (kept : ¬ Stretch.Consumes mid target)
      (consumes : y.tx.inputs.findIdx? (·.prevout = target) = some i) :
      Of target (pre ++ x :: (mid ++ y :: post)) (.spent y.tx.txid (UInt32.ofNat i) y.height)

variable {target : OutPoint} {txs : Stretch} {s : Sighting}

theorem consumes_iff_findIdx? {t : Transaction} {o : OutPoint} :
    t.Consumes o ↔ (t.inputs.findIdx? (·.prevout = o)).isSome := by
  simp [Transaction.Consumes]

theorem addTransaction_unseen (h : Height) (t : Transaction) :
    Sighting.unseen.addTransaction target h t =
      (t.outputAt? target).elim Sighting.unseen (Sighting.created · h) := by
  by_cases heq : t.txid = target.txid
  · rw [Transaction.outputAt?, if_pos heq]
    simp only [Sighting.addTransaction, if_pos heq]
    cases t.outputs[target.vout.toNat]? <;> rfl
  · rw [Transaction.outputAt?, if_neg heq]
    simp only [Sighting.addTransaction, if_neg heq, Option.elim]

/-- A transaction keeps the relation between stretch and sighting. -/
theorem Of.addTransaction (hs : Of target txs s) (h : Height) (t : Transaction) :
    Of target (txs ++ [⟨h, t⟩]) (s.addTransaction target h t) := by
  cases hs with
  | unseen hnone =>
    rw [addTransaction_unseen]
    cases hout : t.outputAt? target with
    | none =>
      refine .unseen fun x hx => ?_
      rcases List.mem_append.mp hx with hx | hx
      · exact hnone x hx
      · rw [List.mem_singleton.mp hx]
        exact hout
    | some out => exact .created (x := ⟨h, t⟩) hnone hout (Stretch.not_consumes_nil target)
  | @created pre post x out hfirst hcreates hkept =>
    unfold Sighting.addTransaction
    rw [List.append_assoc, List.cons_append]
    cases hfind : t.inputs.findIdx? (·.prevout = target) with
    | some i => exact .spent (y := ⟨h, t⟩) hfirst hcreates hkept hfind
    | none =>
      refine .created hfirst hcreates ?_
      rw [Stretch.consumes_append, Stretch.consumes_singleton, consumes_iff_findIdx?, hfind]
      simpa using hkept
  | @spent pre mid post x y out i hfirst hcreates hkept hconsumes =>
    unfold Sighting.addTransaction
    rw [List.append_assoc, List.cons_append, List.append_assoc, List.cons_append]
    exact .spent hfirst hcreates hkept hconsumes

theorem Of.visit (hs : Of target txs s) (h : Height) (p : Probe) :
    Of target (txs ++ p.mined h) (s.visit target h p) := by
  cases p with
  | miss | skipped => simpa [Probe.mined, Sighting.visit] using hs
  | hit b => exact rel_foldl (fun _ _ t hs => hs.addTransaction h t) hs b.transactions

theorem of_visitAll (src : Source) (target : OutPoint) (script : Script) (hs : List Height) :
    Of target (src.walkedAt [script] hs)
      (visitAll src [script] (Sighting.visit target) hs .unseen) := by
  have hempty : Of target [] .unseen := .unseen (by simp)
  exact rel_visitAll (fun _ _ h p hs => hs.visit h p) hempty hs

/-- What becomes of what is known, at some heights. -/
inductive Grows (hs : List Height) : Sighting → Sighting → Prop
  | same (s : Sighting) : Grows hs s s
  | created {out : Output} {h : Height} (mem : h ∈ hs) : Grows hs .unseen (.created out h)
  | spent {s : Sighting} {txid : Txid} {i : UInt32} {h : Height} (unspent : s.isSpent = false)
      (mem : h ∈ hs) : Grows hs s (.spent txid i h)

variable {hs : List Height} {s' s'' : Sighting} {h : Height}

theorem Grows.trans (hg : Grows hs s s') (hg' : Grows hs s' s'') : Grows hs s s'' := by
  cases hg with
  | same => exact hg'
  | created hmem =>
    cases hg' with
    | same => exact .created hmem
    | spent _ hmem' => exact .spent rfl hmem'
  | spent hunspent hmem =>
    cases hg' with
    | same => exact .spent hunspent hmem
    | spent hunspent' _ => cases hunspent'

theorem Grows.eq_of_isSpent (hg : Grows hs s s') (hs' : s.isSpent = true) : s' = s := by
  cases hg with
  | same => rfl
  | created => cases hs'
  | spent hunspent =>
    rw [hunspent] at hs'
    cases hs'

theorem grows_addTransaction (target : OutPoint) (hh : h ∈ hs) (s : Sighting) (t : Transaction) :
    Grows hs s (s.addTransaction target h t) := by
  cases s with
  | unseen =>
    rw [addTransaction_unseen]
    cases t.outputAt? target with
    | none => exact .same _
    | some out => exact .created hh
  | created out k =>
    unfold addTransaction
    cases t.inputs.findIdx? (·.prevout = target) with
    | none => exact .same _
    | some i => exact .spent rfl hh
  | spent => exact .same _

theorem grows_visit (target : OutPoint) (hh : h ∈ hs) (p : Probe) (s : Sighting) :
    Grows hs s (s.visit target h p) := by
  cases p with
  | miss | skipped => exact .same s
  | hit b =>
    show Grows hs s (b.transactions.foldl (addTransaction target h) s)
    generalize b.transactions = ts
    induction ts generalizing s with
    | nil => exact .same s
    | cons t ts ih => exact (grows_addTransaction target hh s t).trans (ih _)

theorem grows_visitAll (src : Source) (target : OutPoint) (script : Script) {ks : List Height}
    (hsub : ∀ k ∈ ks, k ∈ hs) (s : Sighting) :
    Grows hs s (visitAll src [script] (Sighting.visit target) ks s) := by
  induction ks generalizing s with
  | nil => exact .same s
  | cons k ks ih =>
    have hvisit := grows_visit target (hsub k List.mem_cons_self) (src.probe [script] k).value s
    exact hvisit.trans (ih (fun l hl => hsub l (List.mem_cons_of_mem k hl)) _)

/-- An output that was seen consumed stays so, whatever a height yields. -/
theorem visit_of_isSpent (target : OutPoint) (h : Height) (p : Probe) (s : Sighting)
    (hs : s.isSpent = true) : s.visit target h p = s :=
  (grows_visit target (List.mem_singleton_self h) p s).eq_of_isSpent hs

theorem report_eq_spent_iff {start h : Height} {txid : Txid} {i : UInt32} :
    s.report target start = .ok (.spent txid i h) ↔ s = .spent txid i h := by
  cases s <;> simp [report]

theorem report_eq_unspent_iff {start h : Height} {value : UInt64} {script : Script} :
    s.report target start = .ok (.unspent value script h) ↔
      s = .created ⟨value, script⟩ h := by
  cases s with
  | unseen | spent => simp [report]
  | created out k =>
    obtain ⟨v, s⟩ := out
    simp [report, and_assoc]

theorem report_eq_notFound_iff {start : Height} :
    s.report target start = .error (.notFound target start) ↔ s = .unseen := by
  cases s <;> simp [report]

/-- The height from which an output was looked for shows only if it is not found. -/
theorem report_eq_ok_congr (start start' : Height) {r : SpendReport} :
    s.report target start = .ok r ↔ s.report target start' = .ok r := by
  cases s <;> simp [report]

/-- The height of the spend, or the last of the range. -/
def last (stop : Height) : Sighting → Height
  | spent _ _ h => h
  | _ => stop

theorem last_spent (txid : Txid) (i : UInt32) (h stop : Height) :
    (spent txid i h).last stop = h := rfl

end Sighting

section

variable (src : Source) (target : OutPoint) (script : Script) (start stop : Height)

/-- What is known of an output after the heights of a range. -/
def sighting : Sighting :=
  visitAll src [script] (Sighting.visit target) (heights start stop) .unseen

theorem of_sighting :
    Sighting.Of target (src.walked [script] start stop) (sighting src target script start stop) :=
  Sighting.of_visitAll src target script (heights start stop)

/-- A lookup that nothing cancels reports what is known after the range, although it may stop before
the end of it. -/
theorem value_lookup_never :
    (lookup src target script start stop .never).value =
      (sighting src target script start stop).report target start := by
  unfold lookup
  rw [Traced.map_value, sweepRange_never (Sighting.visit_of_isSpent target)]
  rfl

/-- A lookup reports what the stretch tells that it goes through. -/
theorem lookup_never :
    ∃ s, Sighting.Of target (src.walked [script] start stop) s ∧
      (lookup src target script start stop .never).value = s.report target start :=
  ⟨_, of_sighting src target script start stop, value_lookup_never src target script start stop⟩

variable {start stop} in
/-- The walk over a range goes on from what is known after the front of it. -/
theorem sighting_split {mid : Height} (hstart : start ≤ mid) (hmid : mid ≤ stop + 1) :
    sighting src target script start stop =
      visitAll src [script] (Sighting.visit target) (heights mid stop)
        (visitAll src [script] (Sighting.visit target) (List.range' start (mid - start))
          .unseen) := by
  rw [sighting, heights_split hstart hmid, visitAll_append]

theorem last_sighting_le :
    rangeSize start ((sighting src target script start stop).last stop) ≤ rangeSize start stop := by
  have hgrows : Sighting.Grows (heights start stop) .unseen
      (sighting src target script start stop) :=
    Sighting.grows_visitAll src target script (fun h hh => hh) .unseen
  generalize sighting src target script start stop = s at hgrows ⊢
  cases hgrows with
  | same | created => exact Nat.le_refl _
  | @spent _ _ _ h _ hmem =>
    have hstop := (mem_heights.mp hmem).2
    rw [Sighting.last_spent]
    unfold rangeSize Height at *
    omega

/-- A height is looked at just if the spend is not at a lower one. -/
theorem lt_reach_visit_iff (k : ℕ) :
    k < reach src [script] (Sighting.visit target) Sighting.isSpent (rangeSize start stop) start
        .unseen ↔
      k < rangeSize start ((sighting src target script start stop).last stop) := by
  rw [lt_reach_iff (Sighting.visit_of_isSpent target) rfl]
  by_cases hk : k < rangeSize start stop
  · -- The walk up to the height, and what comes of it at the others.
    have hmid : start + k ≤ stop + 1 := by
      unfold rangeSize Height at *
      omega
    have hsplit := sighting_split src target script (Nat.le_add_right start k) hmid
    rw [Nat.add_sub_cancel_left] at hsplit
    have hearly := Sighting.grows_visitAll src target script
      (fun h (hh : h ∈ List.range' start k) => hh) .unseen
    have hlate := Sighting.grows_visitAll src target script
      (fun h (hh : h ∈ heights (start + k) stop) => hh)
      (visitAll src [script] (Sighting.visit target) (List.range' start k) .unseen)
    rw [← hsplit] at hlate
    generalize visitAll src [script] (Sighting.visit target) (List.range' start k) .unseen = s
      at hearly hlate ⊢
    generalize sighting src target script start stop = s' at hlate ⊢
    cases hlate with
    | same =>
      cases hearly with
      | same => exact iff_of_true ⟨hk, rfl⟩ hk
      | created => exact iff_of_true ⟨hk, rfl⟩ hk
      | @spent _ _ _ h _ hmem =>
        have hlow := List.mem_range'_1.mp hmem
        refine iff_of_false (fun hboth => Bool.noConfusion hboth.2) ?_
        rw [Sighting.last_spent]
        unfold rangeSize Height at *
        omega
    | created => exact iff_of_true ⟨hk, rfl⟩ hk
    | @spent _ _ _ h hunspent hmem =>
      have hhigh := (mem_heights.mp hmem).1
      refine iff_of_true ⟨hk, hunspent⟩ ?_
      rw [Sighting.last_spent]
      unfold rangeSize Height at *
      omega
  · have hle := last_sighting_le src target script start stop
    exact iff_of_false (fun hboth => hk hboth.1) (by omega)

theorem reach_visit :
    reach src [script] (Sighting.visit target) Sighting.isSpent (rangeSize start stop) start
        .unseen =
      rangeSize start ((sighting src target script start stop).last stop) := by
  have hlt := lt_reach_visit_iff src target script start stop
  apply Nat.le_antisymm
  · apply Nat.le_of_not_lt
    intro h
    exact Nat.lt_irrefl _ ((hlt _).mp h)
  · apply Nat.le_of_not_lt
    intro h
    exact Nat.lt_irrefl _ ((hlt _).mpr h)

/-- A lookup that nothing cancels makes the calls of the heights up to that of the spend, or else of
all heights. -/
theorem calls_lookup_never :
    (lookup src target script start stop .never).calls =
      (heights start ((sighting src target script start stop).last stop)).flatMap
        fun h => (src.probe [script] h).calls := by
  unfold lookup
  rw [Traced.map_calls, sweepRange, calls_sweep, reach_visit]
  rfl

end

end CoinWatch
