import CoinWatch.Proofs.Stretch
import CoinWatch.Scan.Lookup

/-! # Walks that run to their end

A walk that nothing cancels takes in what the heights of its range yield, in ascending order
(`sweepRange_never`); that it stops once it has seen enough makes no difference to its result,
since a state that has seen enough no longer changes.  It does make a difference to the calls, which
are those of the heights that the walk reaches (`reach`, `calls_sweep`).  A walk with a token that
ends well is the walk without the token (`sweepRange_of_ok`), and any other was cancelled
(`sweep_of_error`).

What the walk of a scan has gathered is told by the stretch that it went through
(`Findings.Records`): each transaction keeps this relation, and so do blocks, heights and ranges.
With the reconciliation at the end this gives the two maps of a scan, outpoint by outpoint
(`getElem?_created_findings`, `mem_spent_findings`). -/

namespace CoinWatch

/-! ### The sweep -/

section sweep

variable {σ : Type} {src : Source} {scripts : List Script} {visit : Height → Probe → σ → σ}
  {enough : σ → Bool}

/-- Takes in what some heights yield, one after another. -/
def visitAll (src : Source) (scripts : List Script) (visit : Height → Probe → σ → σ)
    (hs : List Height) (s : σ) : σ :=
  hs.foldl (fun s h => visit h (src.probe scripts h).value s) s

variable {n h : ℕ} {token : Token} {s : σ}

theorem sweep_succ_of_fired (ht : token.fired = true) :
    sweep src scripts visit enough (n + 1) h token s = ⟨.error (.cancelled h), []⟩ := by
  rw [sweep, if_pos ht]
  rfl

theorem sweep_succ_of_enough (ht : token.fired = false)
    (he : enough (visit h (src.probe scripts h).value s) = true) :
    sweep src scripts visit enough (n + 1) h token s =
      ⟨.ok (visit h (src.probe scripts h).value s), (src.probe scripts h).calls⟩ := by
  simp only [sweep, ht, Bool.false_eq_true, if_false, Bind.bind, he, if_true, Pure.pure,
    List.append_nil]

theorem sweep_succ_of_not_enough (ht : token.fired = false)
    (he : enough (visit h (src.probe scripts h).value s) = false) :
    sweep src scripts visit enough (n + 1) h token s =
      let rest := sweep src scripts visit enough n (h + 1) (token.after h)
        (visit h (src.probe scripts h).value s)
      ⟨rest.value, (src.probe scripts h).calls ++ rest.calls⟩ := by
  simp only [sweep, ht, Bool.false_eq_true, if_false, Bind.bind, he]

/-- Two walks go the same way if at each height they make the same calls, and what the height yields
is taken in alike. -/
theorem sweep_congr {src' : Source} {scripts' : List Script}
    (hcalls : ∀ k, (src'.probe scripts' k).calls = (src.probe scripts k).calls)
    (hvisit : ∀ k s,
      visit k (src'.probe scripts' k).value s = visit k (src.probe scripts k).value s)
    (n h : ℕ) (token : Token) (s : σ) :
    sweep src' scripts' visit enough n h token s = sweep src scripts visit enough n h token s := by
  induction n generalizing h token s with
  | zero => rfl
  | succ n ih => simp only [sweep, Bind.bind, hcalls, hvisit, ih]

theorem visitAll_append (hs ks : List Height) :
    visitAll src scripts visit (hs ++ ks) s =
      visitAll src scripts visit ks (visitAll src scripts visit hs s) := List.foldl_append

theorem visitAll_of_enough (hstay : ∀ h p s, enough s = true → visit h p s = s) (hs : List Height)
    {s : σ} (hs' : enough s = true) : visitAll src scripts visit hs s = s := by
  induction hs with
  | nil => rfl
  | cons h hs ih =>
    unfold visitAll at ih ⊢
    rw [List.foldl_cons, hstay h _ s hs', ih]

theorem sweep_never (hstay : ∀ h p s, enough s = true → visit h p s = s) (n h : ℕ) (s : σ) :
    (sweep src scripts visit enough n h .never s).value =
      .ok (visitAll src scripts visit (List.range' h n) s) := by
  induction n generalizing h s with
  | zero => rfl
  | succ n ih =>
    rw [List.range'_succ]
    cases he : enough (visit h (src.probe scripts h).value s) with
    | true =>
      rw [sweep_succ_of_enough rfl he]
      exact congrArg Except.ok (visitAll_of_enough hstay _ he).symm
    | false =>
      rw [sweep_succ_of_not_enough rfl he]
      exact ih (h + 1) _

/-- A walk that nothing cancels takes in what the heights of its range yield. -/
theorem sweepRange_never (hstay : ∀ h p s, enough s = true → visit h p s = s)
    (start stop : Height) (s : σ) :
    (sweepRange src scripts visit enough start stop .never s).value =
      .ok (visitAll src scripts visit (heights start stop) s) :=
  sweep_never hstay (rangeSize start stop) start s

theorem sweep_of_ok {r : σ} (hok : (sweep src scripts visit enough n h token s).value = .ok r) :
    sweep src scripts visit enough n h token s = sweep src scripts visit enough n h .never s := by
  induction n generalizing h token s with
  | zero => rfl
  | succ n ih =>
    cases ht : token.fired with
    | true =>
      rw [sweep_succ_of_fired ht] at hok
      cases hok
    | false =>
      cases he : enough (visit h (src.probe scripts h).value s) with
      | true => rw [sweep_succ_of_enough ht he, sweep_succ_of_enough rfl he]
      | false =>
        rw [sweep_succ_of_not_enough ht he] at hok
        rw [sweep_succ_of_not_enough ht he, sweep_succ_of_not_enough rfl he, ih hok,
          Token.after_never]

theorem sweepRange_of_ok {start stop : Height} {token : Token} {s r : σ}
    (hok : (sweepRange src scripts visit enough start stop token s).value = .ok r) :
    sweepRange src scripts visit enough start stop token s =
      sweepRange src scripts visit enough start stop .never s :=
  sweep_of_ok hok

theorem sweep_of_error {e : Failure}
    (herr : (sweep src scripts visit enough n h token s).value = .error e) :
    ∃ k, e = .cancelled k := by
  induction n generalizing h token s with
  | zero => cases herr
  | succ n ih =>
    cases ht : token.fired with
    | true =>
      rw [sweep_succ_of_fired ht] at herr
      exact ⟨h, (Except.error.inj herr).symm⟩
    | false =>
      cases he : enough (visit h (src.probe scripts h).value s) with
      | true =>
        rw [sweep_succ_of_enough ht he] at herr
        cases herr
      | false =>
        rw [sweep_succ_of_not_enough ht he] at herr
        exact ih herr

/-! ### How far a walk goes -/

/-- How many of `n` heights from `h` on a walk probes that nothing cancels. -/
def reach (src : Source) (scripts : List Script) (visit : Height → Probe → σ → σ)
    (enough : σ → Bool) : (n : Nat) → Height → σ → Nat
  | 0, _, _ => 0
  | n + 1, h, s =>
    let s := visit h (src.probe scripts h).value s
    if enough s then 1 else reach src scripts visit enough n (h + 1) s + 1

theorem reach_succ_of_enough (he : enough (visit h (src.probe scripts h).value s) = true) :
    reach src scripts visit enough (n + 1) h s = 1 := by
  simp only [reach, he, if_true]

theorem reach_succ_of_not_enough (he : enough (visit h (src.probe scripts h).value s) = false) :
    reach src scripts visit enough (n + 1) h s =
      reach src scripts visit enough n (h + 1) (visit h (src.probe scripts h).value s) + 1 := by
  simp only [reach, he, Bool.false_eq_true, if_false]

variable (src scripts visit enough) in
theorem reach_le (n h : ℕ) (s : σ) : reach src scripts visit enough n h s ≤ n := by
  induction n generalizing h s with
  | zero => exact Nat.le_refl 0
  | succ n ih =>
    cases he : enough (visit h (src.probe scripts h).value s) with
    | true =>
      rw [reach_succ_of_enough he]
      omega
    | false =>
      rw [reach_succ_of_not_enough he]
      exact Nat.succ_le_succ (ih (h + 1) _)

theorem reach_pos (hn : 0 < n) : 0 < reach src scripts visit enough n h s := by
  obtain ⟨m, rfl⟩ := Nat.exists_eq_succ_of_ne_zero (Nat.ne_of_gt hn)
  cases he : enough (visit h (src.probe scripts h).value s) with
  | true =>
    rw [reach_succ_of_enough he]
    exact Nat.one_pos
  | false =>
    rw [reach_succ_of_not_enough he]
    exact Nat.succ_pos _

theorem reach_of_never (n h : ℕ) (s : σ) : reach src scripts visit (fun _ => false) n h s = n := by
  induction n generalizing h s with
  | zero => rfl
  | succ n ih => rw [reach_succ_of_not_enough rfl, ih]

/-- A walk probes a height if it has not seen enough before. -/
theorem lt_reach_iff (hstay : ∀ h p s, enough s = true → visit h p s = s)
    (hs : enough s = false) {k : ℕ} :
    k < reach src scripts visit enough n h s ↔
      k < n ∧ enough (visitAll src scripts visit (List.range' h k) s) = false := by
  induction n generalizing h s k with
  | zero => simp [reach]
  | succ n ih =>
    cases k with
    | zero =>
      refine iff_of_true (reach_pos (Nat.succ_pos n)) ⟨Nat.succ_pos n, ?_⟩
      exact hs
    | succ k =>
      have hvisit : visitAll src scripts visit (List.range' h (k + 1)) s =
          visitAll src scripts visit (List.range' (h + 1) k)
            (visit h (src.probe scripts h).value s) := by
        rw [List.range'_succ]
        rfl
      rw [hvisit]
      cases he : enough (visit h (src.probe scripts h).value s) with
      | true =>
        rw [reach_succ_of_enough he, visitAll_of_enough hstay _ he, he]
        simp
      | false =>
        rw [reach_succ_of_not_enough he, Nat.succ_lt_succ_iff, Nat.succ_lt_succ_iff, ih he]

theorem calls_sweep (n h : ℕ) (s : σ) :
    (sweep src scripts visit enough n h .never s).calls =
      (List.range' h (reach src scripts visit enough n h s)).flatMap
        fun k => (src.probe scripts k).calls := by
  induction n generalizing h s with
  | zero => rfl
  | succ n ih =>
    cases he : enough (visit h (src.probe scripts h).value s) with
    | true =>
      rw [sweep_succ_of_enough rfl he, reach_succ_of_enough he]
      simp
    | false =>
      rw [sweep_succ_of_not_enough rfl he, reach_succ_of_not_enough he, Token.after_never,
        List.range'_succ, List.flatMap_cons, ← ih]

end sweep

/-! ### Stretch and state

What a state knows of the stretch behind it is a relation between the two.  If a transaction keeps
it, so do the transactions of a block, and if a height keeps it, so do the heights of a walk. -/

section kept

variable {σ : Type} {R : Stretch → σ → Prop} {txs : Stretch} {s : σ}

theorem rel_foldl {step : σ → Transaction → σ} {h : Height}
    (hstep : ∀ txs s t, R txs s → R (txs ++ [⟨h, t⟩]) (step s t)) (hr : R txs s)
    (ts : List Transaction) : R (txs ++ ts.map (Mined.mk h)) (ts.foldl step s) := by
  induction ts generalizing txs s with
  | nil => simpa using hr
  | cons t ts ih =>
    have := ih (hstep txs s t hr)
    simpa using this

theorem rel_visitAll {src : Source} {scripts : List Script} {visit : Height → Probe → σ → σ}
    (hvisit : ∀ txs s h p, R txs s → R (txs ++ p.mined h) (visit h p s)) (hr : R txs s)
    (hs : List Height) :
    R (txs ++ src.walkedAt scripts hs) (visitAll src scripts visit hs s) := by
  induction hs generalizing txs s with
  | nil => simpa [Source.walkedAt, visitAll] using hr
  | cons h hs ih =>
    have := ih (hvisit txs s h (src.probe scripts h).value hr)
    simpa [Source.walkedAt, visitAll] using this

end kept

/-! ### What a scan gathers -/

namespace Findings

/-- The findings hold what a stretch tells of created and consumed outpoints. -/
structure Records (w : WatchSet) (txs : Stretch) (f : Findings) : Prop where
  created : ∀ o : OutPoint, f.created[o]? = w.latest? txs o
  spent : ∀ o : OutPoint, o ∈ f.spent ↔ txs.Consumes o

theorem getElem?_insertMany_coins (m : Coins) (cs : List Coin) (o : OutPoint) :
    (m.insertMany (cs.map fun c => (c.outpoint, c)))[o]? =
      (cs.findRev? (·.outpoint = o)).or m[o]? := by
  induction cs generalizing m with
  | nil => rfl
  | cons c cs ih =>
    rw [List.map_cons, Std.ExtTreeMap.insertMany_cons, ih, Std.ExtTreeMap.getElem?_insert]
    simp only [List.findRev?_eq_find?_reverse, List.reverse_cons, List.find?_append,
      Option.or_assoc, Std.compare_eq_iff_eq]
    by_cases h : c.outpoint = o
    · simp [h]
    · simp [h]

variable {w : WatchSet} {txs : Stretch} {f : Findings}

theorem records_empty (w : WatchSet) : Records w [] .empty where
  created o := by simp [empty, WatchSet.latest?_nil]
  spent o := by simp [empty]

/-- A transaction keeps the relation between findings and stretch. -/
theorem Records.addTransaction (hf : Records w txs f) (h : Height) (t : Transaction) :
    Records w (txs ++ [⟨h, t⟩]) (f.addTransaction w h t) where
  created o := by
    rw [WatchSet.latest?_append, ← hf.created o]
    unfold Findings.addTransaction WatchSet.latest?
    rw [WatchSet.coins_singleton]
    exact getElem?_insertMany_coins _ _ o
  spent o := by
    rw [Stretch.consumes_append, Stretch.consumes_singleton, ← hf.spent o]
    simp [Findings.addTransaction, Transaction.Consumes, eq_comm]

theorem foldl_addTransaction (w : WatchSet) (h : Height) (ts : List Transaction) (f : Findings) :
    (ts.foldl (Findings.addTransaction w h) f).skipped = f.skipped ∧
      (ts.foldl (Findings.addTransaction w h) f).matched = f.matched := by
  induction ts generalizing f with
  | nil => exact ⟨rfl, rfl⟩
  | cons t ts ih => exact ih (f.addTransaction w h t)

theorem skipped_addBlock (w : WatchSet) (h : Height) (f : Findings) (b : Block) :
    (f.addBlock w h b).skipped = f.skipped :=
  (foldl_addTransaction w h b.transactions _).1

theorem matched_addBlock (w : WatchSet) (h : Height) (f : Findings) (b : Block) :
    (f.addBlock w h b).matched = f.matched + 1 :=
  (foldl_addTransaction w h b.transactions _).2

theorem Records.visit (hf : Records w txs f) (h : Height) (p : Probe) :
    Records w (txs ++ p.mined h) (f.visit w h p) := by
  cases p with
  | miss => simpa [Probe.mined, Findings.visit] using hf
  | skipped reason =>
    have : Records w txs { f with skipped := f.skipped ++ [(h, reason)] } := ⟨hf.created, hf.spent⟩
    simpa [Probe.mined, Findings.visit] using this
  | hit b =>
    have : Records w txs { f with matched := f.matched + 1 } := ⟨hf.created, hf.spent⟩
    exact rel_foldl (fun _ _ t hf => hf.addTransaction h t) this b.transactions

/-- Once the consumed outpoints are dropped, what is left is unspent within the stretch. -/
theorem Records.getElem?_reconcile (hf : Records w txs f) (o : OutPoint) :
    f.reconcile.created[o]? = w.unspent? txs o := by
  unfold reconcile WatchSet.unspent?
  rw [Std.ExtTreeMap.getElem?_filter', hf.created o]
  by_cases h : o ∈ f.spent
  · have hc : f.spent.contains o = true := Std.ExtTreeSet.contains_iff_mem.mpr h
    rw [if_pos ((hf.spent o).mp h)]
    simp [hc]
  · have hc : f.spent.contains o = false := by
      rw [← Bool.not_eq_true, Std.ExtTreeSet.contains_iff_mem]
      exact h
    rw [if_neg (fun hcons => h ((hf.spent o).mpr hcons))]
    simp only [hc, Bool.not_false]
    cases w.latest? txs o <;> rfl

theorem skipped_visitAll (src : Source) (scripts : List Script) (hs : List Height) :
    (CoinWatch.visitAll src scripts (Findings.visit w) hs f).skipped =
      f.skipped ++ hs.filterMap fun h => (src.probe scripts h).value.skip? h := by
  induction hs generalizing f with
  | nil => simp [CoinWatch.visitAll]
  | cons h hs ih =>
    unfold CoinWatch.visitAll at ih ⊢
    rw [List.foldl_cons, ih, List.filterMap_cons]
    cases (src.probe scripts h).value with
    | miss => rfl
    | skipped reason => simp [Findings.visit, Probe.skip?]
    | hit b => simp only [Findings.visit, skipped_addBlock, Probe.skip?]

theorem matched_visitAll (src : Source) (scripts : List Script) (hs : List Height) :
    (CoinWatch.visitAll src scripts (Findings.visit w) hs f).matched =
      f.matched + hs.countP fun h => (src.probe scripts h).value.isHit := by
  induction hs generalizing f with
  | nil => rfl
  | cons h hs ih =>
    unfold CoinWatch.visitAll at ih ⊢
    rw [List.foldl_cons, ih, List.countP_cons]
    cases (src.probe scripts h).value with
    | miss | skipped => simp [Findings.visit, Probe.isHit]
    | hit b =>
      simp only [Findings.visit, matched_addBlock, Probe.isHit, if_true]
      omega

end Findings

/-- What a scan finds that nothing cancels. -/
def findings (src : Source) (w : WatchSet) (start stop : Height) : Findings :=
  (visitAll src w.scripts (Findings.visit w) (heights start stop) .empty).reconcile

section findings

variable {src : Source} {w : WatchSet} {start stop : Height} {token : Token}

theorem scanRange_of_no_scripts (hw : w.isEmpty = true) :
    scanRange src w start stop token = ⟨.error .noScripts, []⟩ := by
  rw [scanRange, scanRangeIn, if_pos hw]
  rfl

theorem scanRange_of_scripts (hw : w.isEmpty = false) :
    scanRange src w start stop token =
      (·.map Findings.reconcile) <$>
        sweepRange src w.scripts (Findings.visit w) (fun _ => false) start stop token .empty := by
  rw [scanRange, scanRangeIn, if_neg (by simp [hw])]

theorem scanRange_never (hw : w.isEmpty = false) :
    (scanRange src w start stop .never).value = .ok (findings src w start stop) := by
  have hstay : ∀ (h : Height) (p : Probe) (f : Findings), (fun _ => false) f = true →
      f.visit w h p = f := by
    intro h p f hf
    cases hf
  rw [scanRange_of_scripts hw, Traced.map_value, sweepRange_never hstay]
  rfl

theorem calls_scanRange_never (hw : w.isEmpty = false) :
    (scanRange src w start stop .never).calls =
      (heights start stop).flatMap fun h => (src.probe w.scripts h).calls := by
  rw [scanRange_of_scripts hw, Traced.map_calls, sweepRange, calls_sweep, reach_of_never]
  rfl

/-- Whatever its token, a scan that ends well has a watch set and finds what an uncancelled one
finds. -/
theorem scanRange_of_ok {f : Findings}
    (hok : (scanRange src w start stop token).value = .ok f) :
    w.isEmpty = false ∧ f = findings src w start stop := by
  have hw : w.isEmpty = false := by
    by_contra hne
    rw [scanRange_of_no_scripts (by simpa using hne)] at hok
    cases hok
  have hnever : (scanRange src w start stop .never).value = .ok (findings src w start stop) :=
    scanRange_never hw
  rw [scanRange_of_scripts hw, Traced.map_value] at hok hnever
  obtain ⟨r, hr, _⟩ := map_eq_ok_iff.mp hok
  rw [sweepRange_of_ok hr] at hok
  rw [hok] at hnever
  exact ⟨hw, Except.ok.inj hnever⟩

/-- A scan without scripts is refused, and another one can only be cancelled. -/
theorem scanRange_of_error {e : Failure}
    (h : (scanRange src w start stop token).value = .error e) :
    (w.isEmpty = true ∧ e = .noScripts ∧ (scanRange src w start stop token).calls = []) ∨
      (w.isEmpty = false ∧ ∃ k, e = .cancelled k) := by
  cases hw : w.isEmpty with
  | true =>
    rw [scanRange_of_no_scripts hw] at h ⊢
    exact .inl ⟨rfl, (Except.error.inj h).symm, rfl⟩
  | false =>
    rw [scanRange_of_scripts hw, Traced.map_value, map_eq_error_iff] at h
    exact .inr ⟨rfl, sweep_of_error h⟩

theorem records_findings (src : Source) (w : WatchSet) (start stop : Height) :
    Findings.Records w (src.walked w.scripts start stop)
      (visitAll src w.scripts (Findings.visit w) (heights start stop) .empty) :=
  rel_visitAll (fun _ _ h p hf => hf.visit h p) (Findings.records_empty w) (heights start stop)

theorem mem_spent_findings {o : OutPoint} :
    o ∈ (findings src w start stop).spent ↔ (src.walked w.scripts start stop).Consumes o :=
  (records_findings src w start stop).spent o

theorem getElem?_created_findings (o : OutPoint) :
    (findings src w start stop).created[o]? =
      w.unspent? (src.walked w.scripts start stop) o :=
  (records_findings src w start stop).getElem?_reconcile o

theorem skipped_findings :
    (findings src w start stop).skipped =
      (heights start stop).filterMap fun h => (src.probe w.scripts h).value.skip? h :=
  Findings.skipped_visitAll src w.scripts (heights start stop)

theorem matched_findings :
    (findings src w start stop).matched =
      (heights start stop).countP fun h => (src.probe w.scripts h).value.isHit := by
  rw [show (findings src w start stop).matched = (visitAll src w.scripts (Findings.visit w)
    (heights start stop) .empty).matched from rfl, Findings.matched_visitAll, Findings.empty,
    Nat.zero_add]

theorem pair_mem_skipped_findings {h : Height} {reason : SkipReason} :
    (h, reason) ∈ (findings src w start stop).skipped ↔
      (start ≤ h ∧ h ≤ stop) ∧ (src.probe w.scripts h).value = .skipped reason := by
  rw [skipped_findings]
  simp only [List.mem_filterMap, mem_heights, Probe.skip?_eq_some_iff]
  constructor
  · rintro ⟨_, hk, rfl, hp⟩
    exact ⟨hk, hp⟩
  · rintro ⟨hk, hp⟩
    exact ⟨h, hk, rfl, hp⟩

theorem mem_skipped_findings {h : Height} :
    h ∈ (findings src w start stop).skipped.map Prod.fst ↔
      (start ≤ h ∧ h ≤ stop) ∧ ∃ reason, (src.probe w.scripts h).value = .skipped reason := by
  simp only [List.mem_map, Prod.exists, exists_and_right, exists_eq_right,
    pair_mem_skipped_findings, exists_and_left]

end findings

end CoinWatch
