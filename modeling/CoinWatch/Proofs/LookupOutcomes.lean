import CoinWatch.Proofs.Outcomes
import CoinWatch.Proofs.Sightings

/-! # What a lookup reports, over any source

A lookup goes through the transactions of the blocks that the hits for its script lead to, whatever
the source makes of them.  Two of these decide the report: the first that creates the output
(`Stretch.CreatedAt`), and the first behind it that consumes the output (`Stretch.SpentAt`).  What
consumes the output before it is created, or in the creating transaction, does not count, and
neither does a second creation.  There is one such transaction at most of either kind, and what is
known after a stretch tells whether there is (`Sighting.Of.not_createdAt` and the like).

The heights asked about are those up to the spend, if there is one, and else those of the range,
each once and in ascending order (`Traced.Asks`, `lookup_exact`). -/

namespace CoinWatch

namespace Stretch

/-- The transaction at index `p` is the first that creates the output. -/
structure CreatedAt (txs : Stretch) (o : OutPoint) (p : ℕ) (x : Mined) : Prop where
  get : txs[p]? = some x
  creates : x.tx.Creates o
  first : ∀ j z, j < p → txs[j]? = some z → ¬ z.tx.Creates o

/-- The transaction at index `q` is the first behind index `p` that consumes the output, and does so
by the input of index `i` and by none before. -/
structure SpentAt (txs : Stretch) (o : OutPoint) (p q : ℕ) (y : Mined) (i : ℕ) : Prop where
  later : p < q
  get : txs[q]? = some y
  input : y.tx.inputs.findIdx? (·.prevout = o) = some i
  first : ∀ j z, p < j → j < q → txs[j]? = some z → ¬ z.tx.Consumes o

variable {txs pre mid post : Stretch} {o : OutPoint} {p p' q q' i i' : ℕ} {x x' y y' : Mined}
  {out : Output}

theorem CreatedAt.mem (h : txs.CreatedAt o p x) : x ∈ txs := List.mem_of_getElem? h.get

theorem CreatedAt.unique (h : txs.CreatedAt o p x) (h' : txs.CreatedAt o p' x') :
    p = p' ∧ x = x' := by
  have hp : p = p' := by
    rcases Nat.lt_trichotomy p p' with hlt | heq | hgt
    · exact absurd h.creates (h'.first p x hlt h.get)
    · exact heq
    · exact absurd h'.creates (h.first p' x' hgt h'.get)
  subst hp
  exact ⟨rfl, Option.some.inj (h.get.symm.trans h'.get)⟩

theorem SpentAt.consumes (h : txs.SpentAt o p q y i) : y.tx.Consumes o := by
  rw [Sighting.consumes_iff_findIdx?, h.input]
  rfl

theorem SpentAt.unique (h : txs.SpentAt o p q y i) (h' : txs.SpentAt o p q' y' i') :
    y = y' ∧ i = i' := by
  have hq : q = q' := by
    rcases Nat.lt_trichotomy q q' with hlt | heq | hgt
    · exact absurd h.consumes (h'.first q y h.later hlt h.get)
    · exact heq
    · exact absurd h'.consumes (h.first q' y' h'.later hgt h'.get)
  subst hq
  obtain rfl := Option.some.inj (h.get.symm.trans h'.get)
  exact ⟨rfl, Option.some.inj (h.input.symm.trans h'.input)⟩

theorem createdAt_append (hfirst : ∀ z ∈ pre, z.tx.outputAt? o = none)
    (hcreates : x.tx.outputAt? o = some out) :
    Stretch.CreatedAt (pre ++ x :: post) o pre.length x where
  get := by simp
  creates := (Transaction.creates_of_outputAt? hcreates).1
  first j z hj hz := by
    rw [List.getElem?_append_left hj] at hz
    exact Transaction.outputAt?_eq_none_iff.mp (hfirst z (List.mem_of_getElem? hz))

/-- Behind a transaction, the index of another one is told by what lies between the two. -/
theorem getElem?_append_cons_add (pre : Stretch) (x : Mined) (post : Stretch) (k : ℕ) :
    (pre ++ x :: post)[pre.length + 1 + k]? = post[k]? := by
  rw [List.getElem?_append_right (by omega),
    show pre.length + 1 + k - pre.length = k + 1 by omega, List.getElem?_cons_succ]

theorem spentAt_append (hkept : ¬ Stretch.Consumes mid o)
    (hinput : y.tx.inputs.findIdx? (·.prevout = o) = some i) :
    Stretch.SpentAt (pre ++ x :: (mid ++ y :: post)) o pre.length (pre.length + 1 + mid.length) y
      i where
  later := by omega
  get := by
    rw [getElem?_append_cons_add]
    simp
  input := hinput
  first j z hj hjq hz := by
    obtain ⟨k, rfl⟩ := Nat.exists_eq_add_of_lt hj
    rw [Nat.add_right_comm, getElem?_append_cons_add, List.getElem?_append_left (by omega)] at hz
    exact fun hcons => hkept ⟨z, List.mem_of_getElem? hz, hcons⟩

theorem not_spentAt_append (hkept : ¬ Stretch.Consumes post o) :
    ¬ Stretch.SpentAt (pre ++ x :: post) o pre.length q y i := by
  intro h
  obtain ⟨k, rfl⟩ := Nat.exists_eq_add_of_lt h.later
  have hget := h.get
  rw [Nat.add_right_comm, getElem?_append_cons_add] at hget
  exact hkept ⟨y, List.mem_of_getElem? hget, h.consumes⟩

end Stretch

/-! ### What is known and what there is -/

namespace Sighting

variable {target : OutPoint} {txs : Stretch} {s : Sighting} {start : Height}

/-- After a stretch that does not create the output, nothing is known. -/
theorem Of.eq_unseen (hs : Of target txs s) (h : ∀ p x, ¬ txs.CreatedAt target p x) :
    s = .unseen := by
  cases hs with
  | unseen => rfl
  | created hfirst hcreates hkept =>
    exact absurd (Stretch.createdAt_append hfirst hcreates) (h _ _)
  | spent hfirst hcreates hkept hinput =>
    exact absurd (Stretch.createdAt_append hfirst hcreates) (h _ _)

theorem Of.eq_created {p : ℕ} {x : Mined} (hs : Of target txs s)
    (hx : txs.CreatedAt target p x) (h : ∀ q y i, ¬ txs.SpentAt target p q y i) :
    ∃ out, x.tx.outputs[target.vout.toNat]? = some out ∧ s = .created out x.height := by
  cases hs with
  | unseen hnone => exact absurd hx.creates (Transaction.outputAt?_eq_none_iff.mp (hnone x hx.mem))
  | created hfirst hcreates hkept =>
    obtain ⟨_, rfl⟩ := hx.unique (Stretch.createdAt_append hfirst hcreates)
    exact ⟨_, (Transaction.creates_of_outputAt? hcreates).2, rfl⟩
  | spent hfirst hcreates hkept hinput =>
    obtain ⟨rfl, _⟩ := hx.unique (Stretch.createdAt_append hfirst hcreates)
    exact absurd (Stretch.spentAt_append hkept hinput) (h _ _ _)

theorem Of.eq_spent {p q i : ℕ} {x y : Mined} (hs : Of target txs s)
    (hx : txs.CreatedAt target p x) (hy : txs.SpentAt target p q y i) :
    s = .spent y.tx.txid (UInt32.ofNat i) y.height := by
  cases hs with
  | unseen hnone => exact absurd hx.creates (Transaction.outputAt?_eq_none_iff.mp (hnone x hx.mem))
  | created hfirst hcreates hkept =>
    obtain ⟨rfl, _⟩ := hx.unique (Stretch.createdAt_append hfirst hcreates)
    exact absurd hy (Stretch.not_spentAt_append hkept)
  | spent hfirst hcreates hkept hinput =>
    obtain ⟨rfl, _⟩ := hx.unique (Stretch.createdAt_append hfirst hcreates)
    obtain ⟨rfl, rfl⟩ := hy.unique (Stretch.spentAt_append hkept hinput)
    rfl

end Sighting

/-! ### What is asked for -/

/-- A run asks for what it needs at some heights, one after another, and for nothing else. -/
structure Traced.Asks {α : Type} (run : Traced α) (src : Source) (scripts : List Script)
    (hs : List Height) : Prop where
  calls : run.calls = hs.flatMap (src.asked scripts)
  heights : run.calls.filterMap Call.height? = hs

theorem Source.heights_asked (src : Source) (scripts : List Script) (h : Height) :
    (src.asked scripts h).filterMap Call.height? = [h] := by
  unfold asked
  cases src.hashAt h with
  | error text => rfl
  | ok x =>
    dsimp only
    cases (src.verdict scripts x).isHit <;> rfl

theorem Traced.asks_of_calls {α : Type} {run : Traced α} {src : Source} {scripts : List Script}
    {hs : List Height} (h : run.calls = hs.flatMap fun k => (src.probe scripts k).calls) :
    run.Asks src scripts hs := by
  have hcalls : run.calls = hs.flatMap (src.asked scripts) := by
    rw [h]
    simp only [src.calls_probe_eq_asked]
  refine ⟨hcalls, ?_⟩
  rw [hcalls, List.filterMap_flatMap]
  simp only [src.heights_asked, List.flatMap_singleton']

/-! ### What is reported -/

section

variable {src : Source} {target : OutPoint} {script : Script} {start stop : Height}

variable (src target script start stop) in
/-- A lookup asks about the heights up to the spend. -/
theorem asks_lookup_never :
    (lookup src target script start stop .never).Asks src [script]
      (heights start ((sighting src target script start stop).last stop)) :=
  Traced.asks_of_calls (calls_lookup_never src target script start stop)

/-- A range that ends before it starts has nothing to ask about. -/
theorem calls_lookup_of_lt (h : stop < start) (token : Token) :
    (lookup src target script start stop token).calls = [] := by
  have hsize : rangeSize start stop = 0 := by
    unfold rangeSize Height at *
    omega
  rw [lookup, Traced.map_calls, sweepRange, hsize]
  rfl

theorem lookup_of_not_created
    (hnone : ∀ p x, ¬ (src.walked [script] start stop).CreatedAt target p x) :
    (lookup src target script start stop .never).value = .error (.notFound target start) ∧
      (lookup src target script start stop .never).Asks src [script] (heights start stop) := by
  have hasks := asks_lookup_never src target script start stop
  have hs := (of_sighting src target script start stop).eq_unseen hnone
  rw [hs] at hasks
  rw [value_lookup_never, hs]
  exact ⟨rfl, hasks⟩

theorem lookup_of_kept {p : ℕ} {x : Mined}
    (hx : (src.walked [script] start stop).CreatedAt target p x)
    (hkept : ∀ q y i, ¬ (src.walked [script] start stop).SpentAt target p q y i) :
    ∃ out, x.tx.outputs[target.vout.toNat]? = some out ∧
      (lookup src target script start stop .never).value =
        .ok (.unspent out.value out.script x.height) ∧
      (lookup src target script start stop .never).Asks src [script] (heights start stop) := by
  have hasks := asks_lookup_never src target script start stop
  obtain ⟨out, hout, hs⟩ := (of_sighting src target script start stop).eq_created hx hkept
  rw [hs] at hasks
  rw [value_lookup_never, hs]
  exact ⟨out, hout, rfl, hasks⟩

theorem lookup_of_spent {p q i : ℕ} {x y : Mined}
    (hx : (src.walked [script] start stop).CreatedAt target p x)
    (hy : (src.walked [script] start stop).SpentAt target p q y i) :
    (lookup src target script start stop .never).value =
        .ok (.spent y.tx.txid (UInt32.ofNat i) y.height) ∧
      (lookup src target script start stop .never).Asks src [script] (heights start y.height) := by
  have hasks := asks_lookup_never src target script start stop
  have hs := (of_sighting src target script start stop).eq_spent hx hy
  rw [hs] at hasks
  rw [value_lookup_never, hs]
  exact ⟨rfl, hasks⟩

end

/-- **What a lookup reports.**  Let `txs` be the transactions of the blocks that the hits for the
script lead to, one for each height of the range whose course leads to one, in ascending order.  If
none of them creates the output, it is reported missing.  If one does, the output is there, and it
is reported unspent, unless a later one consumes it: then the report is on the first that does, and
on the first of its inputs that does.  The lookup asks about the heights up to this spend, and about
all heights of the range if there is none. -/
theorem lookup_exact (src : Source) (target : OutPoint) (script : Script) (start stop : Height) :
    let txs := src.walked [script] start stop
    let run := lookup src target script start stop .never
    (∃ M : List (Height × Block), (M.Pairwise fun m n => m.1 < n.1) ∧
      (∀ m, m ∈ M ↔ (start ≤ m.1 ∧ m.1 ≤ stop) ∧ src.Course [script] m.1 (.hit m.2)) ∧
      stretchOf M = txs) ∧
    ((∀ p x, ¬ txs.CreatedAt target p x) →
      run.value = .error (.notFound target start) ∧
        run.Asks src [script] (heights start stop)) ∧
    (∀ p x, txs.CreatedAt target p x →
      ∃ out, x.tx.outputs[target.vout.toNat]? = some out ∧
        ((∀ q y i, ¬ txs.SpentAt target p q y i) →
          run.value = .ok (.unspent out.value out.script x.height) ∧
            run.Asks src [script] (heights start stop)) ∧
        ∀ q y i, txs.SpentAt target p q y i →
          run.value = .ok (.spent y.tx.txid (UInt32.ofNat i) y.height) ∧
            (y.tx.inputs.length < UInt32.size → (UInt32.ofNat i).toNat = i) ∧
            run.Asks src [script] (heights start y.height)) ∧
    (run.calls.filterMap Call.height?).Pairwise (· < ·) ∧
    (stop < start → run.calls = []) := by
  intro txs run
  refine ⟨⟨src.blocksAt [script] (heights start stop), src.pairwise_blocksAt [script] start stop,
    fun m => ?_, src.stretchOf_blocksAt [script] (heights start stop)⟩, lookup_of_not_created,
    fun p x hx => ?_, ?_, fun hempty => calls_lookup_of_lt hempty .never⟩
  · rw [Source.mem_blocksAt, mem_heights]
  · obtain ⟨out, hout⟩ : ∃ out, x.tx.outputs[target.vout.toNat]? = some out :=
      ⟨_, List.getElem?_eq_getElem hx.creates.2⟩
    refine ⟨out, hout, fun hkept => ?_, fun q y i hy => ?_⟩
    · obtain ⟨_, hout', hreport⟩ := lookup_of_kept hx hkept
      obtain rfl := Option.some.inj (hout.symm.trans hout')
      exact hreport
    · obtain ⟨hvalue, hasks⟩ := lookup_of_spent hx hy
      refine ⟨hvalue, fun hfew => ?_, hasks⟩
      have hi : i < y.tx.inputs.length := (List.findIdx?_eq_some_iff_getElem.mp hy.input).1
      rw [UInt32.toNat_ofNat']
      exact Nat.mod_eq_of_lt (Nat.lt_trans hi hfew)
  · rw [(asks_lookup_never src target script start stop).heights]
    exact pairwise_lt_heights start _

namespace Sample

theorem walked_first_output :
    source.walked [script 1] 1 3 = [⟨1, funding⟩, ⟨3, spending 0⟩] := by
  decide +kernel

/-- The first output is created by the first transaction that the lookup sees and consumed by the
second, two heights later. -/
theorem reported_spent :
    ∃ p x q y i, (source.walked [script 1] 1 3).CreatedAt ⟨fundingId, 0⟩ p x ∧
      (source.walked [script 1] 1 3).SpentAt ⟨fundingId, 0⟩ p q y i ∧
      (lookup source ⟨fundingId, 0⟩ (script 1) 1 3 .never).value =
        .ok (.spent (spending 0).txid 0 3) ∧
      (lookup source ⟨fundingId, 0⟩ (script 1) 1 3 .never).Asks source [script 1] [1, 2, 3] := by
  have hcreated : (source.walked [script 1] 1 3).CreatedAt ⟨fundingId, 0⟩ 0 ⟨1, funding⟩ := by
    rw [walked_first_output]
    exact ⟨rfl, by decide +kernel, fun j z hj => absurd hj (Nat.not_lt_zero j)⟩
  have hspent : (source.walked [script 1] 1 3).SpentAt ⟨fundingId, 0⟩ 0 1 ⟨3, spending 0⟩ 0 := by
    rw [walked_first_output]
    exact ⟨by decide, rfl, by decide +kernel, fun j z hj hj' => absurd hj' (by omega)⟩
  obtain ⟨_, _, hreport, _⟩ := lookup_exact source ⟨fundingId, 0⟩ (script 1) 1 3
  obtain ⟨_, _, _, hbyspent⟩ := hreport _ _ hcreated
  obtain ⟨hvalue, _, hasks⟩ := hbyspent _ _ _ hspent
  exact ⟨_, _, _, _, _, hcreated, hspent, hvalue, hasks⟩

end Sample

end CoinWatch
