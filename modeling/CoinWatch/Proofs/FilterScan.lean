import CoinWatch.Proofs.Walk
import CoinWatch.Scan.StoredChain

/-! # Filter-driven scans

A scan looks only at the blocks behind filter hits.  If those blocks are the ones of a chain and
the filters of the other blocks it was not kept from looking at tell the truth
(`Source.Reliable`), it finds what a look at all of these blocks finds
(`created_eq_unspent_of_reliable`): the transactions at a miss create nothing that is watched,
and consume nothing watched that the range creates (`WatchSet.unspent?_filter`). -/

namespace CoinWatch

/-- In a range, the blocks that hits lead to are those of a chain, and a miss for some scripts is
never false: the chain's block has no output that pays one of them, and no input that consumes an
output of the range that does. -/
structure Source.Reliable (src : Source) (scripts : List Script) (chain : Height → Block)
    (start stop : Height) : Prop where
  block_eq : ∀ h ∈ heights start stop, ∀ b, (src.probe scripts h).value = .hit b → b = chain h
  not_created : ∀ h ∈ heights start stop, (src.probe scripts h).value = .miss →
    ∀ t ∈ (chain h).transactions, ∀ out ∈ t.outputs, out.script ∉ scripts
  not_consumed : ∀ h ∈ heights start stop, (src.probe scripts h).value = .miss →
    ∀ t ∈ (chain h).transactions, ∀ i ∈ t.inputs,
      ∀ p ∈ (stretchAt chain (heights start stop)).outputs,
        p.outpoint = i.prevout → p.output.script ∉ scripts

namespace Source.Reliable

variable {src : Source} {scripts : List Script} {chain : Height → Block}
  {start stop start' stop' : Height}

theorem mono (h : src.Reliable scripts chain start stop) (hstart : start ≤ start')
    (hstop : stop' ≤ stop) : src.Reliable scripts chain start' stop' := by
  have hsub : ∀ k ∈ heights start' stop', k ∈ heights start stop := by
    intro k hk
    rw [mem_heights] at hk ⊢
    exact ⟨Nat.le_trans hstart hk.1, Nat.le_trans hk.2 hstop⟩
  refine ⟨fun k hk => h.block_eq k (hsub k hk), fun k hk => h.not_created k (hsub k hk), ?_⟩
  intro k hk hmiss t ht i hi p hp
  exact h.not_consumed k (hsub k hk) hmiss t ht i hi p (mem_outputs_stretchAt_of_subset hsub hp)

theorem walked_eq_filter (h : src.Reliable scripts chain start stop) :
    src.walked scripts start stop =
      (stretchAt chain (heights start stop)).filter fun x =>
        (src.probe scripts x.height).value.isHit :=
  Source.walkedAt_eq_filter h.block_eq

theorem orderly_walked (h : src.Reliable scripts chain start stop)
    (horder : (stretchAt chain (heights start stop)).Orderly) :
    (src.walked scripts start stop).Orderly := by
  rw [h.walked_eq_filter]
  exact horder.sublist List.filter_sublist

theorem not_pays_of_miss (h : src.Reliable scripts chain start stop) {x : Mined} {p : Placed}
    (hx : x ∈ stretchAt chain (heights start stop))
    (hmiss : (src.probe scripts x.height).value = .miss) (hp : p ∈ x.outputs) :
    p.output.script ∉ scripts := by
  obtain ⟨hxh, hxt⟩ := mem_stretchAt.mp hx
  obtain ⟨i, hi, _⟩ := Mined.mem_outputs.mp hp
  exact h.not_created x.height hxh hmiss x.tx hxt p.output (List.mem_of_getElem? hi)

/-- In a block that is a miss nothing consumes an output of the range that pays one of the
scripts. -/
theorem not_consumes_of_miss (h : src.Reliable scripts chain start stop) {y : Mined} {p : Placed}
    (hp : p ∈ (stretchAt chain (heights start stop)).outputs) (hpays : p.output.script ∈ scripts)
    (hy : y ∈ stretchAt chain (heights start stop))
    (hmiss : (src.probe scripts y.height).value = .miss) : ¬ y.tx.Consumes p.outpoint := by
  rintro ⟨i, hi, hprev⟩
  obtain ⟨hyh, hyt⟩ := mem_stretchAt.mp hy
  exact h.not_consumed y.height hyh hmiss y.tx hyt i hi p hp hprev.symm hpays

end Source.Reliable

namespace WatchSet

variable {w : WatchSet} {txs : Stretch} {p : Mined → Bool}

theorem coins_filter
    (hout : ∀ x ∈ txs, p x = false → ∀ q ∈ x.outputs, q.output.script ∉ w.scripts) :
    w.coins (txs.filter p) = w.coins txs := by
  induction txs with
  | nil => rfl
  | cons x txs ih =>
    have ih := ih fun y hy => hout y (List.mem_cons_of_mem x hy)
    by_cases hx : p x = true
    · rw [List.filter_cons_of_pos hx, coins_cons, ih, ← coins_cons]
    · have hnone : w.coins [x] = [] := by
        apply List.filterMap_eq_nil_iff.mpr
        intro q hq
        rw [coin?_eq_none_iff]
        exact hout x List.mem_cons_self (by simpa using hx) q (by simpa [Stretch.outputs] using hq)
      rw [List.filter_cons_of_neg hx, coins_cons, hnone, List.nil_append, ih]

/-- Transactions that have nothing to do with the watched outputs of a stretch may be left out. -/
theorem unspent?_filter
    (hout : ∀ x ∈ txs, p x = false → ∀ q ∈ x.outputs, q.output.script ∉ w.scripts)
    (hin : ∀ x ∈ txs, p x = false → ∀ q ∈ txs.outputs,
      q.output.script ∈ w.scripts → ¬ x.tx.Consumes q.outpoint) (o : OutPoint) :
    w.unspent? (txs.filter p) o = w.unspent? txs o := by
  have hlatest : w.latest? (txs.filter p) o = w.latest? txs o := by
    rw [latest?, coins_filter hout, latest?]
  unfold unspent?
  rw [hlatest]
  cases hc : w.latest? txs o with
  | none => simp
  | some c =>
    -- The outpoint is that of a watched output, so only what was kept can consume it.
    have hiff : Stretch.Consumes (txs.filter p) o ↔ txs.Consumes o := by
      constructor
      · rintro ⟨x, hx, hcons⟩
        exact ⟨x, List.mem_of_mem_filter hx, hcons⟩
      · rintro ⟨x, hx, hcons⟩
        refine ⟨x, List.mem_filter.mpr ⟨hx, ?_⟩, hcons⟩
        by_contra hpx
        obtain ⟨hmem, ho⟩ := mem_coins_of_latest? hc
        obtain ⟨q, hq, hqc⟩ := mem_coins.mp hmem
        have hqo : q.outpoint = o := (outpoint_of_coin? hqc).symm.trans ho
        refine hin x hx (by simpa using hpx) q hq (mem_scripts_of_coin? hqc) ?_
        rw [hqo]
        exact hcons
    simp only [hiff]

end WatchSet

section

variable {src : Source} {w : WatchSet} {chain : Height → Block} {start stop : Height}

/-- The heights of a range that a scan does not list as skipped. -/
def Findings.lookedAt (f : Findings) (start stop : Height) : List Height :=
  (heights start stop).filter fun h => h ∉ f.skipped.map Prod.fst

theorem mem_lookedAt_findings {h : Height} :
    h ∈ (findings src w start stop).lookedAt start stop ↔
      (start ≤ h ∧ h ≤ stop) ∧ ∀ reason, (src.probe w.scripts h).value ≠ .skipped reason := by
  rw [Findings.lookedAt, List.mem_filter, mem_heights, decide_eq_true_iff, mem_skipped_findings]
  constructor
  · rintro ⟨hh, hskip⟩
    exact ⟨hh, fun reason hp => hskip ⟨hh, reason, hp⟩⟩
  · rintro ⟨hh, hskip⟩
    exact ⟨hh, fun ⟨_, reason, hp⟩ => hskip reason hp⟩

theorem walkedAt_lookedAt :
    src.walkedAt w.scripts ((findings src w start stop).lookedAt start stop) =
      src.walked w.scripts start stop := by
  apply Source.walkedAt_filter
  intro h hh hskip
  rw [decide_eq_false_iff_not, not_not, mem_skipped_findings] at hskip
  obtain ⟨_, reason, hp⟩ := hskip
  rw [hp]
  rfl

/-- **A scan over filters finds what a look at every block finds**, the blocks of the heights apart
that it lists as skipped: those of the range at which something went wrong. -/
theorem created_eq_unspent_of_reliable (hw : w.isEmpty = false)
    (hsrc : src.Reliable w.scripts chain start stop) :
    ∃ f, (scanRange src w start stop .never).value = .ok f ∧
      (∀ h reason, (h, reason) ∈ f.skipped ↔
        (start ≤ h ∧ h ≤ stop) ∧ (src.probe w.scripts h).value = .skipped reason) ∧
      ∀ o : OutPoint, f.created[o]? = w.unspent? (stretchAt chain (f.lookedAt start stop)) o := by
  refine ⟨findings src w start stop, scanRange_never hw,
    fun h reason => pair_mem_skipped_findings, fun o => ?_⟩
  have hrange : ∀ h ∈ (findings src w start stop).lookedAt start stop, h ∈ heights start stop :=
    fun h hh => (List.mem_filter.mp hh).1
  have hmiss : ∀ h ∈ (findings src w start stop).lookedAt start stop,
      (src.probe w.scripts h).value.isHit = false → (src.probe w.scripts h).value = .miss :=
    fun h hh => (Probe.isHit_eq_false_iff (mem_lookedAt_findings.mp hh).2).mp
  rw [getElem?_created_findings, ← walkedAt_lookedAt,
    Source.walkedAt_eq_filter fun h hh => hsrc.block_eq h (hrange h hh)]
  apply WatchSet.unspent?_filter
  · intro x hx hp q hq
    obtain ⟨hh, ht⟩ := mem_stretchAt.mp hx
    obtain ⟨i, hi, _⟩ := Mined.mem_outputs.mp hq
    exact hsrc.not_created x.height (hrange _ hh) (hmiss _ hh hp) x.tx ht _
      (List.mem_of_getElem? hi)
  · intro x hx hp q hq hpays
    obtain ⟨hh, ht⟩ := mem_stretchAt.mp hx
    have hqr : q ∈ (stretchAt chain (heights start stop)).outputs :=
      mem_outputs_stretchAt_of_subset hrange hq
    exact hsrc.not_consumes_of_miss hqr hpays (mem_stretchAt.mpr ⟨hrange _ hh, ht⟩)
      (hmiss _ hh hp)

end

/-! ### A small chain

One transaction pays two scripts, and each of two later ones consumes an output of it.  The filters
are those of the outputs that a block creates or consumes.  Nothing is served for height 0. -/

namespace Sample

/-- A script that pays to a key hash. -/
def script (n : UInt8) : Script := 0 :: 20 :: List.replicate 20 n

def consume (o : OutPoint) : Input := ⟨o, [], 0xffffffff, []⟩

def funding : Transaction :=
  ⟨2, [consume ⟨⟨7⟩, 0⟩], [⟨5000, script 1⟩, ⟨700, script 2⟩, ⟨300, script 1⟩], 0⟩

/-- The name of `funding`. -/
def fundingId : Txid :=
  ⟨104219612628841602642835938610497759707939980324769311597623841201313098997523⟩

def spending (vout : UInt32) : Transaction :=
  ⟨2, [consume ⟨fundingId, vout⟩], [⟨100, script 3⟩], 0⟩

def block (txs : List Transaction) : Block := ⟨List.replicate 80 0, txs⟩

def chain : Height → Block
  | 1 => block [funding]
  | 2 => block [spending 1]
  | 3 => block [spending 0]
  | _ => block []

def stored (h : Height) (filter : Bytes) : Height × StoredBlock :=
  (h, ⟨.ok ⟨BitVec.ofNat 256 h⟩, .ok (some filter), .ok (chain h).encode⟩)

def source : Source :=
  (StoredChain.put ⟨.ok 3, ∅⟩
    [stored 1 [2, 128, 174, 105, 149, 129, 0], stored 2 [2, 197, 164, 245, 42, 230, 128],
      stored 3 [2, 46, 48, 233, 76, 65, 128]]).source

/-- What the heights lead to under the script of two of the three outputs. -/
def answer : Height → Probe
  | 0 => .skipped .noBlockHash
  | 2 => .miss
  | h => .hit (chain h)

theorem value_probe : ∀ h ∈ heights 0 3, (source.probe [script 1] h).value = answer h := by
  decide +kernel

/-- The filters of the chain tell the truth about the script. -/
theorem reliable : source.Reliable [script 1] chain 0 3 := by
  have hmiss : ∀ h, answer h = .miss → h = 2 := by
    intro h hm
    unfold answer at hm
    split at hm
    · cases hm
    · rfl
    · cases hm
  refine ⟨fun h hh b hb => ?_, fun h hh hm => ?_, fun h hh hm => ?_⟩
  · rw [value_probe h hh] at hb
    unfold answer at hb
    split at hb
    · cases hb
    · cases hb
    · exact (Probe.hit.inj hb).symm
  · rw [value_probe h hh] at hm
    obtain rfl := hmiss h hm
    decide
  · rw [value_probe h hh] at hm
    obtain rfl := hmiss h hm
    decide +kernel

theorem served : ∀ k ∈ heights 1 3, ∀ reason,
    (source.probe [script 1] k).value ≠ .skipped reason := by
  intro k hk reason
  rw [mem_heights] at hk
  rw [value_probe k (mem_heights.mpr ⟨Nat.zero_le k, hk.2⟩)]
  unfold answer
  split
  · exact absurd hk.1 (by decide)
  · exact Probe.noConfusion
  · exact Probe.noConfusion

theorem orderly : (stretchAt chain (heights 0 3)).Orderly := by
  refine ⟨?_, ?_, ?_⟩ <;> decide +kernel

def watch : WatchSet := .ofPayees [⟨"first", script 1⟩]

/-- A skip, two hits and a miss. -/
theorem created_eq_unspent : watch.isEmpty = false ∧ source.Reliable watch.scripts chain 0 3 ∧
    ∃ f, (scanRange source watch 0 3 .never).value = .ok f ∧ (0, .noBlockHash) ∈ f.skipped ∧
      ∀ o : OutPoint, f.created[o]? = watch.unspent? (stretchAt chain (f.lookedAt 0 3)) o := by
  have hw : watch.isEmpty = false := rfl
  have hsrc : source.Reliable watch.scripts chain 0 3 := reliable
  obtain ⟨f, hf, hskipped, hcreated⟩ := created_eq_unspent_of_reliable hw hsrc
  refine ⟨hw, hsrc, f, hf, (hskipped 0 .noBlockHash).mpr ⟨by decide, ?_⟩, hcreated⟩
  exact value_probe 0 (by decide)

end Sample

end CoinWatch
