import CoinWatch.Scan.Range
import Mathlib.Data.List.Basic
import Mathlib.Data.List.Nodup

/-! # Stretches of a chain

A stretch is a list of transactions in chain order, each with the height of its block.  What a
scan or a lookup has to find is said of stretches alone, with no mention of filters, sources or
walks: what an input of the stretch consumes (`Stretch.Consumes`), all outputs with the outpoints
they stand at (`Stretch.outputs`), and for a watch set the record of the last watched output at
an outpoint (`WatchSet.latest?`) and that record unless the outpoint is consumed
(`WatchSet.unspent?`).

Two stretches are what the theorems compare: the one made of the blocks of a chain at some heights
(`stretchAt`), and the one a source leads through, made of the blocks behind its filter hits
(`Source.walked`). -/

namespace CoinWatch

namespace Transaction

variable (t : Transaction) (o : OutPoint)

/-- Some input consumes the outpoint. -/
def Consumes : Prop := ∃ i ∈ t.inputs, i.prevout = o

instance : Decidable (t.Consumes o) := inferInstanceAs (Decidable (∃ i ∈ t.inputs, i.prevout = o))

/-- The output that the transaction creates at the outpoint. -/
def outputAt? : Option Output :=
  if t.txid = o.txid then t.outputs[o.vout.toNat]? else none

/-- The transaction has the name that the outpoint tells, and enough outputs. -/
def Creates : Prop := t.txid = o.txid ∧ o.vout.toNat < t.outputs.length

instance : Decidable (t.Creates o) :=
  inferInstanceAs (Decidable (t.txid = o.txid ∧ o.vout.toNat < t.outputs.length))

variable {t o}

theorem isSome_outputAt? : (t.outputAt? o).isSome ↔ t.Creates o := by
  unfold outputAt? Creates
  split <;> simp [*]

theorem outputAt?_eq_none_iff : t.outputAt? o = none ↔ ¬ t.Creates o := by
  rw [← isSome_outputAt?, Option.not_isSome_iff_eq_none]

theorem creates_of_outputAt? {out : Output} (h : t.outputAt? o = some out) :
    t.Creates o ∧ t.outputs[o.vout.toNat]? = some out := by
  have hcreates : t.Creates o := isSome_outputAt?.mp (by rw [h]; rfl)
  rw [outputAt?, if_pos hcreates.1] at h
  exact ⟨hcreates, h⟩

end Transaction

/-- A transaction and the height of its block. -/
structure Mined where
  height : Height
  tx : Transaction
deriving DecidableEq

/-- An output, the height of its block and the outpoint it stands at. -/
structure Placed where
  height : Height
  outpoint : OutPoint
  output : Output
deriving DecidableEq

/-- The outputs of a transaction in order. -/
def Mined.outputs (x : Mined) : List Placed :=
  x.tx.outputs.zipIdx.map fun (out, i) => ⟨x.height, ⟨x.tx.txid, UInt32.ofNat i⟩, out⟩

/-- Transactions in chain order. -/
abbrev Stretch := List Mined

namespace Stretch

/-- Some input of the stretch consumes the outpoint. -/
def Consumes (txs : Stretch) (o : OutPoint) : Prop := ∃ x ∈ txs, x.tx.Consumes o

instance (txs : Stretch) (o : OutPoint) : Decidable (txs.Consumes o) :=
  inferInstanceAs (Decidable (∃ x ∈ txs, x.tx.Consumes o))

/-- All outputs of the stretch in chain order. -/
def outputs (txs : Stretch) : List Placed := txs.flatMap Mined.outputs

@[simp] theorem not_consumes_nil (o : OutPoint) : ¬ Stretch.Consumes [] o := by
  simp [Consumes]

theorem consumes_cons {x : Mined} {txs : Stretch} {o : OutPoint} :
    Stretch.Consumes (x :: txs) o ↔ x.tx.Consumes o ∨ txs.Consumes o := by
  simp [Consumes]

theorem consumes_append {txs us : Stretch} {o : OutPoint} :
    Stretch.Consumes (txs ++ us) o ↔ txs.Consumes o ∨ us.Consumes o := by
  simp only [Consumes, List.mem_append, or_and_right, exists_or]

theorem consumes_singleton {x : Mined} {o : OutPoint} :
    Stretch.Consumes [x] o ↔ x.tx.Consumes o := by
  simp [Consumes]

theorem mem_outputs {txs : Stretch} {p : Placed} : p ∈ txs.outputs ↔ ∃ x ∈ txs, p ∈ x.outputs :=
  List.mem_flatMap

end Stretch

theorem Mined.mem_outputs {x : Mined} {p : Placed} :
    p ∈ x.outputs ↔ ∃ i, x.tx.outputs[i]? = some p.output ∧ p.height = x.height ∧
      p.outpoint = ⟨x.tx.txid, UInt32.ofNat i⟩ := by
  simp only [outputs, List.mem_map, Prod.exists, List.mem_zipIdx_iff_getElem?]
  constructor
  · rintro ⟨out, i, hi, rfl⟩
    exact ⟨i, hi, rfl, rfl⟩
  · rintro ⟨i, hi, hh, ho⟩
    refine ⟨p.output, i, hi, ?_⟩
    cases p
    simp_all

theorem Mined.mem_outputs_of_outputAt? {x : Mined} {o : OutPoint} {out : Output}
    (h : x.tx.outputAt? o = some out) : ⟨x.height, o, out⟩ ∈ x.outputs := by
  unfold Transaction.outputAt? at h
  split at h
  · next heq =>
    rw [Mined.mem_outputs]
    refine ⟨o.vout.toNat, h, rfl, ?_⟩
    cases o
    simp_all
  · cases h

/-- With fewer outputs than indices, the outputs at an outpoint are what `outputAt?` tells. -/
theorem Mined.outputAt?_of_mem_outputs {x : Mined} {p : Placed} (h : p ∈ x.outputs)
    (hlen : x.tx.outputs.length < UInt32.size) : x.tx.outputAt? p.outpoint = some p.output := by
  obtain ⟨i, hi, _, ho⟩ := Mined.mem_outputs.mp h
  have hlt : i < UInt32.size := by
    obtain ⟨hi', _⟩ := List.getElem?_eq_some_iff.mp hi
    omega
  rw [ho, Transaction.outputAt?, if_pos rfl]
  rw [show (UInt32.ofNat i).toNat = i by simp; omega]
  exact hi

/-! ### What a watch set makes of a stretch -/

namespace WatchSet

variable (w : WatchSet)

/-- The record of an output that pays a watched script. -/
def coin? (p : Placed) : Option Coin :=
  (w.owner? p.output.script).map fun owner =>
    ⟨p.outpoint, p.output.value, owner, p.output.script, p.height⟩

/-- The records of the watched outputs in chain order. -/
def coins (txs : Stretch) : List Coin := txs.outputs.filterMap w.coin?

/-- The record of the last watched output at an outpoint. -/
def latest? (txs : Stretch) (o : OutPoint) : Option Coin :=
  (w.coins txs).findRev? (·.outpoint = o)

/-- What a look at every transaction finds at an outpoint: the record of the last watched output
there, unless an input of the stretch consumes it. -/
def unspent? (txs : Stretch) (o : OutPoint) : Option Coin :=
  if txs.Consumes o then none else w.latest? txs o

variable {w}

theorem owner?_eq_none_iff {s : Script} : w.owner? s = none ↔ s ∉ w.scripts := by
  simp [owner?, scripts]

theorem outpoint_of_coin? {p : Placed} {c : Coin} (h : w.coin? p = some c) :
    c.outpoint = p.outpoint := by
  obtain ⟨owner, _, rfl⟩ := Option.map_eq_some_iff.mp h
  rfl

theorem mem_scripts_of_coin? {p : Placed} {c : Coin} (h : w.coin? p = some c) :
    p.output.script ∈ w.scripts := by
  obtain ⟨owner, howner, _⟩ := Option.map_eq_some_iff.mp h
  by_contra hnot
  rw [owner?_eq_none_iff.mpr hnot] at howner
  cases howner

theorem coin?_eq_none_iff {p : Placed} : w.coin? p = none ↔ p.output.script ∉ w.scripts := by
  rw [coin?, Option.map_eq_none_iff, owner?_eq_none_iff]

theorem mem_coins {txs : Stretch} {c : Coin} :
    c ∈ w.coins txs ↔ ∃ p ∈ txs.outputs, w.coin? p = some c := List.mem_filterMap

theorem coins_cons (x : Mined) (txs : Stretch) :
    w.coins (x :: txs) = w.coins [x] ++ w.coins txs := by
  simp [coins, Stretch.outputs]

theorem coins_append (txs us : Stretch) : w.coins (txs ++ us) = w.coins txs ++ w.coins us := by
  simp [coins, Stretch.outputs]

theorem coins_singleton (x : Mined) : w.coins [x] = w.coinsOf x.height x.tx := by
  simp only [coins, Stretch.outputs, Mined.outputs, coinsOf, List.flatMap_cons, List.flatMap_nil,
    List.append_nil, List.filterMap_map]
  rfl

theorem latest?_nil (o : OutPoint) : w.latest? [] o = none := rfl

theorem latest?_append (txs us : Stretch) (o : OutPoint) :
    w.latest? (txs ++ us) o = (w.latest? us o).or (w.latest? txs o) := by
  simp [latest?, coins_append]

theorem latest?_eq_none_iff {txs : Stretch} {o : OutPoint} :
    w.latest? txs o = none ↔ ∀ c ∈ w.coins txs, c.outpoint ≠ o := by
  simp [latest?]

theorem mem_coins_of_latest? {txs : Stretch} {o : OutPoint} {c : Coin}
    (h : w.latest? txs o = some c) : c ∈ w.coins txs ∧ c.outpoint = o := by
  rw [latest?, List.findRev?_eq_find?_reverse] at h
  exact ⟨by simpa using List.mem_of_find?_eq_some h, by simpa using List.find?_some h⟩

/-- What is on record at an outpoint is filed there, under the owner of its script. -/
theorem owner?_of_latest? {txs : Stretch} {o : OutPoint} {c : Coin}
    (h : w.latest? txs o = some c) : c.outpoint = o ∧ w.owner? c.script = some c.address := by
  obtain ⟨hmem, ho⟩ := mem_coins_of_latest? h
  obtain ⟨q, _, hqc⟩ := mem_coins.mp hmem
  obtain ⟨owner, howner, rfl⟩ := Option.map_eq_some_iff.mp hqc
  exact ⟨ho, howner⟩

theorem latest?_isSome_iff {txs : Stretch} {o : OutPoint} :
    (w.latest? txs o).isSome ↔ ∃ q ∈ txs.outputs, q.outpoint = o ∧ q.output.script ∈ w.scripts := by
  rw [← not_iff_not, Option.not_isSome_iff_eq_none, latest?_eq_none_iff]
  constructor
  · rintro h ⟨q, hq, ho, hs⟩
    cases hc : w.coin? q with
    | none => exact coin?_eq_none_iff.mp hc hs
    | some c =>
      exact h c (mem_coins.mpr ⟨q, hq, hc⟩) ((outpoint_of_coin? hc).trans ho)
  · intro h c hc hco
    obtain ⟨q, hq, hqc⟩ := mem_coins.mp hc
    exact h ⟨q, hq, (outpoint_of_coin? hqc).symm.trans hco,
      mem_scripts_of_coin? hqc⟩

end WatchSet

/-! ### Stretches in order -/

/-- Transactions have names of their own, and an input consumes no output of its own transaction or
of a later one. -/
structure Stretch.Orderly (txs : Stretch) : Prop where
  distinct : (txs.map fun x => x.tx.txid).Nodup
  own : ∀ x ∈ txs, ∀ i ∈ x.tx.inputs, x.tx.outputAt? i.prevout = none
  later : txs.Pairwise fun x y => ∀ i ∈ x.tx.inputs, y.tx.outputAt? i.prevout = none

section orderly

variable {txs pre post : Stretch} {x y : Mined} {o : OutPoint} {out : Output}

theorem txid_of_outputAt? {t : Transaction} (h : t.outputAt? o = some out) : t.txid = o.txid := by
  by_contra hne
  rw [Transaction.outputAt?, if_neg hne] at h
  cases h

theorem Transaction.not_consumes_of_outputAt? {t u : Transaction} (hu : u.outputAt? o = some out)
    (h : ∀ i ∈ t.inputs, u.outputAt? i.prevout = none) : ¬ t.Consumes o := by
  rintro ⟨i, hi, rfl⟩
  rw [h i hi] at hu
  cases hu

/-- At most one transaction creates an output. -/
theorem Stretch.Orderly.eq_of_outputAt? (h : txs.Orderly) (hx : x ∈ txs) (hy : y ∈ txs)
    {out' : Output} (hxo : x.tx.outputAt? o = some out) (hyo : y.tx.outputAt? o = some out') :
    x = y :=
  List.inj_on_of_nodup_map h.distinct hx hy
    ((txid_of_outputAt? hxo).trans (txid_of_outputAt? hyo).symm)

/-- Only what follows the transaction that creates an output can consume it. -/
theorem Stretch.Orderly.consumes_iff (h : Stretch.Orderly (pre ++ x :: post))
    (hxo : x.tx.outputAt? o = some out) :
    Stretch.Consumes (pre ++ x :: post) o ↔ Stretch.Consumes post o := by
  have hpre : ¬ Stretch.Consumes pre o := by
    rintro ⟨y, hy, hyc⟩
    have hlater := (List.pairwise_append.mp h.later).2.2 y hy x List.mem_cons_self
    exact Transaction.not_consumes_of_outputAt? hxo hlater hyc
  have hown : ¬ x.tx.Consumes o :=
    Transaction.not_consumes_of_outputAt? hxo (h.own x (by simp))
  rw [Stretch.consumes_append, Stretch.consumes_cons]
  simp only [hpre, hown, false_or]

theorem Stretch.Orderly.latest?_eq (h : txs.Orderly)
    (hlen : ∀ y ∈ txs, y.tx.outputs.length < UInt32.size) (hx : x ∈ txs)
    (hxo : x.tx.outputAt? o = some out) {w : WatchSet} (hw : out.script ∈ w.scripts) :
    ∃ owner, w.latest? txs o = some ⟨o, out.value, owner, out.script, x.height⟩ := by
  have hq : ⟨x.height, o, out⟩ ∈ txs.outputs :=
    Stretch.mem_outputs.mpr ⟨x, hx, Mined.mem_outputs_of_outputAt? hxo⟩
  obtain ⟨c, hc⟩ := Option.isSome_iff_exists.mp
    (WatchSet.latest?_isSome_iff (w := w).mpr ⟨_, hq, rfl, hw⟩)
  -- Any other record at the outpoint would be of the same output.
  obtain ⟨hcmem, hco⟩ := WatchSet.mem_coins_of_latest? hc
  obtain ⟨q, hqmem, hqc⟩ := WatchSet.mem_coins.mp hcmem
  obtain ⟨y, hy, hqy⟩ := Stretch.mem_outputs.mp hqmem
  have hqo : q.outpoint = o := (WatchSet.outpoint_of_coin? hqc).symm.trans hco
  have hyo : y.tx.outputAt? o = some q.output := by
    rw [← hqo]
    exact Mined.outputAt?_of_mem_outputs hqy (hlen y hy)
  obtain rfl := h.eq_of_outputAt? hx hy hxo hyo
  obtain ⟨_, _, hheight, _⟩ := Mined.mem_outputs.mp hqy
  have hout : q.output = out := Option.some.inj (hyo.symm.trans hxo)
  obtain ⟨owner, _, rfl⟩ := Option.map_eq_some_iff.mp hqc
  exact ⟨owner, by rw [hc, hqo, hout, hheight]⟩

/-- What is on record over a stretch in order: an output that is created there, under the owner
of its script. -/
theorem Stretch.Orderly.latest?_eq_some_iff (h : txs.Orderly)
    (hlen : ∀ y ∈ txs, y.tx.outputs.length < UInt32.size) {w : WatchSet} {c : Coin} :
    w.latest? txs o = some c ↔ c.outpoint = o ∧ w.owner? c.script = some c.address ∧
      ∃ x ∈ txs, x.tx.outputAt? o = some ⟨c.value, c.script⟩ ∧ x.height = c.height := by
  constructor
  · intro hc
    obtain ⟨ho, howner⟩ := WatchSet.owner?_of_latest? hc
    obtain ⟨hmem, _⟩ := WatchSet.mem_coins_of_latest? hc
    obtain ⟨q, hq, hqc⟩ := WatchSet.mem_coins.mp hmem
    obtain ⟨x, hx, hxq⟩ := Stretch.mem_outputs.mp hq
    obtain ⟨_, _, hheight, _⟩ := Mined.mem_outputs.mp hxq
    have hout := Mined.outputAt?_of_mem_outputs hxq (hlen x hx)
    obtain ⟨owner, _, rfl⟩ := Option.map_eq_some_iff.mp hqc
    refine ⟨ho, howner, x, hx, ?_, hheight.symm⟩
    rw [← ho]
    exact hout
  · rintro ⟨ho, howner, x, hx, hout, hheight⟩
    have hw : c.script ∈ w.scripts := by
      by_contra hnot
      rw [WatchSet.owner?_eq_none_iff.mpr hnot] at howner
      cases howner
    obtain ⟨owner, hlatest⟩ := h.latest?_eq hlen hx hout hw
    obtain ⟨_, howner'⟩ := WatchSet.owner?_of_latest? hlatest
    obtain rfl := Option.some.inj (howner.symm.trans howner')
    rw [hlatest, ← ho, hheight]

theorem Stretch.Orderly.sublist {us : Stretch} (h : txs.Orderly) (hsub : us.Sublist txs) :
    us.Orderly where
  distinct := h.distinct.sublist (hsub.map _)
  own x hx := h.own x (hsub.subset hx)
  later := h.later.sublist hsub

theorem Stretch.exists_outputAt?_of_mem_outputs
    (hlen : ∀ y ∈ txs, y.tx.outputs.length < UInt32.size) {q : Placed} (hq : q ∈ txs.outputs)
    (hqo : q.outpoint = o) : ∃ y ∈ txs, y.tx.outputAt? o = some q.output := by
  obtain ⟨y, hy, hqy⟩ := Stretch.mem_outputs.mp hq
  rw [← hqo]
  exact ⟨y, hy, Mined.outputAt?_of_mem_outputs hqy (hlen y hy)⟩

end orderly

/-! ### The stretches of a chain and of a source -/

/-- The heights of a range in ascending order. -/
def heights (start stop : Height) : List Height := List.range' start (rangeSize start stop)

@[simp] theorem mem_heights {start stop h : Height} :
    h ∈ heights start stop ↔ start ≤ h ∧ h ≤ stop := by
  rw [heights, List.mem_range'_1]
  unfold rangeSize Height at *
  omega

theorem heights_split {start mid stop : Height} (hstart : start ≤ mid) (hstop : mid ≤ stop + 1) :
    heights start stop = List.range' start (mid - start) ++ heights mid stop := by
  unfold heights rangeSize Height at *
  rw [show stop + 1 - start = (mid - start) + (stop + 1 - mid) by omega, ← List.range'_append_1,
    Nat.add_sub_cancel' hstart]

theorem heights_append {start mid stop : Height} (hstart : start ≤ mid + 1) (hstop : mid ≤ stop) :
    heights start mid ++ heights (mid + 1) stop = heights start stop :=
  (heights_split hstart (Nat.succ_le_succ hstop)).symm

theorem heights_suffix (start stop : Height) : heights start stop <:+ heights 0 stop := by
  by_cases h : start ≤ stop
  · exact ⟨_, (heights_split (Nat.zero_le start) (Nat.le_succ_of_le h)).symm⟩
  · have hsize : rangeSize start stop = 0 := by
      unfold rangeSize Height at *
      omega
    rw [heights, hsize]
    exact List.nil_suffix

/-- The transactions of the block at a height. -/
def Block.mined (b : Block) (h : Height) : Stretch := b.transactions.map (Mined.mk h)

@[simp] theorem Block.mem_mined {b : Block} {h : Height} {x : Mined} :
    x ∈ b.mined h ↔ x.height = h ∧ x.tx ∈ b.transactions := by
  simp only [mined, List.mem_map]
  constructor
  · rintro ⟨t, ht, rfl⟩
    exact ⟨rfl, ht⟩
  · rintro ⟨rfl, ht⟩
    exact ⟨x.tx, ht, rfl⟩

/-- The transactions of a chain's blocks at some heights. -/
def stretchAt (chain : Height → Block) (hs : List Height) : Stretch :=
  hs.flatMap fun h => (chain h).mined h

theorem mem_stretchAt {chain : Height → Block} {hs : List Height} {x : Mined} :
    x ∈ stretchAt chain hs ↔ x.height ∈ hs ∧ x.tx ∈ (chain x.height).transactions := by
  simp only [stretchAt, List.mem_flatMap, Block.mem_mined]
  constructor
  · rintro ⟨h, hh, rfl, hx⟩
    exact ⟨hh, hx⟩
  · rintro ⟨hh, hx⟩
    exact ⟨x.height, hh, rfl, hx⟩

/-- What a chain has from some height on is the end of the chain. -/
theorem stretchAt_suffix (chain : Height → Block) (start stop : Height) :
    stretchAt chain (heights start stop) <:+ stretchAt chain (heights 0 stop) := by
  obtain ⟨hs, heq⟩ := heights_suffix start stop
  refine ⟨stretchAt chain hs, ?_⟩
  rw [← heq]
  exact List.flatMap_append.symm

theorem mem_outputs_stretchAt_of_subset {chain : Height → Block} {hs ks : List Height} {p : Placed}
    (hsub : ∀ h ∈ hs, h ∈ ks) (hp : p ∈ (stretchAt chain hs).outputs) :
    p ∈ (stretchAt chain ks).outputs := by
  obtain ⟨x, hx, hxp⟩ := Stretch.mem_outputs.mp hp
  obtain ⟨hxh, hxt⟩ := mem_stretchAt.mp hx
  exact Stretch.mem_outputs.mpr ⟨x, mem_stretchAt.mpr ⟨hsub x.height hxh, hxt⟩, hxp⟩

namespace Probe

/-- The transactions that a height yields. -/
def mined (h : Height) : Probe → Stretch
  | hit b => b.mined h
  | _ => []

/-- The height led to a block. -/
def isHit : Probe → Bool
  | hit _ => true
  | _ => false

theorem mined_of_not_isHit {p : Probe} (hp : p.isHit = false) (h : Height) : p.mined h = [] := by
  cases p with
  | hit b => cases hp
  | miss | skipped => rfl

theorem isHit_eq_false_iff {p : Probe} (hserved : ∀ reason, p ≠ .skipped reason) :
    p.isHit = false ↔ p = .miss := by
  cases p with
  | hit b => simp [isHit]
  | miss => simp [isHit]
  | skipped reason => exact absurd rfl (hserved reason)

/-- The height with the reason why it was not looked at. -/
def skip? (h : Height) : Probe → Option (Height × SkipReason)
  | skipped reason => some (h, reason)
  | _ => none

theorem skip?_eq_some_iff {p : Probe} {h : Height} {s : Height × SkipReason} :
    p.skip? h = some s ↔ s.1 = h ∧ p = .skipped s.2 := by
  obtain ⟨k, reason⟩ := s
  cases p <;> simp [skip?, eq_comm]

end Probe

namespace Source

variable (src : Source) (scripts : List Script)

/-- The transactions of the blocks that a source's hits for some scripts lead to, at some
heights. -/
def walkedAt (hs : List Height) : Stretch :=
  hs.flatMap fun h => (src.probe scripts h).value.mined h

/-- The transactions that a walk over a range goes through. -/
def walked (start stop : Height) : Stretch := src.walkedAt scripts (heights start stop)

variable {src scripts}

theorem mem_walkedAt {hs : List Height} {x : Mined} :
    x ∈ src.walkedAt scripts hs ↔
      x.height ∈ hs ∧ ∃ b, (src.probe scripts x.height).value = .hit b ∧ x.tx ∈ b.transactions := by
  simp only [walkedAt, List.mem_flatMap]
  constructor
  · rintro ⟨h, hh, hx⟩
    cases hp : (src.probe scripts h).value with
    | hit b =>
      rw [hp] at hx
      obtain ⟨rfl, ht⟩ := Block.mem_mined.mp hx
      exact ⟨hh, b, hp, ht⟩
    | miss | skipped =>
      rw [hp] at hx
      cases hx
  · rintro ⟨hh, b, hp, ht⟩
    refine ⟨x.height, hh, ?_⟩
    rw [hp]
    exact Block.mem_mined.mpr ⟨rfl, ht⟩

/-- Where the blocks that hits lead to are those of a chain, a walk goes through the chain less
the heights that are no hits. -/
theorem walkedAt_eq_filter {chain : Height → Block} {hs : List Height}
    (h : ∀ k ∈ hs, ∀ b, (src.probe scripts k).value = .hit b → b = chain k) :
    src.walkedAt scripts hs =
      (stretchAt chain hs).filter fun x => (src.probe scripts x.height).value.isHit := by
  simp only [walkedAt, stretchAt, List.filter_flatMap]
  apply List.flatMap_congr
  intro k hk
  cases hp : (src.probe scripts k).value with
  | hit b =>
    rw [h k hk b hp]
    symm
    apply List.filter_eq_self.mpr
    intro x hx
    rw [(Block.mem_mined.mp hx).1, hp]
    rfl
  | miss | skipped =>
    symm
    apply List.filter_eq_nil_iff.mpr
    intro x hx
    rw [(Block.mem_mined.mp hx).1, hp]
    simp [Probe.isHit]

theorem walkedAt_filter {hs : List Height} {q : Height → Bool}
    (h : ∀ k ∈ hs, q k = false → (src.probe scripts k).value.isHit = false) :
    src.walkedAt scripts (hs.filter q) = src.walkedAt scripts hs := by
  unfold walkedAt
  induction hs with
  | nil => rfl
  | cons k hs ih =>
    have ih := ih fun l hl => h l (List.mem_cons_of_mem k hl)
    by_cases hk : q k = true
    · rw [List.filter_cons_of_pos hk, List.flatMap_cons, List.flatMap_cons, ih]
    · have hmiss := h k List.mem_cons_self (by simpa using hk)
      rw [List.filter_cons_of_neg hk, List.flatMap_cons, ih, Probe.mined_of_not_isHit hmiss]
      rfl

end Source

end CoinWatch
