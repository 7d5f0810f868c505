import CoinWatch.Proofs.Accounts

/-! # What a scan finds, over any source

A scan takes no side in what a source says.  It goes through the blocks that hits lead to, decoded
from whatever bytes were served, in the order of their heights (`Source.blocksAt`).  What it finds
is told by these blocks alone: an outpoint is spent if some input in them consumes it, and created
if it is not spent and some output at it pays a watched script; the last one to do so is on record
(`Stretch.LastPaying`, `Coin.IsRecord`).  Nothing is found besides, and nothing is lost
(`scanRange_exact`). -/

namespace CoinWatch

/-! ### The blocks gone through -/

/-- The transactions of some blocks, one block after another. -/
def stretchOf (blocks : List (Height × Block)) : Stretch := blocks.flatMap fun m => m.2.mined m.1

theorem consumes_stretchOf {blocks : List (Height × Block)} {o : OutPoint} :
    (stretchOf blocks).Consumes o ↔
      ∃ m ∈ blocks, ∃ t ∈ m.2.transactions, ∃ i ∈ t.inputs, i.prevout = o := by
  simp only [Stretch.Consumes, stretchOf, List.mem_flatMap, Block.mem_mined]
  constructor
  · rintro ⟨x, ⟨m, hm, _, ht⟩, hcons⟩
    exact ⟨m, hm, x.tx, ht, hcons⟩
  · rintro ⟨m, hm, t, ht, hcons⟩
    exact ⟨⟨m.1, t⟩, ⟨m, hm, rfl, ht⟩, hcons⟩

theorem exists_block_of_mem_outputs {blocks : List (Height × Block)} {p : Placed}
    (hp : p ∈ (stretchOf blocks).outputs) : ∃ m ∈ blocks, m.1 = p.height := by
  obtain ⟨x, hx, hpx⟩ := Stretch.mem_outputs.mp hp
  obtain ⟨m, hm, hxm⟩ := List.mem_flatMap.mp hx
  refine ⟨m, hm, ?_⟩
  rw [← (Block.mem_mined.mp hxm).1]
  obtain ⟨_, _, hheight, _⟩ := Mined.mem_outputs.mp hpx
  exact hheight.symm

/-- The block that a height led to, with the height. -/
def Probe.block? (h : Height) : Probe → Option (Height × Block)
  | hit b => some (h, b)
  | _ => none

theorem Probe.block?_eq_some_iff {p : Probe} {h : Height} {m : Height × Block} :
    p.block? h = some m ↔ m.1 = h ∧ p = .hit m.2 := by
  obtain ⟨k, b⟩ := m
  cases p <;> simp [block?, eq_comm]

namespace Source

variable (src : Source) (scripts : List Script)

/-- The blocks that hits lead to at some heights. -/
def blocksAt (hs : List Height) : List (Height × Block) :=
  hs.filterMap fun h => (src.probe scripts h).value.block? h

variable {src scripts}

theorem mem_blocksAt {hs : List Height} {m : Height × Block} :
    m ∈ src.blocksAt scripts hs ↔ m.1 ∈ hs ∧ src.Course scripts m.1 (.hit m.2) := by
  simp only [blocksAt, List.mem_filterMap, Probe.block?_eq_some_iff, course_iff]
  constructor
  · rintro ⟨h, hh, rfl, hp⟩
    exact ⟨hh, hp⟩
  · rintro ⟨hh, hp⟩
    exact ⟨m.1, hh, rfl, hp⟩

theorem pairwise_blocksAt (src : Source) (scripts : List Script) (start stop : Height) :
    (src.blocksAt scripts (heights start stop)).Pairwise fun m n => m.1 < n.1 := by
  rw [blocksAt, List.pairwise_filterMap]
  refine (pairwise_lt_heights start stop).imp fun {h k} hlt m hm n hn => ?_
  obtain ⟨rfl, _⟩ := Probe.block?_eq_some_iff.mp hm
  obtain ⟨rfl, _⟩ := Probe.block?_eq_some_iff.mp hn
  exact hlt

theorem stretchOf_blocksAt (src : Source) (scripts : List Script) (hs : List Height) :
    stretchOf (src.blocksAt scripts hs) = src.walkedAt scripts hs := by
  induction hs with
  | nil => rfl
  | cons h hs ih =>
    unfold stretchOf blocksAt walkedAt at ih ⊢
    rw [List.filterMap_cons, List.flatMap_cons, ← ih]
    cases (src.probe scripts h).value with
    | hit b => rfl
    | miss | skipped => rfl

end Source

/-! ### The last output to pay a watched script -/

/-- An output pays a watched script, and no output behind it at the same outpoint does. -/
def Stretch.LastPaying (txs : Stretch) (w : WatchSet) (p : Placed) : Prop :=
  ∃ before after, txs.outputs = before ++ p :: after ∧ p.output.script ∈ w.scripts ∧
    ∀ q ∈ after, q.outpoint = p.outpoint → q.output.script ∉ w.scripts

/-- A coin is the record of an output, under the owner of the output's script. -/
structure Coin.IsRecord (u : Coin) (w : WatchSet) (p : Placed) : Prop where
  outpoint : u.outpoint = p.outpoint
  value : u.value = p.output.value
  script : u.script = p.output.script
  owner : w.owner? p.output.script = some u.address
  height : u.height = p.height

namespace WatchSet

variable {w : WatchSet} {txs : Stretch} {o : OutPoint} {p : Placed} {u : Coin}

theorem coin?_eq_some_iff : w.coin? p = some u ↔ u.IsRecord w p := by
  rw [coin?, Option.map_eq_some_iff]
  constructor
  · rintro ⟨owner, howner, rfl⟩
    exact ⟨rfl, rfl, rfl, howner, rfl⟩
  · rintro ⟨houtpoint, hvalue, hscript, howner, hheight⟩
    refine ⟨u.address, howner, ?_⟩
    rw [← houtpoint, ← hvalue, ← hscript, ← hheight]

/-- At an outpoint, the record of the last output that pays a watched script is found. -/
theorem latest?_eq_some_iff :
    w.latest? txs o = some u ↔ ∃ p, txs.LastPaying w p ∧ u.IsRecord w p ∧ p.outpoint = o := by
  constructor
  · intro hu
    rw [latest?, List.findRev?_eq_find?_reverse, List.find?_eq_some_iff_append] at hu
    obtain ⟨hfound, late, early, hsplit, hlate⟩ := hu
    have hcoins : w.coins txs = early.reverse ++ u :: late.reverse := by
      rw [← List.reverse_reverse (w.coins txs), hsplit]
      simp
    -- The coin and those behind it come from an output and the outputs behind that one.
    obtain ⟨front, rest, houtputs, _, hrest⟩ := List.filterMap_eq_append_iff.mp hcoins
    obtain ⟨unwatched, p, after, rfl, _, hp, hafter⟩ := List.filterMap_eq_cons_iff.mp hrest
    have hpo : p.outpoint = o := by
      rw [← outpoint_of_coin? hp]
      simpa using hfound
    refine ⟨p, ⟨front ++ unwatched, after, ?_, mem_scripts_of_coin? hp, fun q hq hqo hpays => ?_⟩,
      coin?_eq_some_iff.mp hp, hpo⟩
    · rw [houtputs, List.append_assoc]
    · obtain ⟨v, hv⟩ : ∃ v, w.coin? q = some v := by
        rw [← Option.isSome_iff_exists, ← Option.not_isNone, Bool.not_eq_true',
          ← Bool.not_eq_true, Option.isNone_iff_eq_none, coin?_eq_none_iff, not_not]
        exact hpays
      have hmem : v ∈ late := by
        rw [← List.mem_reverse, ← hafter]
        exact List.mem_filterMap.mpr ⟨q, hq, hv⟩
      have hvo : v.outpoint = o := (outpoint_of_coin? hv).trans (hqo.trans hpo)
      simpa [hvo] using hlate v hmem
  · rintro ⟨p, ⟨before, after, houtputs, _, hafter⟩, hrecord, rfl⟩
    have hp := coin?_eq_some_iff.mpr hrecord
    have hcoins : w.coins txs = before.filterMap w.coin? ++ u :: after.filterMap w.coin? := by
      rw [coins, houtputs, List.filterMap_append, List.filterMap_cons_some hp]
    rw [latest?, hcoins, List.findRev?_eq_find?_reverse, List.find?_eq_some_iff_append]
    refine ⟨by simpa using hrecord.outpoint, (after.filterMap w.coin?).reverse,
      (before.filterMap w.coin?).reverse, by simp, fun v hv => ?_⟩
    obtain ⟨q, hq, hqv⟩ := List.mem_filterMap.mp (List.mem_reverse.mp hv)
    have hne : v.outpoint ≠ p.outpoint := fun heq =>
      hafter q hq ((outpoint_of_coin? hqv).symm.trans heq) (mem_scripts_of_coin? hqv)
    simpa using hne

end WatchSet

/-- **A scan finds what the blocks behind its hits tell.**  These are the blocks `M`, one for each
height of the range whose course leads to one, in ascending order.  What some input in them consumes
is spent.  What is not spent, and at which some output pays a watched script, is created, on record
as the last such output, with its owner and the height of its block. -/
theorem scanRange_exact (src : Source) {w : WatchSet} (hw : w.isEmpty = false)
    (start stop : Height) :
    ∃ f M, (scanRange src w start stop .never).value = .ok f ∧
      (M.Pairwise fun m n => m.1 < n.1) ∧
      (∀ m, m ∈ M ↔
        (start ≤ m.1 ∧ m.1 ≤ stop) ∧ src.Course w.scripts m.1 (.hit m.2)) ∧
      (∀ o, o ∈ f.spent ↔ ∃ m ∈ M, ∃ t ∈ m.2.transactions, ∃ i ∈ t.inputs, i.prevout = o) ∧
      (∀ (o : OutPoint) (u : Coin), f.created[o]? = some u ↔
        o ∉ f.spent ∧ ∃ p, (stretchOf M).LastPaying w p ∧ u.IsRecord w p ∧ p.outpoint = o) ∧
      (∀ (o : OutPoint) (u : Coin), f.created[o]? = some u → start ≤ u.height ∧ u.height ≤ stop) ∧
      ∀ o : OutPoint, ¬ (o ∈ f.created ∧ o ∈ f.spent) := by
  have hmem (m : Height × Block) : m ∈ src.blocksAt w.scripts (heights start stop) ↔
      (start ≤ m.1 ∧ m.1 ≤ stop) ∧ src.Course w.scripts m.1 (.hit m.2) := by
    rw [Source.mem_blocksAt, mem_heights]
  have hwalked : src.walked w.scripts start stop =
      stretchOf (src.blocksAt w.scripts (heights start stop)) :=
    (src.stretchOf_blocksAt w.scripts (heights start stop)).symm
  have hcreated (o : OutPoint) (u : Coin) : (findings src w start stop).created[o]? = some u ↔
      o ∉ (findings src w start stop).spent ∧
        ∃ p, (stretchOf (src.blocksAt w.scripts (heights start stop))).LastPaying w p ∧
          u.IsRecord w p ∧ p.outpoint = o := by
    rw [getElem?_created_findings, mem_spent_findings, hwalked, ← WatchSet.latest?_eq_some_iff,
      WatchSet.unspent?]
    split <;> simp_all
  refine ⟨findings src w start stop, src.blocksAt w.scripts (heights start stop),
    scanRange_never hw, src.pairwise_blocksAt w.scripts start stop, hmem, fun o => ?_, hcreated,
    fun o u hu => ?_, fun o ⟨hc, hs⟩ => ?_⟩
  · rw [mem_spent_findings, hwalked, consumes_stretchOf]
  · obtain ⟨_, p, ⟨before, after, houtputs, _⟩, hrecord, _⟩ := (hcreated o u).mp hu
    have hp : p ∈ (stretchOf (src.blocksAt w.scripts (heights start stop))).outputs := by
      simp [houtputs]
    obtain ⟨m, hm, hheight⟩ := exists_block_of_mem_outputs hp
    rw [hrecord.height, ← hheight]
    exact ((hmem m).mp hm).1
  · obtain ⟨u, hu⟩ := Option.isSome_iff_exists.mp (Std.ExtTreeMap.mem_iff_isSome_getElem?.mp hc)
    exact ((hcreated o u).mp hu).1 hs

namespace Sample

/-- The coin of the third output of the funding transaction. -/
def thirdCoin : Coin := ⟨⟨fundingId, 2⟩, 300, "first", script 1, 1⟩

theorem created_of_watch :
    (scanRange source watch 0 3 .never).value.map (·.created[thirdCoin.outpoint]?) =
      .ok (some thirdCoin) := by
  decide +kernel

theorem consumes_first_output :
    ∃ t ∈ (chain 3).transactions, ∃ i ∈ t.inputs, i.prevout = ⟨fundingId, 0⟩ := by
  decide +kernel

/-- The first output is spent by the block at height 3, though it is created at height 1.  The third
one is created, and some blocks of the range have it as the last to pay its script. -/
theorem found_in_blocks : watch.isEmpty = false ∧
    ∃ f, (scanRange source watch 0 3 .never).value = .ok f ∧
      (⟨fundingId, 0⟩ : OutPoint) ∈ f.spent ∧ f.created[(⟨fundingId, 0⟩ : OutPoint)]? = none ∧
      ∃ M p, (∀ m ∈ M, source.Course watch.scripts m.1 (.hit m.2)) ∧
        (stretchOf M).LastPaying watch p ∧ thirdCoin.IsRecord watch p := by
  obtain ⟨f, M, hf, _, hmem, hspent, hcreated, _, hdisjoint⟩ :=
    scanRange_exact source (w := watch) rfl 0 3
  have hthird : f.created[thirdCoin.outpoint]? = some thirdCoin := by
    have hcreated := created_of_watch
    rw [hf] at hcreated
    exact Except.ok.inj hcreated
  have hblock : ((3, chain 3) : Height × Block) ∈ M :=
    (hmem _).mpr ⟨by decide, Source.course_iff.mpr (value_probe 3 (by decide))⟩
  have hfirst : (⟨fundingId, 0⟩ : OutPoint) ∈ f.spent :=
    (hspent _).mpr ⟨_, hblock, consumes_first_output⟩
  obtain ⟨_, p, hlast, hrecord, _⟩ := (hcreated _ _).mp hthird
  refine ⟨rfl, f, hf, hfirst, ?_, M, p, fun m hm => ((hmem m).mp hm).2, hlast, hrecord⟩
  exact Std.ExtTreeMap.getElem?_eq_none fun hc => hdisjoint _ ⟨hc, hfirst⟩

end Sample

end CoinWatch
