import CoinWatch.Proofs.Accounts
import CoinWatch.Proofs.BlockBytes

/-! # Witnesses do not show

What inputs show for their right to consume an output has no part in the name of a transaction, in
what it consumes or in what it creates.  So a scan and a lookup take in a block as they take in the
bare block, without its witnesses (`Findings.visit_bare`, `Sighting.visit_bare`).

On the wire a witness shows all the more: it decides on the form of a transaction, and everything
behind it moves.  But a block is read back from its bytes, whatever the form.  Two sources that
serve blocks which differ in their witnesses alone (`Source.SameButWitnesses`) therefore yield the
same at every height up to witnesses (`Source.SameButWitnesses.bare_probe`), and scans and lookups
of the two are the same (`scan_and_lookup_of_witnesses`). -/

namespace CoinWatch

/-! ### Bare transactions and blocks -/

theorem Transaction.plain_bare (t : Transaction) : t.bare.plain = t.plain := by
  simp only [plain, bare, Input.encodeList_map_bare]

@[simp] theorem Transaction.txid_bare (t : Transaction) : t.bare.txid = t.txid := by
  rw [txid, plain_bare, txid]

theorem Findings.addTransaction_bare (w : WatchSet) (h : Height) (f : Findings) (t : Transaction) :
    f.addTransaction w h t.bare = f.addTransaction w h t := by
  have hprevouts : t.bare.inputs.map (·.prevout) = t.inputs.map (·.prevout) := by
    rw [Transaction.bare, List.map_map]
    rfl
  have hcoins : w.coinsOf h t.bare = w.coinsOf h t := by
    simp only [WatchSet.coinsOf, Transaction.txid_bare]
    rfl
  rw [addTransaction, hprevouts, hcoins, addTransaction]

theorem Sighting.addTransaction_bare (target : OutPoint) (h : Height) (s : Sighting)
    (t : Transaction) : s.addTransaction target h t.bare = s.addTransaction target h t := by
  have hfind : t.bare.inputs.findIdx? (·.prevout = target) =
      t.inputs.findIdx? (·.prevout = target) := by
    rw [Transaction.bare, List.findIdx?_map]
    rfl
  cases s with
  | unseen => rw [addTransaction, Transaction.txid_bare]; rfl
  | created output k => rw [addTransaction, hfind, Transaction.txid_bare]; rfl
  | spent txid input k => rfl

namespace Probe

/-- What a height yields, without witnesses. -/
def bare : Probe → Probe
  | hit b => .hit b.bare
  | p => p

end Probe

theorem Findings.visit_bare (w : WatchSet) (h : Height) (p : Probe) (f : Findings) :
    f.visit w h p.bare = f.visit w h p := by
  cases p with
  | miss | skipped => rfl
  | hit b =>
    simp only [Probe.bare, visit, addBlock, Block.bare, List.foldl_map, addTransaction_bare]

theorem Sighting.visit_bare (target : OutPoint) (h : Height) (p : Probe) (s : Sighting) :
    s.visit target h p.bare = s.visit target h p := by
  cases p with
  | miss | skipped => rfl
  | hit b => simp only [Probe.bare, visit, Block.bare, List.foldl_map, addTransaction_bare]

/-! ### Sources that differ in witnesses -/

/-- Two answers to the request for a block: one and the same, or the bytes of two blocks that differ
in their witnesses alone.  A transaction is written in the plain form if it shows no witness, and
else in the marked form. -/
inductive SameBareBlock : Except String Bytes → Except String Bytes → Prop
  | same (answer : Except String Bytes) : SameBareBlock answer answer
  | written {b b' : Block} (hfits : b.Fits) (hfits' : b'.Fits) (hbare : b'.bare = b.bare) :
      SameBareBlock (.ok b.encode) (.ok b'.encode)

namespace Source

/-- Two sources serve the same hashes and filters, and blocks that differ in their witnesses
alone. -/
structure SameButWitnesses (src src' : Source) : Prop where
  hashAt : ∀ h, src'.hashAt h = src.hashAt h
  filterOf : ∀ x, src'.filterOf x = src.filterOf x
  blockOf : ∀ x, SameBareBlock (src.blockOf x) (src'.blockOf x)

theorem value_fetch_of_encode {src : Source} {x : BlockHash} {b : Block} (hfits : b.Fits)
    (h : src.blockOf x = .ok b.encode) : (src.fetch x).value = .hit b := by
  simp only [fetch, askBlock, Traced.bind_value, h, Block.decode?_encode hfits, Traced.pure_value]

theorem value_fetch_congr {src src' : Source} {x : BlockHash}
    (h : src'.blockOf x = src.blockOf x) : (src'.fetch x).value = (src.fetch x).value := by
  simp only [fetch, askBlock, Traced.bind_value, h]

namespace SameButWitnesses

variable {src src' : Source}

theorem bare_fetch (h : src.SameButWitnesses src') (x : BlockHash) :
    (src'.fetch x).value.bare = (src.fetch x).value.bare := by
  generalize hb : src.blockOf x = answer
  generalize hb' : src'.blockOf x = answer'
  have hsame := h.blockOf x
  rw [hb, hb'] at hsame
  cases hsame with
  | same => rw [value_fetch_congr (hb'.trans hb.symm)]
  | written hfits hfits' hbare =>
    rw [value_fetch_of_encode hfits hb, value_fetch_of_encode hfits' hb', Probe.bare, hbare,
      Probe.bare]

theorem verdict_eq (h : src.SameButWitnesses src') (scripts : List Script) (x : BlockHash) :
    src'.verdict scripts x = src.verdict scripts x := by
  rw [verdict, h.filterOf x, verdict]

/-- The two sources yield the same at every height, up to witnesses. -/
theorem bare_probe (h : src.SameButWitnesses src') (scripts : List Script) (k : Height) :
    (src'.probe scripts k).value.bare = (src.probe scripts k).value.bare := by
  cases hhash : src.hashAt k with
  | error text =>
    have hhash' : src'.hashAt k = .error text := (h.hashAt k).trans hhash
    rw [(Course.noBlockHash hhash).value_probe, (Course.noBlockHash hhash').value_probe]
  | ok x =>
    have hhash' : src'.hashAt k = .ok x := (h.hashAt k).trans hhash
    rw [value_probe_of_hash hhash, value_probe_of_hash hhash', h.verdict_eq]
    cases src.verdict scripts x with
    | miss | absent | unreadable => rfl
    | hit => exact h.bare_fetch x

theorem calls_probe (h : src.SameButWitnesses src') (scripts : List Script) (k : Height) :
    (src'.probe scripts k).calls = (src.probe scripts k).calls := by
  rw [calls_probe_eq_asked, calls_probe_eq_asked, asked, h.hashAt]
  simp only [h.verdict_eq]
  rw [asked]

theorem sweepRange_eq (h : src.SameButWitnesses src') {σ : Type}
    {visit : Height → Probe → σ → σ} (hvisit : ∀ k p s, visit k p.bare s = visit k p s)
    (enough : σ → Bool) (scripts : List Script) (start stop : Height) (token : Token) (s : σ) :
    sweepRange src' scripts visit enough start stop token s =
      sweepRange src scripts visit enough start stop token s := by
  refine sweep_congr (h.calls_probe scripts) (fun k s => ?_) (rangeSize start stop) start token s
  rw [← hvisit, h.bare_probe, hvisit]

end SameButWitnesses

end Source

/-- **Witnesses do not show.**  Let two sources serve the same hashes and filters, and blocks that
differ in their witnesses alone.  Then scans of the two find the same, lookups report the same, and
both make the same calls.  No block is lost on the way to this: each is read back from its bytes,
and what its transactions are named by is what they are named by without witnesses. -/
theorem scan_and_lookup_of_witnesses {src src' : Source} (h : src.SameButWitnesses src') :
    (∀ w start stop token,
      scanRange src' w start stop token = scanRange src w start stop token) ∧
    (∀ target script start stop token,
      lookup src' target script start stop token = lookup src target script start stop token) ∧
    ∀ b : Block, b.Fits → Block.decode? b.encode = some b ∧
      b.bare.transactions.map (·.plain) = b.transactions.map (·.plain) := by
  refine ⟨fun w start stop token => ?_, fun target script start stop token => ?_,
    fun b hfits => ⟨Block.decode?_encode hfits, ?_⟩⟩
  · simp only [scanRange, scanRangeIn, h.sweepRange_eq (Findings.visit_bare w)]
  · simp only [lookup, h.sweepRange_eq (Sighting.visit_bare target)]
  · rw [Block.bare, List.map_map]
    exact List.map_congr_left fun t _ => t.plain_bare

namespace Sample

/-- The last of the spending transactions, with a stack of two items. -/
def signed : Transaction :=
  { spending 0 with inputs := [{ consume ⟨fundingId, 0⟩ with witness := [[1, 2], []] }] }

/-- The source with the stack in the block at height 3. -/
def signedSource : Source :=
  { source with
    blockOf := fun x => if x = ⟨3⟩ then .ok (block [signed]).encode else source.blockOf x }

theorem sameButWitnesses : source.SameButWitnesses signedSource := by
  refine ⟨fun h => rfl, fun x => rfl, fun x => ?_⟩
  by_cases hx : x = ⟨3⟩
  · have hplain : source.blockOf ⟨3⟩ = .ok (block [spending 0]).encode := by decide +kernel
    have hsigned : signedSource.blockOf ⟨3⟩ = .ok (block [signed]).encode := rfl
    rw [hx, hplain, hsigned]
    exact .written (by decide) (by decide) (by decide)
  · have hother : signedSource.blockOf x = source.blockOf x := if_neg hx
    rw [hother]
    exact .same _

/-- The spend is found with the stack and without, though the bytes are others. -/
theorem found_under_witness :
    signedSource.blockOf ⟨3⟩ ≠ source.blockOf ⟨3⟩ ∧
      scanRange signedSource watch 0 3 .never = scanRange source watch 0 3 .never ∧
      (lookup signedSource ⟨fundingId, 0⟩ (script 1) 1 3 .never).value =
        .ok (.spent (spending 0).txid 0 3) := by
  obtain ⟨hscan, hlookup, _⟩ := scan_and_lookup_of_witnesses sameButWitnesses
  refine ⟨by decide +kernel, hscan watch 0 3 .never, ?_⟩
  rw [hlookup]
  decide +kernel

end Sample

end CoinWatch
