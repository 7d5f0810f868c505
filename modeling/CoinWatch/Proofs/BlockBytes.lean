import CoinWatch.Chain.Block

/-! # Blocks and their bytes

A block is read back from its bytes (`Block.decode?_encode`), provided that its header has eighty
bytes and all that it counts or measures is counted by a 64-bit number (`Block.Fits`).

The two forms of a transaction are read in different ways.  The inputs always come first without
their witnesses (`Input.bare`).  In the plain form that is all there is of them, and it is used when
the inputs have nothing more (`Transaction.run_read_plain`).  In the marked form the stacks come
behind the outputs, one for every input, and are put to the inputs that were read before
(`Input.run_mapM_readWitness`, `Transaction.run_readMarked`). -/

namespace CoinWatch

namespace Input

/-- The input without its witness. -/
def bare (i : Input) : Input := { i with witness := [] }

/-- All that is measured or counted in an input is so by a 64-bit number. -/
def Fits (i : Input) : Prop :=
  i.script.length < UInt64.size ∧ i.witness.length < UInt64.size ∧
    ∀ item ∈ i.witness, item.length < UInt64.size

instance (i : Input) : Decidable i.Fits :=
  inferInstanceAs (Decidable (_ ∧ _ ∧ ∀ item ∈ i.witness, item.length < UInt64.size))

theorem encode_bare (i : Input) : i.bare.encode = i.encode := rfl

theorem encodeList_map_bare (is : List Input) :
    CompactSize.encodeList encode (is.map bare) = CompactSize.encodeList encode is := by
  simp [CompactSize.encodeList, List.flatMap_map, encode_bare]

theorem run_read {i : Input} (h : i.Fits) (rest : Bytes) :
    read.run (i.encode ++ rest) = some (i.bare, rest) := by
  simp [read, encode, bare, Reader.run_bytes i.prevout.txid.length_bytes,
    CompactSize.run_readBytes h.1]

theorem run_readList_read {is : List Input} (hcount : is.length < UInt64.size)
    (h : ∀ i ∈ is, i.Fits) (rest : Bytes) :
    (CompactSize.readList read).run (CompactSize.encodeList encode is ++ rest) =
      some (is.map bare, rest) := by
  rw [← encodeList_map_bare]
  refine CompactSize.run_readList (by rwa [List.length_map]) (fun j hj rest => ?_) rest
  obtain ⟨i, hi, rfl⟩ := List.mem_map.mp hj
  exact run_read (h i hi) rest

theorem run_readWitness {i : Input} (h : i.Fits) (rest : Bytes) :
    (readWitness i.bare).run (i.encodeWitness ++ rest) = some (i, rest) := by
  obtain ⟨_, hcount, hitems⟩ := h
  have hstack := CompactSize.run_readList hcount
    (fun item hitem => CompactSize.run_readBytes (hitems item hitem)) rest
  simp [readWitness, encodeWitness, hstack, bare]

/-- The stacks that follow one another are put to their inputs. -/
theorem run_mapM_readWitness {is : List Input} (h : ∀ i ∈ is, i.Fits) (rest : Bytes) :
    ((is.map bare).mapM readWitness).run (is.flatMap encodeWitness ++ rest) = some (is, rest) := by
  induction is with
  | nil => rfl
  | cons i is ih =>
    have hfirst := run_readWitness (h i List.mem_cons_self) (is.flatMap encodeWitness ++ rest)
    have hrest := ih fun j hj => h j (List.mem_cons_of_mem i hj)
    simp only [List.map_cons, List.mapM_cons, List.flatMap_cons, List.append_assoc,
      StateT.run_bind, hfirst, Option.bind_eq_bind, Option.bind_some, hrest]
    rfl

end Input

namespace Output

/-- The length of the script is a 64-bit number. -/
def Fits (o : Output) : Prop := o.script.length < UInt64.size

instance (o : Output) : Decidable o.Fits :=
  inferInstanceAs (Decidable (o.script.length < UInt64.size))

theorem run_read {o : Output} (h : o.Fits) (rest : Bytes) :
    read.run (o.encode ++ rest) = some (o, rest) := by
  simp [read, encode, CompactSize.run_readBytes h]

end Output

namespace Transaction

variable {t : Transaction}

/-- The transaction without its witnesses. -/
def bare (t : Transaction) : Transaction := { t with inputs := t.inputs.map Input.bare }

/-- All that is measured or counted in a transaction is so by a 64-bit number. -/
def Fits (t : Transaction) : Prop :=
  t.inputs.length < UInt64.size ∧ t.outputs.length < UInt64.size ∧
    (∀ i ∈ t.inputs, i.Fits) ∧ ∀ o ∈ t.outputs, o.Fits

instance (t : Transaction) : Decidable t.Fits :=
  inferInstanceAs (Decidable (_ ∧ _ ∧ (∀ i ∈ t.inputs, i.Fits) ∧ ∀ o ∈ t.outputs, o.Fits))

theorem bare_of_not_hasWitness (h : t.hasWitness = false) : t.bare = t := by
  have hbare : ∀ i ∈ t.inputs, i.bare = i := by
    intro i hi
    have hempty : i.witness = [] := by simpa [hasWitness] using List.any_eq_false.mp h i hi
    rw [Input.bare, ← hempty]
  rw [bare, List.map_congr_left hbare, List.map_id']

/-- The plain form is read back if there are inputs and none of them shows a witness. -/
theorem run_read_plain (h : t.Fits) (hw : t.hasWitness = false) (hne : t.inputs ≠ [])
    (rest : Bytes) : read.run (t.plain ++ rest) = some (t, rest) := by
  obtain ⟨hins, houts, hi, ho⟩ := h
  have hinputs := Input.run_readList_read hins hi
  have houtputs := CompactSize.run_readList houts fun o hmem => Output.run_read (ho o hmem)
  have hbare := bare_of_not_hasWitness hw
  unfold bare at hbare
  simpa [read, plain, hinputs, houtputs, hne] using hbare

/-- What follows the marker is read back if some input shows a witness or there are no inputs. -/
theorem run_readMarked (h : t.Fits) (hw : t.hasWitness || t.inputs.isEmpty) (rest : Bytes) :
    (readMarked t.version).run (1 :: (CompactSize.encodeList Input.encode t.inputs
      ++ (CompactSize.encodeList Output.encode t.outputs
      ++ (t.inputs.flatMap Input.encodeWitness
      ++ (LittleEndian.encode 4 t.lockTime.toNat ++ rest))))) = some (t, rest) := by
  obtain ⟨hins, houts, hi, ho⟩ := h
  have hinputs := Input.run_readList_read hins hi
  have houtputs := CompactSize.run_readList houts fun o hmem => Output.run_read (ho o hmem)
  have hstacks := Input.run_mapM_readWitness hi
  have hpure : (if t.hasWitness || t.inputs.isEmpty then pure t
      else failure : Reader Transaction).run rest = some (t, rest) := by
    rw [if_pos hw]
    rfl
  simpa [readMarked, CompactSize.run_marker, hinputs, houtputs, hstacks, -List.mapM_map] using hpure

theorem run_read (h : t.Fits) (rest : Bytes) : read.run (t.encode ++ rest) = some (t, rest) := by
  unfold encode
  split
  · next hw =>
    -- The marker is read as an empty list of inputs.
    have hmarker (tail : Bytes) :
        (CompactSize.readList Input.read).run (0 :: tail) = some ([], tail) :=
      @CompactSize.run_readList Input Input.read Input.encode [] (by decide) (by simp) tail
    have hmarked := run_readMarked h hw rest
    simpa [read, marked, hmarker] using hmarked
  · next hw =>
    rw [Bool.not_eq_true, Bool.or_eq_false_iff, List.isEmpty_eq_false_iff] at hw
    exact run_read_plain h hw.1 hw.2 rest

end Transaction

namespace Block

variable {b : Block}

/-- The block without the witnesses of its transactions. -/
def bare (b : Block) : Block := { b with transactions := b.transactions.map Transaction.bare }

/-- The header has its length, and all that is measured or counted in the block is so by a 64-bit
number. -/
def Fits (b : Block) : Prop :=
  b.header.length = 80 ∧ b.transactions.length < UInt64.size ∧ ∀ t ∈ b.transactions, t.Fits

instance (b : Block) : Decidable b.Fits :=
  inferInstanceAs (Decidable (_ ∧ _ ∧ ∀ t ∈ b.transactions, t.Fits))

/-- A block is read back from its bytes. -/
theorem decode?_encode (h : b.Fits) : decode? b.encode = some b := by
  obtain ⟨hheader, hcount, ht⟩ := h
  have htransactions :=
    CompactSize.run_readList hcount (fun t hmem => Transaction.run_read (ht t hmem)) []
  rw [List.append_nil] at htransactions
  have hread : read.run b.encode = some (b, []) := by
    simp [read, encode, Reader.run_bytes hheader, htransactions]
  rw [decode?, Reader.whole, hread]

end Block

end CoinWatch
