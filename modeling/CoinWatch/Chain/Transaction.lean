import CoinWatch.Chain.OutPoint
import CoinWatch.Wire.CompactSize

/-! # Transactions

A transaction consumes outputs of earlier ones through its inputs and creates outputs of its
own.  On the wire it has two forms: the plain one, and one with a marker (an input count of
zero) and a flag, in which a stack of witness items follows for every input.  The marked form
is used when some stack holds an item, and for a transaction without inputs, which the plain
form cannot express (`encode`).

A transaction is named by the plain form (`txid`), so witnesses have no part in its name. -/

namespace CoinWatch

/-- An output script. -/
abbrev Script := Bytes

/-- An input: the outpoint it consumes, and what it shows to be allowed to. -/
structure Input where
  prevout : OutPoint
  script : Script
  sequence : UInt32
  witness : List Bytes
deriving DecidableEq, Repr

/-- An output: an amount in satoshi, and the script that has to be met to consume it. -/
structure Output where
  value : UInt64
  script : Script
deriving DecidableEq, Repr

/-- A transaction. -/
structure Transaction where
  version : UInt32
  inputs : List Input
  outputs : List Output
  lockTime : UInt32
deriving DecidableEq, Repr

namespace Input

/-- An input without its witness. -/
def encode (i : Input) : Bytes :=
  i.prevout.txid.bytes ++ LittleEndian.encode 4 i.prevout.vout.toNat
    ++ CompactSize.encodeBytes i.script ++ LittleEndian.encode 4 i.sequence.toNat

/-- An input without its witness. -/
def read : Reader Input := do
  let txid ← Hash256.ofBytes <$> Reader.bytes 32
  let vout ← Reader.word32
  let script ← CompactSize.readBytes
  let sequence ← Reader.word32
  pure ⟨⟨txid, vout⟩, script, sequence, []⟩

/-- The stack of witness items of an input. -/
def encodeWitness (i : Input) : Bytes :=
  CompactSize.encodeList CompactSize.encodeBytes i.witness

/-- The input with the stack of witness items that follows. -/
def readWitness (i : Input) : Reader Input := do
  let witness ← CompactSize.readList CompactSize.readBytes
  pure { i with witness }

end Input

namespace Output

/-- An output on the wire. -/
def encode (o : Output) : Bytes :=
  LittleEndian.encode 8 o.value.toNat ++ CompactSize.encodeBytes o.script

/-- An output on the wire. -/
def read : Reader Output := do
  let value ← Reader.word64
  let script ← CompactSize.readBytes
  pure ⟨value, script⟩

end Output

namespace Transaction

/-- The plain form, without witnesses. -/
def plain (t : Transaction) : Bytes :=
  LittleEndian.encode 4 t.version.toNat
    ++ CompactSize.encodeList Input.encode t.inputs
    ++ CompactSize.encodeList Output.encode t.outputs
    ++ LittleEndian.encode 4 t.lockTime.toNat

/-- The name of a transaction. -/
def txid (t : Transaction) : Txid := Hash256.digest t.plain

/-- Some input shows a witness. -/
def hasWitness (t : Transaction) : Bool := t.inputs.any fun i => !i.witness.isEmpty

/-- The marked form, with a stack of witness items for every input. -/
def marked (t : Transaction) : Bytes :=
  LittleEndian.encode 4 t.version.toNat ++ [0, 1]
    ++ CompactSize.encodeList Input.encode t.inputs
    ++ CompactSize.encodeList Output.encode t.outputs
    ++ t.inputs.flatMap Input.encodeWitness
    ++ LittleEndian.encode 4 t.lockTime.toNat

/-- A transaction on the wire. -/
def encode (t : Transaction) : Bytes :=
  if t.hasWitness || t.inputs.isEmpty then t.marked else t.plain

/-- What follows the marker: the flag, inputs, outputs, and a stack for every input.  With
inputs, one of the stacks has to hold an item. -/
def readMarked (version : UInt32) : Reader Transaction := do
  let flag ← Reader.number 1
  if flag = 1 then
    let inputs ← CompactSize.readList Input.read
    let outputs ← CompactSize.readList Output.read
    let inputs ← inputs.mapM Input.readWitness
    let lockTime ← Reader.word32
    let t : Transaction := ⟨version, inputs, outputs, lockTime⟩
    if t.hasWitness || t.inputs.isEmpty then pure t else failure
  else failure

/-- A transaction on the wire, in either form. -/
def read : Reader Transaction := do
  let version ← Reader.word32
  let inputs ← CompactSize.readList Input.read
  if inputs.isEmpty then readMarked version
  else
    let outputs ← CompactSize.readList Output.read
    let lockTime ← Reader.word32
    pure ⟨version, inputs, outputs, lockTime⟩

end Transaction

end CoinWatch
