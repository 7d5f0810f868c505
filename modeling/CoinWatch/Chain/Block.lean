import CoinWatch.Chain.Transaction

/-! # Blocks

A block is a header of eighty bytes and a list of transactions behind its count.  The header is
carried along unread: neither its proof of work nor its commitment to the transactions is looked
at, so a block is whatever its bytes say. -/

namespace CoinWatch

/-- The position of a block in the chain. -/
abbrev Height := Nat

/-- A block. -/
structure Block where
  header : Bytes
  transactions : List Transaction
deriving DecidableEq, Repr

namespace Block

/-- A block on the wire. -/
def encode (b : Block) : Bytes :=
  b.header ++ CompactSize.encodeList Transaction.encode b.transactions

/-- A block on the wire. -/
def read : Reader Block := do
  let header ← Reader.bytes 80
  let transactions ← CompactSize.readList Transaction.read
  pure ⟨header, transactions⟩

/-- The block that a byte string spells, with nothing left over. -/
def decode? (bs : Bytes) : Option Block := Reader.whole read bs

end Block

end CoinWatch
