import CoinWatch.Bytes.LittleEndian

/-! # Bits

Lists of bits, most significant first.  Compact filters are read bit by bit, and witness
addresses cut the bits of a program into groups of five. -/

namespace CoinWatch.Bits

/-- The low `w` bits of a number. -/
def ofNat : (w : Nat) → Nat → List Bool
  | 0, _ => []
  | w + 1, n => n.testBit w :: ofNat w n

/-- The number that a list of bits stands for. -/
def toNat (bits : List Bool) : Nat := bits.foldl (fun n b => 2 * n + b.toNat) 0

/-- The bits of a byte string. -/
def ofBytes (bs : Bytes) : List Bool := bs.flatMap fun b => ofNat 8 b.toNat

/-- The whole bytes of a list of bits, and the bits left over. -/
def toBytes : List Bool → Bytes × List Bool
  | b₀ :: b₁ :: b₂ :: b₃ :: b₄ :: b₅ :: b₆ :: b₇ :: rest =>
    let (bs, left) := toBytes rest
    (UInt8.ofNat (toNat [b₀, b₁, b₂, b₃, b₄, b₅, b₆, b₇]) :: bs, left)
  | left => ([], left)

@[simp] theorem length_ofNat (w n : Nat) : (ofNat w n).length = w := by
  induction w with
  | zero => rfl
  | succ w ih => simp [ofNat, ih]

end CoinWatch.Bits
