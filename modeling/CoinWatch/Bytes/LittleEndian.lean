/-! # Little-endian numbers

Byte strings are lists (`Bytes`).  `encode w n` writes the low `w` bytes of `n`, least
significant first, and `decode` reads any byte string back as a number.  A number that `w` bytes
can hold (`capacity`) is read back from its bytes (`decode_encode`). -/

namespace CoinWatch

/-- A string of bytes, first byte first. -/
abbrev Bytes := List UInt8

namespace LittleEndian

/-- The number a byte string stands for, least significant byte first. -/
def decode : Bytes → Nat
  | [] => 0
  | b :: bs => b.toNat + 256 * decode bs

/-- The low `w` bytes of a number, least significant first. -/
def encode : (w : Nat) → Nat → Bytes
  | 0, _ => []
  | w + 1, n => UInt8.ofNat n :: encode w (n / 256)

/-- How many numbers `w` bytes can hold. -/
def capacity : (w : Nat) → Nat
  | 0 => 1
  | w + 1 => 256 * capacity w

@[simp] theorem length_encode (w n : Nat) : (encode w n).length = w := by
  induction w generalizing n with
  | zero => rfl
  | succ w ih => simp [encode, ih]

theorem decode_encode {w n : Nat} (h : n < capacity w) : decode (encode w n) = n := by
  induction w generalizing n with
  | zero =>
    simp only [capacity] at h
    simp only [encode, decode]
    omega
  | succ w ih =>
    simp only [capacity] at h
    simp only [encode, decode, UInt8.toNat_ofNat']
    rw [ih (by omega)]
    omega

end LittleEndian

end CoinWatch
