import CoinWatch.Bytes.Bits
import CoinWatch.Bytes.Split

/-! # Golomb–Rice codes

A number is written as a quotient in unary (that many ones and a zero) and a remainder of `p`
bits.  Every reader hands on the bits it has not used, and fails where the bits end early.  Numbers
have 64 bits, so of a larger one the upper bits are lost. -/

namespace CoinWatch.Golomb

/-- The number of ones before the first zero. -/
def readUnary : List Bool → Option (Nat × List Bool)
  | [] => none
  | false :: rest => some (0, rest)
  | true :: rest => (readUnary rest).map fun (n, rest) => (n + 1, rest)

/-- A number with a remainder of `p` bits. -/
def read (p : Nat) (bits : List Bool) : Option (Nat × List Bool) := do
  let (quotient, bits) ← readUnary bits
  let (remainder, bits) ← split? p bits
  pure (((quotient <<< p) + Bits.toNat remainder) % UInt64.size, bits)

end CoinWatch.Golomb
