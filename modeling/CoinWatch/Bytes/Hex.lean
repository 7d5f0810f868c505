import CoinWatch.Bytes.LittleEndian

/-! # Hexadecimal text

Two digits a byte, high half first.  `encode` writes lower-case digits; `decode?` takes either
case and refuses an odd count or any other character. -/

namespace CoinWatch.Hex

/-- The lower-case digit of a value below sixteen. -/
def digit (n : Nat) : Char := Char.ofNat (if n < 10 then 48 + n else 87 + n)

/-- The value of a digit, of either case. -/
def value? (c : Char) : Option Nat :=
  if 48 ≤ c.toNat ∧ c.toNat ≤ 57 then some (c.toNat - 48)
  else if 97 ≤ c.toNat ∧ c.toNat ≤ 102 then some (c.toNat - 87)
  else if 65 ≤ c.toNat ∧ c.toNat ≤ 70 then some (c.toNat - 55)
  else none

/-- The digits of a byte string. -/
def encode : Bytes → List Char
  | [] => []
  | b :: bs => digit (b.toNat / 16) :: digit (b.toNat % 16) :: encode bs

/-- The byte string that a text of digit pairs stands for. -/
def decode? : List Char → Option Bytes
  | [] => some []
  | hi :: lo :: rest => do
    let h ← value? hi
    let l ← value? lo
    let bs ← decode? rest
    pure (UInt8.ofNat (16 * h + l) :: bs)
  | [_] => none

/-- The digits as a string. -/
def text (bs : Bytes) : String := String.ofList (encode bs)

end CoinWatch.Hex
