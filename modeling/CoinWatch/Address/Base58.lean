import CoinWatch.Bytes.Radix
import CoinWatch.Digest.Sha256

/-! # Base58 with a checksum

Bytes as digits of radix 58, in an alphabet without the characters that are mistaken for one
another, and behind the payload the first four bytes of its double SHA-256. -/

namespace CoinWatch.Base58

/-- The fifty-eight digits. -/
def alphabet : List Char := "123456789ABCDEFGHJKLMNPQRSTUVWXYZabcdefghijkmnopqrstuvwxyz".toList

/-- The digit of a value. -/
def digit (n : Nat) : Char := alphabet.getD n '1'

/-- The value of a digit. -/
def value? (c : Char) : Option Nat := alphabet.idxOf? c

/-- The digits of a byte string. -/
def encode (bs : Bytes) : List Char :=
  (Radix.convert 256 58 (bs.map UInt8.toNat)).map digit

/-- The byte string that digits stand for. -/
def decode? (cs : List Char) : Option Bytes := do
  let ds ← cs.mapM value?
  pure ((Radix.convert 58 256 ds).map UInt8.ofNat)

/-- The four bytes that guard a payload. -/
def checksum (payload : Bytes) : Bytes := (Sha256.hashTwice payload).take 4

/-- The digits of a payload and its checksum. -/
def encodeChecked (payload : Bytes) : List Char := encode (payload ++ checksum payload)

/-- The payload of digits whose last four bytes are its checksum. -/
def decodeChecked? (cs : List Char) : Option Bytes := do
  let bs ← decode? cs
  if 4 ≤ bs.length then
    let payload := bs.take (bs.length - 4)
    if bs.drop (bs.length - 4) = checksum payload then pure payload else none
  else none

end CoinWatch.Base58
