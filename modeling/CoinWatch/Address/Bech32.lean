/-! # Bech32 text

A human-readable part, the separator `1`, and symbols of five bits each, of which the last six
are a checksum.  The checksum is the remainder of the symbols as a polynomial (`residue`), and
what the remainder has to be tells the two variants of the format apart (`Variant`).

Texts are written in lower case; they are read in either case, but not in a mixture of both. -/

namespace CoinWatch.Bech32

/-- Five bits. -/
abbrev Symbol := BitVec 5

/-- The two variants of the checksum. -/
inductive Variant where
  | bech32
  | bech32m
deriving DecidableEq, Repr

/-- The remainder that a variant asks for. -/
def Variant.target : Variant → BitVec 30
  | bech32 => 1
  | bech32m => 0x2bc830a3

/-- The characters of the thirty-two symbols. -/
def alphabet : List Char := "qpzry9x8gf2tvdw0s3jn54khce6mua7l".toList

/-- The character of a symbol. -/
def char (s : Symbol) : Char := alphabet.getD s.toNat 'q'

/-- The symbol of a character, of either case. -/
def symbol? (c : Char) : Option Symbol := (alphabet.idxOf? c.toLower).map (BitVec.ofNat 5)

/-- What each of the five bits that leave the remainder puts back into it. -/
def feedback (top : BitVec 30) : BitVec 30 :=
  (if top.getLsbD 25 then 0x3b6a57b2 else 0)
    ^^^ (if top.getLsbD 26 then 0x26508e6d else 0)
    ^^^ (if top.getLsbD 27 then 0x1ea119fa else 0)
    ^^^ (if top.getLsbD 28 then 0x3d4233dd else 0)
    ^^^ (if top.getLsbD 29 then 0x2a1462b3 else 0)

/-- The remainder after one more symbol. -/
def step (r : BitVec 30) (s : Symbol) : BitVec 30 :=
  (r <<< 5) ^^^ s.setWidth 30 ^^^ feedback r

/-- The remainder of a list of symbols. -/
def residue (symbols : List Symbol) : BitVec 30 := symbols.foldl step 1

/-- A human-readable part as symbols: the high bits of its characters, a zero, the low bits. -/
def expand (hrp : List Char) : List Symbol :=
  hrp.map (fun c => BitVec.ofNat 5 (c.toNat / 32)) ++ 0 :: hrp.map (fun c => BitVec.ofNat 5 c.toNat)

/-- The six symbols that bring the remainder to the variant's target. -/
def checksum (v : Variant) (hrp : List Char) (data : List Symbol) : List Symbol :=
  let r := residue (expand hrp ++ data ++ List.replicate 6 0) ^^^ v.target
  [r.extractLsb' 25 5, r.extractLsb' 20 5, r.extractLsb' 15 5,
   r.extractLsb' 10 5, r.extractLsb' 5 5, r.extractLsb' 0 5]

/-- The text of a human-readable part and data. -/
def encode (v : Variant) (hrp : List Char) (data : List Symbol) : List Char :=
  hrp ++ '1' :: (data ++ checksum v hrp data).map char

/-- A text cut at its last separator. -/
def split? (cs : List Char) : Option (List Char × List Char) :=
  match cs.reverse.dropWhile (· != '1') with
  | [] => none
  | _ :: front => some (front.reverse, (cs.reverse.takeWhile (· != '1')).reverse)

/-- Letters of both cases occur. -/
def mixedCase (cs : List Char) : Bool := cs.any Char.isUpper && cs.any Char.isLower

/-- A human-readable part is one to eighty-three characters, visible and of ASCII. -/
def validHrp (hrp : List Char) : Bool :=
  1 ≤ hrp.length && hrp.length ≤ 83 && hrp.all fun c => 33 ≤ c.toNat && c.toNat ≤ 126

/-- The lower-case human-readable part of a text and all its symbols, checksum included. -/
def symbols? (cs : List Char) : Option (List Char × List Symbol) := do
  let (hrp, tail) ← split? cs
  if mixedCase cs || !validHrp hrp then none
  else
    let symbols ← tail.mapM symbol?
    pure (hrp.map Char.toLower, symbols)

/-- The checksum of a variant is right. -/
def verify (v : Variant) (hrp : List Char) (symbols : List Symbol) : Bool :=
  residue (expand hrp ++ symbols) == v.target

end CoinWatch.Bech32
