import CoinWatch.Address.Bech32
import CoinWatch.Bytes.Bits

/-! # Witness programs as text

A witness program is a version up to sixteen and two to forty bytes.  Its text is the version as
one symbol and the bits of the program in groups of five, the last one filled up with zeros.
Version 0 has the older checksum and only two lengths; all others have the newer checksum. -/

namespace CoinWatch.Segwit

/-- A witness program. -/
structure Program where
  version : Nat
  bytes : Bytes
deriving DecidableEq, Repr

namespace Program

/-- The lengths that a version allows. -/
def lengthOk (p : Program) : Bool :=
  2 ≤ p.bytes.length && p.bytes.length ≤ 40
    && (p.version != 0 || p.bytes.length == 20 || p.bytes.length == 32)

/-- The checksum that goes with a version. -/
def variant (version : Nat) : Bech32.Variant := if version = 0 then .bech32 else .bech32m

end Program

/-- The symbol that a group of at most five bits stands for, filled up with zeros. -/
def symbolOf (bits : List Bool) : Bech32.Symbol :=
  BitVec.ofNat 5 (Bits.toNat (bits ++ List.replicate (5 - bits.length) false))

/-- Bits in groups of five. -/
def toSymbols : List Bool → List Bech32.Symbol
  | b₀ :: b₁ :: b₂ :: b₃ :: b₄ :: rest => symbolOf [b₀, b₁, b₂, b₃, b₄] :: toSymbols rest
  | [] => []
  | rest => [symbolOf rest]

/-- The bits of a list of symbols. -/
def toBits (symbols : List Bech32.Symbol) : List Bool :=
  symbols.flatMap fun s => Bits.ofNat 5 s.toNat

/-- The bytes of a list of symbols, if what is left over is fewer than five bits, all zero. -/
def toBytes? (symbols : List Bech32.Symbol) : Option Bytes :=
  let (bs, left) := Bits.toBytes (toBits symbols)
  if left.length ≤ 4 && left.all (! ·) then some bs else none

/-- The lower-case text of a witness program. -/
def encode (hrp : List Char) (p : Program) : List Char :=
  Bech32.encode (Program.variant p.version) hrp
    (BitVec.ofNat 5 p.version :: toSymbols (Bits.ofBytes p.bytes))

/-- The lower-case human-readable part and the witness program of a text. -/
def decode? (cs : List Char) : Option (List Char × Program) := do
  if 90 < cs.length then none
  else
    let (hrp, symbols) ← Bech32.symbols? cs
    match symbols with
    | [] => none
    | version :: rest =>
      let p := Program.variant version.toNat
      if version.toNat ≤ 16 && 6 ≤ rest.length && Bech32.verify p hrp symbols then
        let bytes ← toBytes? (rest.take (rest.length - 6))
        let program : Program := ⟨version.toNat, bytes⟩
        if program.lengthOk then pure (hrp, program) else none
      else none

end CoinWatch.Segwit
