import CoinWatch.Bytes.LittleEndian

/-! # SipHash-2-4

A keyed hash of a byte string to a 64-bit number: two mixing rounds for every eight bytes, a
last word that carries the length, and four rounds to finish. -/

namespace CoinWatch.SipHash

/-- The four state words. -/
structure State where
  v₀ : UInt64
  v₁ : UInt64
  v₂ : UInt64
  v₃ : UInt64
deriving DecidableEq, Repr

/-- Rotation to the left. -/
def rotl (x k : UInt64) : UInt64 := (x <<< k) ||| (x >>> (64 - k))

/-- One mixing round. -/
def mix (s : State) : State :=
  let a := s.v₀ + s.v₁
  let b := rotl s.v₁ 13 ^^^ a
  let c := s.v₂ + s.v₃
  let d := rotl s.v₃ 16 ^^^ c
  let a' := rotl a 32 + d
  let d' := rotl d 21 ^^^ a'
  let c' := c + b
  let b' := rotl b 17 ^^^ c'
  ⟨a', b', rotl c' 32, d'⟩

/-- Takes in one message word. -/
def absorb (s : State) (m : UInt64) : State :=
  let t := mix (mix { s with v₃ := s.v₃ ^^^ m })
  { t with v₀ := t.v₀ ^^^ m }

/-- The message words: eight bytes each, and a last one of the rest with the length modulo 256
in its top byte. -/
def messageWords (length : Nat) : Bytes → List UInt64
  | b₀ :: b₁ :: b₂ :: b₃ :: b₄ :: b₅ :: b₆ :: b₇ :: rest =>
    UInt64.ofNat (LittleEndian.decode [b₀, b₁, b₂, b₃, b₄, b₅, b₆, b₇]) :: messageWords length rest
  | rest => [UInt64.ofNat (LittleEndian.decode rest + (length % 256) <<< 56)]

/-- The hash of a byte string under the key `(k₀, k₁)`. -/
def hash (k₀ k₁ : UInt64) (message : Bytes) : UInt64 :=
  let start : State :=
    ⟨k₀ ^^^ 0x736f6d6570736575, k₁ ^^^ 0x646f72616e646f6d,
     k₀ ^^^ 0x6c7967656e657261, k₁ ^^^ 0x7465646279746573⟩
  let s := (messageWords message.length message).foldl absorb start
  let t := mix (mix (mix (mix { s with v₂ := s.v₂ ^^^ 0xff })))
  t.v₀ ^^^ t.v₁ ^^^ t.v₂ ^^^ t.v₃

end CoinWatch.SipHash
