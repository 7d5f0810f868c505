import CoinWatch.Bytes.LittleEndian

/-! # SHA-256

The message is padded with one set bit, zeros and its length in bits (`pad`), cut into blocks
of sixteen big-endian words, and folded into eight state words by `compress`.

A block takes sixty-four rounds.  The message schedule is carried along as a window of the next
sixteen words: each round consumes the first one and appends the word sixteen places on
(`extend`), so no round looks anything up by index. -/

namespace CoinWatch.Sha256

/-- The eight working words. -/
structure State where
  a : UInt32
  b : UInt32
  c : UInt32
  d : UInt32
  e : UInt32
  f : UInt32
  g : UInt32
  h : UInt32
deriving DecidableEq, Repr

/-- Rotation to the right. -/
def rotr (x k : UInt32) : UInt32 := (x >>> k) ||| (x <<< (32 - k))

/-- The state before the first block: the square roots of the first eight primes. -/
def initial : State :=
  ⟨0x6a09e667, 0xbb67ae85, 0x3c6ef372, 0xa54ff53a, 0x510e527f, 0x9b05688c, 0x1f83d9ab, 0x5be0cd19⟩

/-- The round constants: the cube roots of the first sixty-four primes. -/
def roundConstants : List UInt32 :=
  [0x428a2f98, 0x71374491, 0xb5c0fbcf, 0xe9b5dba5, 0x3956c25b, 0x59f111f1, 0x923f82a4, 0xab1c5ed5,
   0xd807aa98, 0x12835b01, 0x243185be, 0x550c7dc3, 0x72be5d74, 0x80deb1fe, 0x9bdc06a7, 0xc19bf174,
   0xe49b69c1, 0xefbe4786, 0x0fc19dc6, 0x240ca1cc, 0x2de92c6f, 0x4a7484aa, 0x5cb0a9dc, 0x76f988da,
   0x983e5152, 0xa831c66d, 0xb00327c8, 0xbf597fc7, 0xc6e00bf3, 0xd5a79147, 0x06ca6351, 0x14292967,
   0x27b70a85, 0x2e1b2138, 0x4d2c6dfc, 0x53380d13, 0x650a7354, 0x766a0abb, 0x81c2c92e, 0x92722c85,
   0xa2bfe8a1, 0xa81a664b, 0xc24b8b70, 0xc76c51a3, 0xd192e819, 0xd6990624, 0xf40e3585, 0x106aa070,
   0x19a4c116, 0x1e376c08, 0x2748774c, 0x34b0bcb5, 0x391c0cb3, 0x4ed8aa4a, 0x5b9cca4f, 0x682e6ff3,
   0x748f82ee, 0x78a5636f, 0x84c87814, 0x8cc70208, 0x90befffa, 0xa4506ceb, 0xbef9a3f7, 0xc67178f2]

/-- One round with constant `k` and message word `w`. -/
def round (s : State) (k w : UInt32) : State :=
  let big1 := rotr s.e 6 ^^^ rotr s.e 11 ^^^ rotr s.e 25
  let choice := (s.e &&& s.f) ^^^ (~~~s.e &&& s.g)
  let t1 := s.h + big1 + choice + k + w
  let big0 := rotr s.a 2 ^^^ rotr s.a 13 ^^^ rotr s.a 22
  let majority := (s.a &&& s.b) ^^^ (s.a &&& s.c) ^^^ (s.b &&& s.c)
  ⟨t1 + (big0 + majority), s.a, s.b, s.c, s.d + t1, s.e, s.f, s.g⟩

/-- The word that follows a window of sixteen words of the schedule. -/
def nextWord (window : List UInt32) : UInt32 :=
  let x := window.getD 1 0
  let y := window.getD 14 0
  let small0 := rotr x 7 ^^^ rotr x 18 ^^^ (x >>> 3)
  let small1 := rotr y 17 ^^^ rotr y 19 ^^^ (y >>> 10)
  window.getD 0 0 + small0 + window.getD 9 0 + small1

/-- The window moved on by one word. -/
def extend (window : List UInt32) : List UInt32 := window.tail ++ [nextWord window]

/-- The rounds for the listed constants, with the window of words still to be used. -/
def rounds : List UInt32 → List UInt32 → State → State
  | [], _, s => s
  | k :: ks, window, s => rounds ks (extend window) (round s k (window.getD 0 0))

/-- Folds one block of sixteen words into the state. -/
def compress (s : State) (block : List UInt32) : State :=
  let t := rounds roundConstants block s
  ⟨s.a + t.a, s.b + t.b, s.c + t.c, s.d + t.d, s.e + t.e, s.f + t.f, s.g + t.g, s.h + t.h⟩

/-- One set bit, zeros up to eight bytes short of a full block, and the length in bits. -/
def pad (message : Bytes) : Bytes :=
  message ++ 0x80 :: List.replicate ((119 - message.length % 64) % 64) 0
    ++ (LittleEndian.encode 8 (8 * message.length)).reverse

/-- The big-endian words of a byte string; a rest shorter than a word is dropped. -/
def words : Bytes → List UInt32
  | b₀ :: b₁ :: b₂ :: b₃ :: rest =>
    (b₀.toUInt32 <<< 24 ||| b₁.toUInt32 <<< 16 ||| b₂.toUInt32 <<< 8 ||| b₃.toUInt32) :: words rest
  | _ => []

/-- Folds `n` blocks of sixteen words each into the state. -/
def absorb : (n : Nat) → List UInt32 → State → State
  | 0, _, s => s
  | n + 1, ws, s => absorb n (ws.drop 16) (compress s (ws.take 16))

/-- The big-endian bytes of a word. -/
def wordBytes (w : UInt32) : Bytes := (LittleEndian.encode 4 w.toNat).reverse

/-- The digest: thirty-two bytes. -/
def hash (message : Bytes) : Bytes :=
  let ws := words (pad message)
  let s := absorb (ws.length / 16) ws initial
  [s.a, s.b, s.c, s.d, s.e, s.f, s.g, s.h].flatMap wordBytes

@[simp] theorem length_hash (message : Bytes) : (hash message).length = 32 := by
  simp [hash, wordBytes]

/-- The digest of the digest. -/
def hashTwice (message : Bytes) : Bytes := hash (hash message)

@[simp] theorem length_hashTwice (message : Bytes) : (hashTwice message).length = 32 := by
  simp [hashTwice]

end CoinWatch.Sha256
