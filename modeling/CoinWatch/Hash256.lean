import CoinWatch.Bytes.Hex
import CoinWatch.Digest.Sha256

/-! # 256-bit hashes

Transactions and blocks are named by a double SHA-256 of their bytes.  The digest is read as a
little-endian number (`ofBytes`), and what people read and type is that number in sixty-four
hexadecimal digits (`text`, `parse`), so hashes are ordered as their texts are. -/

namespace CoinWatch

/-- A hash, as the number its bytes stand for. -/
structure Hash256 where
  value : BitVec 256
deriving DecidableEq, Repr

/-- The name of a transaction. -/
abbrev Txid := Hash256

/-- The name of a block. -/
abbrev BlockHash := Hash256

/-- Why a text is not a hash. -/
inductive HashFault where
  | badLength
  | badDigit
deriving DecidableEq, Repr

/-- The wording of a fault. -/
def HashFault.message : HashFault → String
  | badLength => "failed to parse hex"
  | badDigit => "failed to parse hex digit"

namespace Hash256

instance : Ord Hash256 := ⟨compareOn value⟩

instance : Std.TransOrd Hash256 :=
  inferInstanceAs (Std.TransCmp (compareOn value))

instance : Std.LawfulEqOrd Hash256 where
  eq_of_compare {a b} h := by
    have : a.value = b.value := Std.LawfulEqOrd.eq_of_compare h
    cases a; cases b; simp_all

/-- The hash with the given bytes. -/
def ofBytes (bs : Bytes) : Hash256 := ⟨BitVec.ofNat 256 (LittleEndian.decode bs)⟩

/-- The thirty-two bytes of a hash, in the order in which they are hashed and sent. -/
def bytes (h : Hash256) : Bytes := LittleEndian.encode 32 h.value.toNat

/-- The hash that names a message. -/
def digest (message : Bytes) : Hash256 := ofBytes (Sha256.hashTwice message)

/-- The sixty-four digits of a hash, most significant first. -/
def text (h : Hash256) : String := Hex.text h.bytes.reverse

/-- The hash a text stands for.  The length is that of the text's UTF-8 form. -/
def parse (s : String) : Except HashFault Hash256 :=
  if s.utf8ByteSize = 64 then
    match Hex.decode? s.toList with
    | some bs => .ok (ofBytes bs.reverse)
    | none => .error .badDigit
  else .error .badLength

@[simp] theorem length_bytes (h : Hash256) : h.bytes.length = 32 := by simp [bytes]

@[simp] theorem ofBytes_bytes (h : Hash256) : ofBytes h.bytes = h := by
  have hlt : h.value.toNat < LittleEndian.capacity 32 := h.value.isLt
  simp [ofBytes, bytes, LittleEndian.decode_encode hlt]

end Hash256

end CoinWatch
