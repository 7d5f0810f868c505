import CoinWatch.Wire.Reader

/-! # Compact sizes

The counts and lengths of the wire format: one byte below 253, and otherwise a marker byte with
two, four or eight little-endian bytes.  A marker is refused when a shorter form would have
done, so each number has one spelling (`run_read`). -/

namespace CoinWatch.CompactSize

/-- The shortest form of a number below `UInt64.size`. -/
def encode (n : Nat) : Bytes :=
  if n < 253 then LittleEndian.encode 1 n
  else if n < 0x10000 then 253 :: LittleEndian.encode 2 n
  else if n < 0x100000000 then 254 :: LittleEndian.encode 4 n
  else 255 :: LittleEndian.encode 8 n

/-- A number of `w` bytes that is at least `least`. -/
def readWide (w least : Nat) : Reader Nat := do
  let n ← Reader.number w
  if least ≤ n then pure n else failure

/-- A number in its shortest form. -/
def read : Reader Nat := do
  let marker ← Reader.number 1
  if marker = 253 then readWide 2 253
  else if marker = 254 then readWide 4 (0x10000)
  else if marker = 255 then readWide 8 (0x100000000)
  else pure marker

/-- A list of values behind its count. -/
def readList {α : Type} (item : Reader α) : Reader (List α) := do
  let n ← read
  Reader.times n item

/-- A byte string behind its length. -/
def readBytes : Reader Bytes := do
  let n ← read
  Reader.bytes n

/-- A list of encoded values behind its count. -/
def encodeList {α : Type} (item : α → Bytes) (as : List α) : Bytes :=
  encode as.length ++ as.flatMap item

/-- A byte string behind its length. -/
def encodeBytes (bs : Bytes) : Bytes := encode bs.length ++ bs

theorem run_readWide {w least n : Nat} (hlo : least ≤ n) (hhi : n < LittleEndian.capacity w)
    (rest : Bytes) :
    (readWide w least).run (LittleEndian.encode w n ++ rest) = some (n, rest) := by
  simp [readWide, Reader.run_number hhi, hlo]

theorem run_marker (m : UInt8) (rest : Bytes) :
    (Reader.number 1).run (m :: rest) = some (m.toNat, rest) := by
  have h := Reader.run_bytes (show [m].length = 1 from rfl) rest
  simp only [List.cons_append, List.nil_append] at h
  simp [Reader.number, h, LittleEndian.decode]

theorem run_read {n : Nat} (h : n < UInt64.size) (rest : Bytes) :
    read.run (encode n ++ rest) = some (n, rest) := by
  have h8 : n < LittleEndian.capacity 8 := h
  unfold encode
  split
  · next h1 =>
    have hm : n ≠ 253 ∧ n ≠ 254 ∧ n ≠ 255 := by omega
    have hn : n < LittleEndian.capacity 1 := by simp only [LittleEndian.capacity]; omega
    simp [read, Reader.run_number hn, hm]
  · next h1 =>
    split
    · next h2 => simp [read, run_marker, run_readWide (Nat.le_of_not_lt h1) (w := 2) h2]
    · next h2 =>
      split
      · next h3 => simp [read, run_marker, run_readWide (Nat.le_of_not_lt h2) (w := 4) h3]
      · next h3 => simp [read, run_marker, run_readWide (Nat.le_of_not_lt h3) h8]

theorem run_readBytes {bs : Bytes} (h : bs.length < UInt64.size) (rest : Bytes) :
    readBytes.run (encodeBytes bs ++ rest) = some (bs, rest) := by
  simp [readBytes, encodeBytes, run_read h, Reader.run_bytes]

/-- If each value is read back from its bytes, a list is read back from its count and values. -/
theorem run_readList {α : Type} {item : Reader α} {write : α → Bytes} {as : List α}
    (hcount : as.length < UInt64.size)
    (h : ∀ a ∈ as, ∀ rest, item.run (write a ++ rest) = some (a, rest)) (rest : Bytes) :
    (readList item).run (encodeList write as ++ rest) = some (as, rest) := by
  simp [readList, encodeList, run_read hcount, Reader.run_times h]

end CoinWatch.CompactSize
