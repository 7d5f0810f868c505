import CoinWatch.Bytes.LittleEndian
import CoinWatch.Bytes.Split

/-! # Readers

A reader takes a value off the front of a byte string and hands on the tail it has not looked
at; it fails when the string does not start with such a value.  Readers are composed as
`do` blocks.  `whole` asks in addition that nothing is left.

The lemmas say what a reader does on a string that starts with the value's encoding, whatever
follows; the encoders of this library are proved inverse through them. -/

namespace CoinWatch

/-- A reader of a value from the front of a byte string. -/
abbrev Reader := StateT Bytes Option

namespace Reader

variable {α : Type}

/-- Exactly `n` bytes. -/
def bytes (n : Nat) : Reader Bytes := fun bs => split? n bs

/-- A little-endian number of `w` bytes. -/
def number (w : Nat) : Reader Nat := LittleEndian.decode <$> bytes w

/-- A little-endian 32-bit word. -/
def word32 : Reader UInt32 := UInt32.ofNat <$> number 4

/-- A little-endian 64-bit word. -/
def word64 : Reader UInt64 := UInt64.ofNat <$> number 8

/-- `n` values one after another. -/
def times : (n : Nat) → Reader α → Reader (List α)
  | 0, _ => pure []
  | n + 1, item => do
    let a ← item
    let as ← times n item
    pure (a :: as)

/-- The value of a byte string that holds nothing else. -/
def whole (r : Reader α) (bs : Bytes) : Option α :=
  match r.run bs with
  | some (a, []) => some a
  | _ => none

theorem run_bytes {n : Nat} {xs : Bytes} (h : xs.length = n) (rest : Bytes) :
    (bytes n).run (xs ++ rest) = some (xs, rest) := by
  subst h
  exact split?_append xs rest

theorem run_number {w n : Nat} (h : n < LittleEndian.capacity w) (rest : Bytes) :
    (number w).run (LittleEndian.encode w n ++ rest) = some (n, rest) := by
  simp [number, run_bytes (LittleEndian.length_encode w n), LittleEndian.decode_encode h]

@[simp] theorem run_word32 (x : UInt32) (rest : Bytes) :
    word32.run (LittleEndian.encode 4 x.toNat ++ rest) = some (x, rest) := by
  simp [word32, run_number (show x.toNat < LittleEndian.capacity 4 from x.toNat_lt)]

@[simp] theorem run_word64 (x : UInt64) (rest : Bytes) :
    word64.run (LittleEndian.encode 8 x.toNat ++ rest) = some (x, rest) := by
  simp [word64, run_number (show x.toNat < LittleEndian.capacity 8 from x.toNat_lt)]

/-- If each value is read back from its bytes, so are the values one after another. -/
theorem run_times {item : Reader α} {write : α → Bytes} {as : List α}
    (h : ∀ a ∈ as, ∀ rest, item.run (write a ++ rest) = some (a, rest)) (rest : Bytes) :
    (times as.length item).run (as.flatMap write ++ rest) = some (as, rest) := by
  induction as with
  | nil => rfl
  | cons a as ih =>
    have hfirst := h a List.mem_cons_self (as.flatMap write ++ rest)
    have hrest := ih fun b hb => h b (List.mem_cons_of_mem a hb)
    simp [times, hfirst, hrest]

end Reader

end CoinWatch
