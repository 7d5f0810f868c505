import CoinWatch.Chain.Transaction
import CoinWatch.Digest.SipHash
import CoinWatch.Filter.Golomb
import Std.Data.ExtTreeSet

/-! # Queries on compact filters

A block's compact filter is a set of numbers, one for each script that the block creates or
consumes an output of.  The number of a script is its keyed hash brought into the range
`0 … n · 784931`, where `n` is the size of the set and the key comes from the block's hash.  The
set is written as `n` and the differences of the sorted numbers, in Golomb–Rice codes.

A query brings the scripts asked about into the same range as a sorted set, and walks the set and
the elements once, side by side.  Elements are decoded only as far as the walk gets, so damage
behind the place where a query is settled goes unnoticed.

Numbers have 64 bits.  The width of the range wraps around in a filter that claims to have too many
elements for it, and so does the sum of the differences. -/

namespace CoinWatch

/-- What a filter says of a set of scripts. -/
inductive Verdict where
  | hit
  | miss
  | absent
  | unreadable
deriving DecidableEq, Repr

/-- Only a hit is worth fetching the block for. -/
def Verdict.isHit (v : Verdict) : Bool := v = .hit

namespace Filter

/-- The bits of a remainder. -/
def remainderBits : Nat := 19

/-- The width of the range for each element. -/
def spread : Nat := 784931

/-- The number of elements and what follows it; a count that cannot be read is zero. -/
def header (filter : Bytes) : Nat × Bytes := (CompactSize.read.run filter).getD (0, filter)

/-- The number of a script in the filter of `n` elements of the block `x`. -/
def place (x : BlockHash) (n : Nat) (script : Script) : Nat :=
  let k := x.value.toNat
  let h := SipHash.hash (UInt64.ofNat k) (UInt64.ofNat (k >>> 64)) script
  (h.toNat * (n * spread % UInt64.size)) >>> 64

/-- The numbers of some scripts, in ascending order and each once. -/
def places (x : BlockHash) (n : Nat) (scripts : List Script) : List Nat :=
  (Std.ExtTreeSet.ofList (scripts.map (place x n))).toList

/-- A place in the walk: the element reached, how many follow it, and the bits they are in. -/
structure Cursor where
  element : Nat
  remaining : Nat
  bits : List Bool
deriving DecidableEq, Repr

/-- What becomes of one query. -/
inductive Seek where
  | found
  | passed (cursor : Cursor)
  | exhausted
  | unreadable
deriving DecidableEq, Repr

/-- Decodes elements until one reaches the query. -/
def seek (query : Nat) (remaining element : Nat) (bits : List Bool) : Seek :=
  if element = query then .found
  else if query < element then .passed ⟨element, remaining, bits⟩
  else
    match remaining with
    | 0 => .exhausted
    | remaining + 1 =>
      match Golomb.read remainderBits bits with
      | none => .unreadable
      | some (delta, bits) => seek query remaining ((element + delta) % UInt64.size) bits

/-- The walk over sorted queries, from a place on. -/
def walk : List Nat → Cursor → Verdict
  | [], _ => .miss
  | query :: queries, c =>
    match seek query c.remaining c.element c.bits with
    | .found => .hit
    | .passed c => walk queries c
    | .exhausted => .miss
    | .unreadable => .unreadable

/-- The verdict of a filter that is there. -/
def query (x : BlockHash) (filter : Bytes) (scripts : List Script) : Verdict :=
  let (n, rest) := header filter
  if scripts.isEmpty || n = 0 then .miss
  else
    match Golomb.read remainderBits (Bits.ofBytes rest) with
    | none => .unreadable
    | some (first, bits) => walk (places x n scripts) ⟨first, n - 1, bits⟩

/-- The verdict of the block's filter, if it has one. -/
def check (x : BlockHash) (filter : Option Bytes) (scripts : List Script) : Verdict :=
  match filter with
  | none => .absent
  | some filter => query x filter scripts

end Filter

end CoinWatch
