import CoinWatch.Scan.Source
import Std.Data.ExtTreeMap

/-! # Chains held in memory

A source that answers from entries by height.  Each answer of an entry may be a failure, and
entries need not make sense: two heights may have one hash, and a filter or block is served for
whatever hash it is filed under. -/

namespace CoinWatch

/-- What is answered for one height. -/
structure StoredBlock where
  hash : Except String BlockHash
  filter : Except String (Option Bytes)
  block : Except String Bytes

/-- Entries by height, and what is answered for the tip. -/
structure StoredChain where
  tip : Except String Height
  entries : Std.ExtTreeMap Height StoredBlock

namespace StoredChain

/-- Files entries by height; a later one takes the place of an earlier one. -/
def put (c : StoredChain) (entries : List (Height × StoredBlock)) : StoredChain :=
  { c with entries := c.entries.insertMany entries }

/-- Removes the entry of a height. -/
def drop (c : StoredChain) (h : Height) : StoredChain := { c with entries := c.entries.erase h }

/-- The chain with another tip. -/
def withTip (c : StoredChain) (tip : Except String Height) : StoredChain := { c with tip }

/-- The lowest entry with a hash. -/
def find? (c : StoredChain) (x : BlockHash) : Option StoredBlock :=
  c.entries.values.find? fun b => match b.hash with
    | .ok y => y = x
    | .error _ => false

/-- The chain as a source. -/
def source (c : StoredChain) : Source where
  tip := c.tip
  hashAt h := match c.entries[h]? with
    | some b => b.hash
    | none => .error "no block at this height"
  filterOf x := match c.find? x with
    | some b => b.filter
    | none => .error "no block of this hash"
  blockOf x := match c.find? x with
    | some b => b.block
    | none => .error "no block of this hash"

end StoredChain

end CoinWatch
