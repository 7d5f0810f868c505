import CoinWatch.Chain.Block

/-! # Chain sources

What a scan relies on for its data: the tip, the hash of the block at a height, and the compact
filter and the bytes of a block by its hash.  A source may fail, and nothing it says is taken to
be true.

Requests are computations in `Traced`, which keeps the calls made beside the value, in order, so
that what a source gets to see is part of a result. -/

namespace CoinWatch

/-- A source of chain data; a failure is a text. -/
structure Source where
  tip : Except String Height
  hashAt : Height → Except String BlockHash
  /-- A block may have no filter. -/
  filterOf : BlockHash → Except String (Option Bytes)
  blockOf : BlockHash → Except String Bytes

/-- A request to a source. -/
inductive Call where
  | tip
  | hash (height : Height)
  | filter (block : BlockHash)
  | block (block : BlockHash)
deriving DecidableEq, Repr

/-- The height whose hash a call asks for. -/
def Call.height? : Call → Option Height
  | hash h => some h
  | _ => none

/-- A value and the calls made to get it. -/
structure Traced (α : Type) where
  value : α
  calls : List Call
deriving DecidableEq, Repr

namespace Traced

variable {α β : Type}

instance : Monad Traced where
  pure a := ⟨a, []⟩
  bind t f := let u := f t.value; ⟨u.value, t.calls ++ u.calls⟩

@[simp] theorem pure_value (a : α) : (Pure.pure a : Traced α).value = a := rfl

@[simp] theorem pure_calls (a : α) : (Pure.pure a : Traced α).calls = [] := rfl

@[simp] theorem bind_value (t : Traced α) (f : α → Traced β) :
    (t >>= f).value = (f t.value).value := rfl

@[simp] theorem bind_calls (t : Traced α) (f : α → Traced β) :
    (t >>= f).calls = t.calls ++ (f t.value).calls := rfl

@[simp] theorem map_value (t : Traced α) (f : α → β) : (f <$> t).value = f t.value := rfl

@[simp] theorem map_calls (t : Traced α) (f : α → β) : (f <$> t).calls = t.calls := by
  show t.calls ++ [] = t.calls
  simp

end Traced

namespace Source

/-- Asks for the height of the newest block. -/
def askTip (src : Source) : Traced (Except String Height) := ⟨src.tip, [.tip]⟩

/-- Asks for the hash of the block at a height. -/
def askHash (src : Source) (h : Height) : Traced (Except String BlockHash) :=
  ⟨src.hashAt h, [.hash h]⟩

/-- Asks for the filter of a block. -/
def askFilter (src : Source) (x : BlockHash) : Traced (Except String (Option Bytes)) :=
  ⟨src.filterOf x, [.filter x]⟩

/-- Asks for the bytes of a block. -/
def askBlock (src : Source) (x : BlockHash) : Traced (Except String Bytes) :=
  ⟨src.blockOf x, [.block x]⟩

end Source

end CoinWatch
