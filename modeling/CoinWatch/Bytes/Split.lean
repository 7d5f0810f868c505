/-! # Taking a front of fixed length

Readers of bytes and of bits take so many elements off the front of a list, or fail when there
are too few. -/

namespace CoinWatch

variable {α : Type}

/-- The first `n` elements and the rest, if there are so many. -/
def split? : (n : Nat) → List α → Option (List α × List α)
  | 0, as => some ([], as)
  | _ + 1, [] => none
  | n + 1, a :: as => (split? n as).map fun (front, rest) => (a :: front, rest)

@[simp] theorem split?_append (front rest : List α) :
    split? front.length (front ++ rest) = some (front, rest) := by
  induction front with
  | nil => rfl
  | cons a front ih => simp [split?, ih]

end CoinWatch
