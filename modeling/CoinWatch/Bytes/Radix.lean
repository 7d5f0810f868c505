/-! # Change of radix

A list of digits, most significant first, stands for its number and for how many zeros it
starts with.  `convert b c` writes the same pair in another radix: a zero for each leading zero,
and then the shortest digits of the number.  Keeping the zeros is what makes a text of digits
and a string of bytes determine each other. -/

namespace CoinWatch.Radix

/-- The number that digits of radix `b` stand for. -/
def number (b : Nat) (ds : List Nat) : Nat := ds.foldl (fun n d => b * n + d) 0

/-- The digits of a number, least significant first and without a leading zero.  A radix below
two has none. -/
def digits (b n : Nat) : List Nat :=
  if n = 0 ∨ b < 2 then [] else n % b :: digits b (n / b)
termination_by n
decreasing_by
  next h => exact Nat.div_lt_self (by omega) (by omega)

/-- How many zeros a list of digits starts with. -/
def leadingZeros (ds : List Nat) : Nat := (ds.takeWhile (· == 0)).length

/-- The digits of radix `c` for digits of radix `b`. -/
def convert (b c : Nat) (ds : List Nat) : List Nat :=
  List.replicate (leadingZeros ds) 0 ++ (digits c (number b ds)).reverse

end CoinWatch.Radix
