import CoinWatch.Chain.Block

/-! # Cancellation tokens, as a walk sees them

A walk over heights looks at its token before each height.  A token may have fired beforehand,
and it may fire while a height is being asked for; that height is still processed, and the walk
ends before the next one. -/

namespace CoinWatch

/-- A token: whether it has fired, and the heights whose hash request makes it fire. -/
structure Token where
  fired : Bool
  firesAt : List Height
deriving DecidableEq, Repr

namespace Token

/-- The token that never fires. -/
def never : Token := ⟨false, []⟩

/-- The token that fired beforehand. -/
def alreadyFired : Token := ⟨true, []⟩

/-- The token that fires when the hash of `h` is asked for. -/
def firingAt (h : Height) : Token := ⟨false, [h]⟩

/-- The token once the hash of `h` was asked for. -/
def after (t : Token) (h : Height) : Token := { t with fired := t.fired || t.firesAt.contains h }

@[simp] theorem after_never (h : Height) : never.after h = never := rfl

end Token

end CoinWatch
