import CoinWatch.Failure
import CoinWatch.Scan.Probe
import CoinWatch.Scan.Token

/-! # Sweeping a range of heights

The walk that range scans and lookups share: each height of a range in ascending order is probed
and the result is taken into a state, until the range ends, the state says that it has seen
enough, or the token has fired.  The token is looked at before each height. -/

namespace CoinWatch

/-- How many heights a range has; none if it ends before it starts. -/
def rangeSize (start stop : Height) : Nat := stop + 1 - start

variable {σ : Type}

/-- Probes `n` heights from `h` on. -/
def sweep (src : Source) (scripts : List Script) (visit : Height → Probe → σ → σ)
    (enough : σ → Bool) : (n : Nat) → Height → Token → σ → Traced (Except Failure σ)
  | 0, _, _, s => pure (.ok s)
  | n + 1, h, token, s =>
    if token.fired then pure (.error (.cancelled h))
    else do
      let probe ← src.probe scripts h
      let s := visit h probe s
      if enough s then pure (.ok s)
      else sweep src scripts visit enough n (h + 1) (token.after h) s

/-- Probes the heights from `start` to `stop`. -/
def sweepRange (src : Source) (scripts : List Script) (visit : Height → Probe → σ → σ)
    (enough : σ → Bool) (start stop : Height) (token : Token) (s : σ) :
    Traced (Except Failure σ) :=
  sweep src scripts visit enough (rangeSize start stop) start token s

end CoinWatch
