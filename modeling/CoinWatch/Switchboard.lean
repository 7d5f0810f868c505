import Std.Data.ExtTreeMap
import Std.Data.ExtTreeSet

/-! # Triggers and tokens

A trigger fires a channel, and every token of the channel can tell that it has fired.  Triggers
and tokens are held under names, which may be dropped and used again.  A channel keeps what
happened to it whoever is left to hear of it: a token made after the trigger fired has fired,
and a token whose trigger is gone stays as it was. -/

namespace CoinWatch

/-- The channels made so far, those that have fired, and the channel of each name. -/
structure Switchboard where
  /-- How many channels were made; they are numbered from zero. -/
  channels : Nat
  fired : Std.ExtTreeSet Nat
  triggers : Std.ExtTreeMap String Nat
  tokens : Std.ExtTreeMap String Nat

/-- What may happen to triggers and tokens. -/
inductive Switch where
  /-- A new channel gets a trigger and a token. -/
  | pair (trigger token : String)
  /-- A trigger's channel gets one more token. -/
  | token (trigger token : String)
  /-- A token's channel gets one more token. -/
  | copy (source token : String)
  /-- A new channel gets a token and no trigger. -/
  | never (token : String)
  /-- A trigger fires. -/
  | fire (trigger : String)
  | dropTrigger (trigger : String)
  | dropToken (token : String)
deriving DecidableEq, Repr

namespace Switchboard

/-- No channels. -/
def empty : Switchboard := ⟨0, ∅, ∅, ∅⟩

/-- Names a token of a channel, if there is one. -/
def addToken (b : Switchboard) (channel : Option Nat) (name : String) : Switchboard :=
  match channel with
  | some c => { b with tokens := b.tokens.insert name c }
  | none => b

/-- The switchboard after one thing has happened.  What happens to a name that nothing has
changes nothing. -/
def step (b : Switchboard) : Switch → Switchboard
  | .pair trigger token =>
    { b with
      channels := b.channels + 1
      triggers := b.triggers.insert trigger b.channels
      tokens := b.tokens.insert token b.channels }
  | .token trigger token => b.addToken b.triggers[trigger]? token
  | .copy source token => b.addToken b.tokens[source]? token
  | .never token =>
    { b with channels := b.channels + 1, tokens := b.tokens.insert token b.channels }
  | .fire trigger =>
    match b.triggers[trigger]? with
    | some c => { b with fired := b.fired.insert c }
    | none => b
  | .dropTrigger trigger => { b with triggers := b.triggers.erase trigger }
  | .dropToken token => { b with tokens := b.tokens.erase token }

/-- What a token tells, if there is one of this name. -/
def isFired? (b : Switchboard) (token : String) : Option Bool :=
  b.tokens[token]?.map b.fired.contains

/-- All tokens with what they tell. -/
def view (b : Switchboard) : List (String × Bool) :=
  b.tokens.toList.map fun (name, c) => (name, b.fired.contains c)

/-- The switchboard after a list of happenings. -/
def run (b : Switchboard) (switches : List Switch) : Switchboard := switches.foldl step b

end Switchboard

end CoinWatch
