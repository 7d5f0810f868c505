import CoinWatch.Failure
import CoinWatch.Watch.WatchSet

/-! # Address books

The addresses that are watched, under their canonical spellings, and every spelling they were
given in.  A spelling is read once; from then on the book answers for it (`payee?`).

Registering a list stops at the first text that is no address of the network, and what came
before it stays registered.  `resolve` answers for any address and registers nothing. -/

namespace CoinWatch

/-- The watched addresses of a network. -/
structure AddressBook where
  network : Network
  /-- The script of each canonical spelling. -/
  scripts : Std.ExtTreeMap String Script
  /-- The canonical spelling of each spelling seen. -/
  spellings : Std.ExtTreeMap String String

namespace AddressBook

/-- Nothing is watched. -/
def empty (network : Network) : AddressBook := ⟨network, ∅, ∅⟩

/-- What the book knows of a spelling. -/
def payee? (b : AddressBook) (spelling : String) : Option Payee := do
  let canonical ← b.spellings[spelling]?
  let script ← b.scripts[canonical]?
  pure ⟨canonical, script⟩

/-- Enters a payee under its canonical spelling and the one it was given in. -/
def add (b : AddressBook) (spelling : String) (p : Payee) : AddressBook :=
  { b with
    scripts := b.scripts.insertIfNew p.address p.script
    spellings := (b.spellings.insert p.address p.address).insert spelling p.address }

/-- What an address decodes to, without a look into the book. -/
def decode (b : AddressBook) (text : String) : Except Failure Payee :=
  match Address.canonicalize b.network text with
  | .ok p => .ok p
  | .error fault => .error (.invalidAddress text fault)

/-- Starts to watch an address. -/
def register (b : AddressBook) (text : String) : Except Failure Payee × AddressBook :=
  match b.payee? text with
  | some p => (.ok p, b)
  | none =>
    match b.decode text with
    | .ok p => (.ok p, b.add text p)
    | .error e => (.error e, b)

/-- Starts to watch addresses, up to the first that is none. -/
def registerEach (b : AddressBook) : List String → Except Failure (List Payee) × AddressBook
  | [] => (.ok [], b)
  | text :: texts =>
    match b.register text with
    | (.error e, b) => (.error e, b)
    | (.ok p, b) =>
      let (rest, b) := b.registerEach texts
      (rest.map (p :: ·), b)

/-- Starts to watch addresses and gives their canonical spellings, each once. -/
def registerAll (b : AddressBook) (texts : List String) :
    Except Failure (List String) × AddressBook :=
  let (payees, b) := b.registerEach texts
  (payees.map fun ps => (ps.map (·.address)).eraseDups, b)

/-- Starts to watch addresses and gives the scripts to scan for. -/
def watchSet (b : AddressBook) (texts : List String) : Except Failure WatchSet × AddressBook :=
  let (payees, b) := b.registerEach texts
  (payees.map WatchSet.ofPayees, b)

/-- The script of an address that is registered in this spelling. -/
def scriptFor (b : AddressBook) (text : String) : Except Failure Script :=
  match b.payee? text with
  | some p => .ok p.script
  | none => .error (.notRegistered text)

/-- The script of any address. -/
def resolve (b : AddressBook) (text : String) : Except Failure Script :=
  match b.payee? text with
  | some p => .ok p.script
  | none => (b.decode text).map (·.script)

/-- The canonical spellings of the watched addresses. -/
def addresses (b : AddressBook) : List String := b.scripts.keys

/-- How many addresses are watched. -/
def size (b : AddressBook) : Nat := b.scripts.size

/-- Nothing is watched. -/
def isEmpty (b : AddressBook) : Bool := b.scripts.isEmpty

end AddressBook

end CoinWatch
