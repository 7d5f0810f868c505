import CoinWatch.Config
import CoinWatch.Scan.Lookup
import CoinWatch.Scan.Range
import CoinWatch.Watch.AddressBook

/-! # Trackers

A tracker holds the settings, the address book and the ledger, and carries out requests against
a source.  A request that changes something comes back as a `Reply`: its result, the calls it
made, and the tracker afterwards.  A request that fails leaves the ledger as it was; the address
book keeps what was registered before the failure.

Lookups change nothing, not even the address book. -/

namespace CoinWatch

/-- The state that requests share. -/
structure Tracker where
  config : Config
  book : AddressBook
  ledger : Ledger

/-- The outcome of a request. -/
structure Reply (α : Type) where
  result : Except Failure α
  calls : List Call
  tracker : Tracker

/-- What a scan did to the ledger. -/
structure Summary where
  start : Height
  stop : Height
  /-- How many coins were entered. -/
  created : Nat
  /-- How many outpoints were struck out, whether held or not. -/
  spent : Nat
  skipped : List (Height × SkipReason)
  matched : Nat
deriving DecidableEq, Repr

namespace Tracker

/-- A tracker that watches and holds nothing. -/
def new (config : Config) : Tracker := ⟨config, .empty config.network, .empty⟩

/-- Starts to watch an address. -/
def watch (t : Tracker) (address : String) : Reply Payee :=
  let (result, book) := t.book.register address
  ⟨result, [], { t with book }⟩

/-- The held coins of some addresses, which are registered if they are new. -/
def coins (t : Tracker) (addresses : List String) : Reply (List Coin) :=
  let (owners, book) := t.book.registerAll addresses
  ⟨owners.map t.ledger.query, [], { t with book }⟩

/-- Scans a range for a watch set that hands its scripts to the filters in some order, and enters
what was found into the ledger. -/
def scanWatchedIn (order : WatchSet → List Script) (t : Tracker) (src : Source) (w : WatchSet)
    (start stop : Height) (token : Token) : Reply Summary :=
  let scan := scanRangeIn order src w start stop token
  match scan.value with
  | .error e => ⟨.error e, scan.calls, t⟩
  | .ok f =>
    let summary := ⟨start, stop, f.created.size, f.spent.size, f.skipped, f.matched⟩
    ⟨.ok summary, scan.calls, { t with ledger := t.ledger.apply f.created f.spent }⟩

/-- Scans a range for a watch set, and enters what was found into the ledger. -/
def scanWatched (t : Tracker) (src : Source) (w : WatchSet) (start stop : Height) (token : Token) :
    Reply Summary :=
  t.scanWatchedIn WatchSet.scripts src w start stop token

/-- Registers addresses, scans a range for them with their scripts in some order, and enters what
was found into the ledger. -/
def scanIn (order : WatchSet → List Script) (t : Tracker) (src : Source) (start stop : Height)
    (addresses : List String) (token : Token) : Reply Summary :=
  match t.book.watchSet addresses with
  | (.error e, book) => ⟨.error e, [], { t with book }⟩
  | (.ok w, book) => { t with book }.scanWatchedIn order src w start stop token

/-- Registers addresses, scans a range for them, and enters what was found into the ledger. -/
def scan (t : Tracker) (src : Source) (start stop : Height) (addresses : List String)
    (token : Token) : Reply Summary :=
  t.scanIn WatchSet.scripts src start stop addresses token

/-- Scans from `start` to the tip for a watch set. -/
def scanToTip (t : Tracker) (src : Source) (w : WatchSet) (start : Height) (token : Token) :
    Reply Summary :=
  let tip := src.askTip
  match tip.value with
  | .error text => ⟨.error (.source text), tip.calls, t⟩
  | .ok stop =>
    let reply := t.scanWatched src w start stop token
    { reply with calls := tip.calls ++ reply.calls }

/-- The outpoint and the script that a lookup's texts stand for. -/
def target (t : Tracker) (txid : String) (vout : UInt32) (address : String) :
    Except Failure (OutPoint × Script) :=
  if address.isEmpty then .error .missingAddress
  else do
    let script ← t.book.resolve address
    match Hash256.parse txid with
    | .ok txid => pure (⟨txid, vout⟩, script)
    | .error fault => throw (.invalidTxid txid fault)

/-- Looks up an output that pays to an address, in a range. -/
def lookup (t : Tracker) (src : Source) (txid : String) (vout : UInt32) (address : String)
    (start stop : Height) (token : Token) : Traced (Except Failure SpendReport) :=
  match t.target txid vout address with
  | .error e => pure (.error e)
  | .ok (target, script) => CoinWatch.lookup src target script start stop token

/-- Looks up an output that pays to an address, up to the tip. -/
def lookupToTip (t : Tracker) (src : Source) (txid : String) (vout : UInt32) (address : String)
    (start : Height) : Traced (Except Failure SpendReport) :=
  match t.target txid vout address with
  | .error e => pure (.error e)
  | .ok (target, script) => do
    match ← src.askTip with
    | .error text => pure (.error (.source text))
    | .ok stop => CoinWatch.lookup src target script start stop .never

end Tracker

end CoinWatch
