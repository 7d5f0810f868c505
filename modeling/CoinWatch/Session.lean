import CoinWatch.Tracker

/-! # Sessions with background rescans

A rescan is asked for now and run later.  Asking registers its addresses and fixes its watch
set; running reads the tip and scans up to it.  The rescans that are pending run whole, one
after another, in the order in which they were started (`runPending`).

Each has a token of its own.  It fires when the rescan is cancelled before it runs, and during a
run at the heights that a list of stops pairs with the rescan, whichever rescan of the run asks
for them. -/

namespace CoinWatch

/-- A rescan that has not run yet. -/
structure Rescan where
  id : Nat
  start : Height
  watch : WatchSet
  cancelled : Bool

/-- A height at which a rescan is to be cancelled. -/
structure Stop where
  height : Height
  id : Nat
deriving DecidableEq, Repr

/-- A tracker, the rescans waiting to run, and how many were started. -/
structure Session where
  tracker : Tracker
  pending : List Rescan
  started : Nat

/-- The rescan's token in a run in which the hashes of the heights `asked` were asked for so
far. -/
def Rescan.token (r : Rescan) (stops : List Stop) (asked : List Height) : Token :=
  let heights := (stops.filter (·.id = r.id)).map (·.height)
  ⟨r.cancelled || heights.any asked.contains, heights⟩

/-- The result of a run: what became of each rescan, the calls, and the tracker afterwards. -/
structure Run where
  results : List (Nat × Except Failure Summary)
  calls : List Call
  tracker : Tracker

/-- Runs rescans one after another. -/
def Tracker.runRescans (src : Source) (stops : List Stop) :
    Tracker → (asked : List Height) → List Rescan → Run
  | t, _, [] => ⟨[], [], t⟩
  | t, asked, r :: rest =>
    let reply := t.scanToTip src r.watch r.start (r.token stops asked)
    let run := reply.tracker.runRescans src stops (asked ++ reply.calls.filterMap Call.height?) rest
    ⟨(r.id, reply.result) :: run.results, reply.calls ++ run.calls, run.tracker⟩

namespace Session

/-- A session in which nothing has happened. -/
def new (config : Config) : Session := ⟨.new config, [], 0⟩

/-- Asks for a rescan from `start` to the tip, and gives its number.  Without a runtime that
could run it later, nothing is done. -/
def startRescan (s : Session) (runtime : Bool) (start : Height) (addresses : List String) :
    Except Failure Nat × Session :=
  if !runtime then (.error .noRuntime, s)
  else
    let (watch, book) := s.tracker.book.watchSet addresses
    let s := { s with tracker := { s.tracker with book } }
    match watch with
    | .error e => (.error e, s)
    | .ok w =>
      if w.isEmpty then (.error .noScripts, s)
      else
        (.ok s.started,
          { s with
            pending := s.pending ++ [⟨s.started, start, w, false⟩]
            started := s.started + 1 })

/-- Cancels a pending rescan. -/
def cancel (s : Session) (id : Nat) : Session :=
  { s with pending := s.pending.map fun r => if r.id = id then { r with cancelled := true } else r }

/-- Runs all pending rescans. -/
def runPending (s : Session) (src : Source) (stops : List Stop) :
    List (Nat × Except Failure Summary) × List Call × Session :=
  let run := s.tracker.runRescans src stops [] s.pending
  (run.results, run.calls, { s with tracker := run.tracker, pending := [] })

end Session

end CoinWatch
