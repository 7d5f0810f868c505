import CoinWatch.Proofs.FilterScan
import CoinWatch.Proofs.Passes
import CoinWatch.Session

/-! # Sessions under requests

A session goes through a list of requests (`Session.performAll`): addresses are watched, coins are
asked for, ranges are scanned, outputs are looked up, rescans are started, cancelled and run.  None
of these writes the ledger other than through a scan that ends well, and such scans are its passes
(`Session.allPasses`).  The ledger is what the passes make of it, in their order
(`Session.ledger_performAll`), so the law of the order of passes says what it holds
(`Session.get_performAll_isSome_iff`). -/

namespace CoinWatch

/-- The pass that a scan was, if it ended well. -/
def Pass.ofResult? (w : WatchSet) : Except Failure Summary → Option Pass
  | .ok summary => some ⟨w, summary.start, summary.stop⟩
  | .error _ => none

/-- What may be asked of a session. -/
inductive Request where
  | watch (address : String)
  | coins (addresses : List String)
  | scan (start stop : Height) (addresses : List String) (token : Token)
  | lookup (txid : String) (vout : UInt32) (address : String) (start stop : Height) (token : Token)
  | lookupToTip (txid : String) (vout : UInt32) (address : String) (start : Height)
  | startRescan (runtime : Bool) (start : Height) (addresses : List String)
  | cancel (id : Nat)
  | runPending (stops : List Stop)

/-! ### Passes of a tracker -/

namespace Tracker

variable (src : Source) (t : Tracker)

variable {src t} in
theorem scanWatched_of_error {w : WatchSet} {start stop : Height} {token : Token} {e : Failure}
    (h : (scanRange src w start stop token).value = .error e) :
    t.scanWatched src w start stop token =
      ⟨.error e, (scanRange src w start stop token).calls, t⟩ := by
  unfold scanRange at h ⊢
  simp only [scanWatched, scanWatchedIn, h]

variable {src t} in
theorem scanWatched_of_ok {w : WatchSet} {start stop : Height} {token : Token} {f : Findings}
    (h : (scanRange src w start stop token).value = .ok f) :
    t.scanWatched src w start stop token =
      ⟨.ok ⟨start, stop, f.created.size, f.spent.size, f.skipped, f.matched⟩,
        (scanRange src w start stop token).calls,
        { t with ledger := t.ledger.enter src ⟨w, start, stop⟩ }⟩ := by
  obtain ⟨_, rfl⟩ := scanRange_of_ok h
  unfold scanRange at h ⊢
  simp only [scanWatched, scanWatchedIn, h]
  rfl

variable {src t} in
theorem scan_of_watchSet_ok {addresses : List String} {w : WatchSet}
    (h : (t.book.watchSet addresses).1 = .ok w) {start stop : Height} {token : Token} :
    t.scan src start stop addresses token =
      { t with book := (t.book.watchSet addresses).2 }.scanWatched src w start stop token := by
  rw [scan, scanIn, show t.book.watchSet addresses = (.ok w, (t.book.watchSet addresses).2) from
    Prod.ext h rfl]
  rfl

variable {src t} in
theorem scan_of_watchSet_self {addresses : List String} {w : WatchSet}
    (h : t.book.watchSet addresses = (.ok w, t.book)) {start stop : Height} {token : Token} :
    t.scan src start stop addresses token = t.scanWatched src w start stop token := by
  rw [scan_of_watchSet_ok (congrArg Prod.fst h), h]

variable {src t} in
/-- A scan that is refused for its addresses leaves what was registered before the invalid one. -/
theorem scan_of_watchSet_error {addresses : List String} {e : Failure}
    (h : (t.book.watchSet addresses).1 = .error e) {start stop : Height} {token : Token} :
    t.scan src start stop addresses token =
      ⟨.error e, [], { t with book := (t.book.watchSet addresses).2 }⟩ := by
  rw [scan, scanIn, show t.book.watchSet addresses = (.error e, (t.book.watchSet addresses).2) from
    Prod.ext h rfl]

variable {src t} in
theorem scanToTip_of_error {w : WatchSet} {start : Height} {token : Token} {text : String}
    (h : src.tip = .error text) :
    t.scanToTip src w start token = ⟨.error (.source text), [.tip], t⟩ := by
  simp only [scanToTip, Source.askTip, h]

variable {src t} in
theorem scanToTip_of_ok {w : WatchSet} {start stop : Height} {token : Token}
    (h : src.tip = .ok stop) :
    t.scanToTip src w start token =
      { t.scanWatched src w start stop token with
        calls := .tip :: (t.scanWatched src w start stop token).calls } := by
  simp only [scanToTip, Source.askTip, h]
  rfl

/-- A scan that ends well enters its pass into the ledger, and one that fails nothing. -/
theorem ledger_scanWatched (w : WatchSet) (start stop : Height) (token : Token) :
    (t.scanWatched src w start stop token).tracker.ledger =
      t.ledger.enterAll src
        (Pass.ofResult? w (t.scanWatched src w start stop token).result).toList := by
  cases h : (scanRange src w start stop token).value with
  | error e =>
    rw [scanWatched_of_error h]
    rfl
  | ok f =>
    rw [scanWatched_of_ok h]
    rfl

theorem ledger_scanToTip (w : WatchSet) (start : Height) (token : Token) :
    (t.scanToTip src w start token).tracker.ledger =
      t.ledger.enterAll src (Pass.ofResult? w (t.scanToTip src w start token).result).toList := by
  cases htip : src.tip with
  | error text =>
    rw [scanToTip_of_error htip]
    rfl
  | ok stop =>
    rw [scanToTip_of_ok htip]
    exact t.ledger_scanWatched src w start stop token

/-- The passes among the results of rescans. -/
def passesOf : List (Nat × Except Failure Summary) → List Rescan → List Pass
  | (_, result) :: results, r :: rs => (Pass.ofResult? r.watch result).toList ++ passesOf results rs
  | _, _ => []

theorem ledger_runRescans (stops : List Stop) (asked : List Height) (rs : List Rescan) :
    (t.runRescans src stops asked rs).tracker.ledger =
      t.ledger.enterAll src (passesOf (t.runRescans src stops asked rs).results rs) := by
  induction rs generalizing t asked with
  | nil => rfl
  | cons r rs ih =>
    unfold runRescans
    simp only [ih, ledger_scanToTip, passesOf, Ledger.enterAll_append]

end Tracker

/-! ### Runs of a session -/

namespace Session

variable (src : Source) (s : Session)

/-- The session after a request. -/
def perform (s : Session) : Request → Session
  | .watch address => { s with tracker := (s.tracker.watch address).tracker }
  | .coins addresses => { s with tracker := (s.tracker.coins addresses).tracker }
  | .scan start stop addresses token =>
    { s with tracker := (s.tracker.scan src start stop addresses token).tracker }
  | .lookup .. | .lookupToTip .. => s
  | .startRescan runtime start addresses => (s.startRescan runtime start addresses).2
  | .cancel id => s.cancel id
  | .runPending stops => (s.runPending src stops).2.2

/-- The passes of a request, in the order in which they enter the ledger. -/
def passes : Request → List Pass
  | .scan start stop addresses token =>
    match (s.tracker.book.watchSet addresses).1 with
    | .ok w => (Pass.ofResult? w (s.tracker.scan src start stop addresses token).result).toList
    | .error _ => []
  | .runPending stops => Tracker.passesOf (s.runPending src stops).1 s.pending
  | _ => []

/-- The session after some requests. -/
def performAll (rs : List Request) : Session := rs.foldl (perform src) s

/-- The passes of some requests. -/
def allPasses : Session → List Request → List Pass
  | _, [] => []
  | s, r :: rs => s.passes src r ++ allPasses (s.perform src r) rs

/-- The ledger after a request is what the request's passes make of it. -/
theorem ledger_perform (r : Request) :
    (s.perform src r).tracker.ledger = s.tracker.ledger.enterAll src (s.passes src r) := by
  cases r with
  | watch | coins | lookup | lookupToTip | cancel => rfl
  | scan start stop addresses token =>
    simp only [perform, passes]
    cases hw : (s.tracker.book.watchSet addresses).1 with
    | error e =>
      rw [Tracker.scan_of_watchSet_error hw]
      rfl
    | ok w =>
      rw [Tracker.scan_of_watchSet_ok hw]
      exact Tracker.ledger_scanWatched src
        { s.tracker with book := (s.tracker.book.watchSet addresses).2 } w start stop token
  | startRescan runtime start addresses =>
    -- Whether or not a rescan comes of it, only the address book and the waiting list change.
    simp only [perform, passes, startRescan]
    split
    · rfl
    · cases (s.tracker.book.watchSet addresses).1 with
      | error e => rfl
      | ok w =>
        dsimp only
        split <;> rfl
  | runPending stops => exact Tracker.ledger_runRescans src s.tracker stops [] s.pending

theorem ledger_performAll (rs : List Request) :
    (s.performAll src rs).tracker.ledger = s.tracker.ledger.enterAll src (allPasses src s rs) := by
  induction rs generalizing s with
  | nil => rfl
  | cons r rs ih =>
    have hrest : s.performAll src (r :: rs) = (s.perform src r).performAll src rs := rfl
    rw [hrest, ih, ledger_perform, allPasses, Ledger.enterAll_append]

/-- What a session holds that began with an empty ledger.  An outpoint is held if some pass creates
it and neither that pass nor a later one consumes it, and this is to be created in some pass and
consumed in none except for the outpoints that a pass brings back after an earlier one consumed
them. -/
theorem get_performAll_isSome_iff (hs : s.tracker.ledger = .empty) (rs : List Request)
    (o : OutPoint) :
    (((s.performAll src rs).tracker.ledger.get o).isSome ↔ Current src (allPasses src s rs) o) ∧
    ((((s.performAll src rs).tracker.ledger.get o).isSome ↔ Unspent src (allPasses src s rs) o) ↔
      ¬ Revived src (allPasses src s rs) o) := by
  have hheld : ((s.performAll src rs).tracker.ledger.get o).isSome ↔
      Current src (allPasses src s rs) o := by
    rw [ledger_performAll, Ledger.get_enterAll_isSome, hs, Ledger.get_empty]
    simp
  refine ⟨hheld, ?_⟩
  rw [hheld, current_iff_unspent_or_revived]
  have hdisjoint : Revived src (allPasses src s rs) o → ¬ Unspent src (allPasses src s rs) o :=
    not_unspent_of_revived
  tauto

end Session

namespace Sample

/-- A spelling of the script whose outputs the filters of the small chain tell the truth about. -/
def address : String := "bcrt1qqyqszqgpqyqszqgpqyqszqgpqyqszqgpvxat9t"

def session : Session := .new ⟨.regtest, 0⟩

/-- The block of the spend is scanned first and that of the creation second. -/
def requests : List Request := [.scan 3 3 [address] .never, .scan 1 1 [address] .never]

theorem held_and_consumed :
    ((session.performAll source requests).tracker.ledger.get ⟨fundingId, 0⟩).isSome ∧
      ∃ p ∈ session.allPasses source requests, p.Consumes source ⟨fundingId, 0⟩ := by
  decide +kernel

/-- What the first scan saw consumed the second one brings back. -/
theorem revived_by_second_scan : session.tracker.ledger = .empty ∧
    ((session.performAll source requests).tracker.ledger.get ⟨fundingId, 0⟩).isSome ∧
      Revived source (session.allPasses source requests) ⟨fundingId, 0⟩ := by
  obtain ⟨hheld, p, hp, hcons⟩ := held_and_consumed
  obtain ⟨_, hlaw⟩ :=
    Session.get_performAll_isSome_iff source session rfl requests ⟨fundingId, 0⟩
  refine ⟨rfl, hheld, ?_⟩
  by_contra hnot
  obtain ⟨_, hnone⟩ := (hlaw.mpr hnot).mp hheld
  exact hnone p hp hcons

end Sample

end CoinWatch
