import CoinWatch.Proofs.Cancellation
import CoinWatch.Proofs.Histories
import CoinWatch.Proofs.Ownership

/-! # Rescans in the background and scans at their turn

A rescan fixes its watch set when it is asked for, and reads the tip and the chain when it runs.
What it was asked for is an `Errand`: a height to start from and the texts of some addresses.  A
history of a session tells the errands that wait (`Session.errands`), whatever else happens in
between: requests over chains that change, inquiries to the address book, and writes to the ledger.

Through all of this a waiting rescan serves its errand (`Rescan.Serves`): its watch set is the one
that the texts have now, and the address book knows them already.  So what a run of the waiting
rescans does is to take the errands in their order, each as a scan of its addresses up to the tip
(`Tracker.carryOut`), and such a scan depends on the tracker for nothing but its network
(`Tracker.scanUpToTip_congr`).  This is `Session.runPending_eq_carryOut`. -/

namespace CoinWatch

/-! ### Scans up to the tip -/

/-- Tokens that have fired both, or none of them, and then fire at the same of some heights. -/
structure Token.SameOn (token token' : Token) (hs : List Height) : Prop where
  fired : token'.fired = token.fired
  firesAt : token.fired = false → ∀ h ∈ hs, h ∈ token'.firesAt ↔ h ∈ token.firesAt

theorem Token.SameOn.after {token token' : Token} {h : Height} {hs : List Height}
    (hsame : token.SameOn token' (h :: hs)) (hfired : token.fired = false) :
    (token.after h).SameOn (token'.after h) hs where
  fired := by
    have hiff := hsame.firesAt hfired h List.mem_cons_self
    simp only [Token.after, hsame.fired, hfired, Bool.false_or]
    rw [Bool.eq_iff_iff, List.contains_iff_mem, List.contains_iff_mem, hiff]
  firesAt _ k hk := hsame.firesAt hfired k (List.mem_cons_of_mem h hk)

section runs

variable {src : Source} {token token' : Token}

/-- A walk is told by what its token does at the heights of the walk. -/
theorem sweep_congr_token {σ : Type} {scripts : List Script} {visit : Height → Probe → σ → σ}
    {enough : σ → Bool} {n h : ℕ} {s : σ} (hsame : token.SameOn token' (List.range' h n)) :
    sweep src scripts visit enough n h token' s = sweep src scripts visit enough n h token s := by
  induction n generalizing h token token' s with
  | zero => rfl
  | succ n ih =>
    rw [List.range'_succ] at hsame
    cases hfired : token.fired with
    | true =>
      rw [sweep_succ_of_fired hfired, sweep_succ_of_fired (hsame.fired.trans hfired)]
    | false =>
      have hfired' : token'.fired = false := hsame.fired.trans hfired
      cases he : enough (visit h (src.probe scripts h).value s) with
      | true => rw [sweep_succ_of_enough hfired he, sweep_succ_of_enough hfired' he]
      | false =>
        rw [sweep_succ_of_not_enough hfired he, sweep_succ_of_not_enough hfired' he,
          ih (hsame.after hfired)]

theorem scanRange_congr_token {w : WatchSet} {start stop : Height}
    (hsame : token.SameOn token' (heights start stop)) :
    scanRange src w start stop token' = scanRange src w start stop token := by
  cases hw : w.isEmpty with
  | true => rw [scanRange_of_no_scripts hw, scanRange_of_no_scripts hw]
  | false =>
    rw [scanRange_of_scripts hw, scanRange_of_scripts hw, sweepRange, sweepRange,
      sweep_congr_token hsame]

theorem AddressBook.Coherent.fst_watchSet_eq {b b' : AddressBook} (h : b.Coherent)
    (h' : b'.Coherent) (hnetwork : b'.network = b.network) (ts : List String) :
    (b'.watchSet ts).1 = (b.watchSet ts).1 := by
  rw [fst_watchSet, fst_watchSet, h.fst_registerEach, h'.fst_registerEach, decode_congr hnetwork]

namespace Tracker

/-- Reads the tip, and then scans up to it for some addresses. -/
def scanUpToTip (t : Tracker) (src : Source) (start : Height) (addresses : List String)
    (token : Token) : Reply Summary :=
  match src.tip with
  | .error text => ⟨.error (.source text), [.tip], t⟩
  | .ok stop =>
    let reply := t.scan src start stop addresses token
    { reply with calls := .tip :: reply.calls }

variable {t t' : Tracker} {start stop : Height} {addresses : List String}

theorem scanUpToTip_of_error {text : String} (htip : src.tip = .error text) :
    t.scanUpToTip src start addresses token = ⟨.error (.source text), [.tip], t⟩ := by
  simp only [scanUpToTip, htip]

theorem scanUpToTip_of_ok (htip : src.tip = .ok stop) :
    t.scanUpToTip src start addresses token =
      { t.scan src start stop addresses token with
        calls := .tip :: (t.scan src start stop addresses token).calls } := by
  simp only [scanUpToTip, htip]

/-- What a scan comes to apart from the state it leaves is told by the findings. -/
theorem traced_scanWatched_congr {w : WatchSet}
    (hscan : scanRange src w start stop token' = scanRange src w start stop token) :
    (t'.scanWatched src w start stop token').traced =
      (t.scanWatched src w start stop token).traced := by
  cases h : (scanRange src w start stop token).value with
  | error e =>
    rw [scanWatched_of_error h, scanWatched_of_error (by rw [hscan, h]), hscan]
    rfl
  | ok f =>
    rw [scanWatched_of_ok h, scanWatched_of_ok (by rw [hscan, h]), hscan]
    rfl

theorem traced_scan_congr (h : t.book.Coherent) (h' : t'.book.Coherent)
    (hnetwork : t'.book.network = t.book.network)
    (hsame : token.SameOn token' (heights start stop)) :
    (t'.scan src start stop addresses token').traced =
      (t.scan src start stop addresses token).traced := by
  have hwatch := h.fst_watchSet_eq h' hnetwork addresses
  cases hw : (t.book.watchSet addresses).1 with
  | error e =>
    rw [scan_of_watchSet_error hw, scan_of_watchSet_error (hwatch.trans hw)]
    rfl
  | ok w =>
    rw [scan_of_watchSet_ok hw, scan_of_watchSet_ok (hwatch.trans hw)]
    exact traced_scanWatched_congr (scanRange_congr_token hsame)

/-- A scan up to the tip comes to the same for all trackers of a network. -/
theorem scanUpToTip_congr (h : t.book.Coherent) (h' : t'.book.Coherent)
    (hnetwork : t'.book.network = t.book.network)
    (hsame : ∀ tip, src.tip = .ok tip → token.SameOn token' (heights start tip)) :
    (t'.scanUpToTip src start addresses token').traced =
      (t.scanUpToTip src start addresses token).traced := by
  cases htip : src.tip with
  | error text =>
    rw [scanUpToTip_of_error htip, scanUpToTip_of_error htip]
    rfl
  | ok stop =>
    rw [scanUpToTip_of_ok htip, scanUpToTip_of_ok htip]
    have hscan : (t'.scan src start stop addresses token').traced =
        (t.scan src start stop addresses token).traced :=
      traced_scan_congr h h' hnetwork (hsame stop htip)
    exact congrArg (fun r : Traced (Except Failure Summary) =>
      (⟨r.value, .tip :: r.calls⟩ : Traced _)) hscan

end Tracker

end runs

/-! ### Errands -/

/-- A rescan as it was asked for. -/
structure Errand where
  id : ℕ
  start : Height
  addresses : List String
  cancelled : Bool
deriving DecidableEq, Repr

/-- The token of an errand in a run in which the hashes of the heights `asked` were asked for so
far. -/
def Errand.token (e : Errand) (stops : List Stop) (asked : List Height) : Token :=
  let heights := (stops.filter (·.id = e.id)).map (·.height)
  ⟨e.cancelled || heights.any asked.contains, heights⟩

/-- The heights whose hashes were asked for in a run. -/
def Run.asked (run : Run) : List Height := run.calls.filterMap Call.height?

/-- What an errand comes to when it follows on a run. -/
def Run.reply (src : Source) (stops : List Stop) (run : Run) (e : Errand) : Reply Summary :=
  run.tracker.scanUpToTip src e.start e.addresses (e.token stops run.asked)

/-- The run with one more errand. -/
def Run.follow (src : Source) (stops : List Stop) (run : Run) (e : Errand) : Run :=
  let reply := run.reply src stops e
  ⟨run.results ++ [(e.id, reply.result)], run.calls ++ reply.calls, reply.tracker⟩

/-- Scans for some errands one after another, each up to the tip. -/
def Tracker.carryOut (src : Source) (stops : List Stop) (t : Tracker) (es : List Errand) : Run :=
  es.foldl (Run.follow src stops) ⟨[], [], t⟩

/-- A rescan watches what the texts of an errand mean to an address book that knows them. -/
structure Rescan.Serves (r : Rescan) (e : Errand) (b : AddressBook) : Prop where
  id : r.id = e.id
  start : r.start = e.start
  cancelled : r.cancelled = e.cancelled
  watch : b.watchSet e.addresses = (.ok r.watch, b)

namespace Rescan.Serves

variable {r : Rescan} {e : Errand} {b b' : AddressBook}

theorem mono (h : r.Serves e b) (hb : b.Coherent) (hb' : b'.Coherent) (hext : b'.Extends b) :
    r.Serves e b' where
  id := h.id
  start := h.start
  cancelled := h.cancelled
  watch := by
    rw [hb.watchSet_of_extends hb' (by rw [h.watch]; exact hext), h.watch]

theorem token (h : r.Serves e b) (stops : List Stop) (asked : List Height) :
    r.token stops asked = e.token stops asked := by
  simp only [Rescan.token, Errand.token, h.id, h.cancelled]

theorem scanToTip {t : Tracker} (h : r.Serves e t.book) (src : Source) (token : Token) :
    t.scanToTip src r.watch r.start token = t.scanUpToTip src e.start e.addresses token := by
  cases htip : src.tip with
  | error text => rw [Tracker.scanToTip_of_error htip, Tracker.scanUpToTip_of_error htip]
  | ok stop =>
    rw [Tracker.scanToTip_of_ok htip, Tracker.scanUpToTip_of_ok htip,
      Tracker.scan_of_watchSet_self h.watch, h.start]

end Rescan.Serves

section carryOut

variable {src : Source} {stops : List Stop}

/-- Rescans that serve some errands carry them out. -/
theorem Run.foldl_follow {rs : List Rescan} {es : List Errand} {run : Run}
    (h : List.Forall₂ (fun r e => r.Serves e run.tracker.book) rs es) :
    es.foldl (Run.follow src stops) run =
      let rest := run.tracker.runRescans src stops run.asked rs
      ⟨run.results ++ rest.results, run.calls ++ rest.calls, rest.tracker⟩ := by
  induction rs generalizing es run with
  | nil =>
    cases h
    simp [Tracker.runRescans]
  | cons r rs ih =>
    obtain ⟨e, es, hserves, hrest, rfl⟩ := List.forall₂_cons_left_iff.mp h
    have hreply : run.reply src stops e =
        run.tracker.scanToTip src r.watch r.start (r.token stops run.asked) := by
      rw [Run.reply, ← hserves.token, ← hserves.scanToTip]
    -- The address book stays as it is, so the rescans behind this one serve their errands still.
    have hbook : (run.follow src stops e).tracker.book = run.tracker.book := by
      simp only [Run.follow, hreply]
      exact run.tracker.book_scanToTip r.watch r.start _
    rw [List.foldl_cons, ih (by rw [hbook]; exact hrest)]
    simp only [Run.follow, Run.asked, hreply, Tracker.runRescans, List.filterMap_append,
      List.append_assoc, List.singleton_append, hserves.id]

theorem Run.results_foldl_follow (src : Source) (stops : List Stop) (es : List Errand)
    (run : Run) :
    ∃ rest, (es.foldl (Run.follow src stops) run).results = run.results ++ rest ∧
      rest.length = es.length := by
  induction es generalizing run with
  | nil => exact ⟨[], by simp⟩
  | cons e es ih =>
    obtain ⟨rest, hrest, hlength⟩ := ih (run.follow src stops e)
    refine ⟨(e.id, (run.reply src stops e).result) :: rest, ?_, congrArg Nat.succ hlength⟩
    rw [List.foldl_cons, hrest, Run.follow, List.append_assoc]
    rfl

theorem Tracker.length_results_carryOut (t : Tracker) (src : Source) (stops : List Stop)
    (es : List Errand) : (t.carryOut src stops es).results.length = es.length := by
  obtain ⟨rest, hrest, hlength⟩ := Run.results_foldl_follow src stops es ⟨[], [], t⟩
  rw [carryOut, hrest, List.nil_append, hlength]

theorem Tracker.getElem?_results_carryOut (t : Tracker) (src : Source) (stops : List Stop)
    {es : List Errand} {n : ℕ} {e : Errand} (he : es[n]? = some e) :
    (t.carryOut src stops es).results[n]? =
      some (e.id, ((t.carryOut src stops (es.take n)).reply src stops e).result) := by
  obtain ⟨hn, rfl⟩ := List.getElem?_eq_some_iff.mp he
  have hsplit : es = es.take n ++ es[n] :: es.drop (n + 1) := by
    rw [← List.drop_eq_getElem_cons hn, List.take_append_drop]
  have hlength : (t.carryOut src stops (es.take n)).results.length = n := by
    rw [t.length_results_carryOut, List.length_take_of_le (Nat.le_of_lt hn)]
  obtain ⟨rest, hrest, _⟩ := Run.results_foldl_follow src stops (es.drop (n + 1))
    ((t.carryOut src stops (es.take n)).follow src stops es[n])
  conv_lhs => rw [hsplit, carryOut, List.foldl_append, List.foldl_cons, ← carryOut, hrest]
  rw [Run.follow, List.append_assoc, List.getElem?_append_right (by omega), hlength, Nat.sub_self]
  rfl

theorem Tracker.carryOut_take_succ (t : Tracker) (src : Source) (stops : List Stop)
    {es : List Errand} {n : ℕ} {e : Errand} (he : es[n]? = some e) :
    t.carryOut src stops (es.take (n + 1)) =
      (t.carryOut src stops (es.take n)).follow src stops e := by
  rw [carryOut, List.take_add_one, he, List.foldl_append, ← carryOut]
  rfl

end carryOut

/-! ### Histories of a session -/

/-- What may happen to a session: a request, over the chain behind the source as it is then, an
inquiry to the address book, or a change to the ledger. -/
inductive Event where
  | request (src : Source) (r : Request)
  | inquiry (q : Inquiry)
  | write (change : Ledger → Ledger)

namespace Session

/-- The session after an event. -/
def undergo (s : Session) : Event → Session
  | .request src r => s.perform src r
  | .inquiry q => { s with tracker := { s.tracker with book := s.tracker.book.ask q } }
  | .write change => { s with tracker := { s.tracker with ledger := change s.tracker.ledger } }

/-- The session after some events. -/
def undergoAll (s : Session) (events : List Event) : Session := events.foldl undergo s

/-- The errands that wait after an event, if these waited before it: a rescan that starts leaves one
behind the others, and a run leaves none. -/
def errandsAfter (s : Session) (es : List Errand) : Event → List Errand
  | .request _ (.startRescan runtime start addresses) =>
    match (s.startRescan runtime start addresses).1 with
    | .ok id => es ++ [⟨id, start, addresses, false⟩]
    | .error _ => es
  | .request _ (.cancel id) => es.map fun e => if e.id = id then { e with cancelled := true } else e
  | .request _ (.runPending _) => []
  | _ => es

/-- The errands that wait after some events. -/
def errands : Session → List Errand → List Event → List Errand
  | _, es, [] => es
  | s, es, event :: events => errands (s.undergo event) (s.errandsAfter es event) events

variable {s : Session} {es : List Errand}

theorem id_of_startRescan {runtime : Bool} {start : Height} {addresses : List String} {id : ℕ}
    (h : (s.startRescan runtime start addresses).1 = .ok id) : id = s.started := by
  obtain ⟨rfl, w, hw, hne, _⟩ := startRescan_of_ok h
  simp only [startRescan, hw, hne, Bool.not_true, Bool.false_eq_true, if_false] at h
  exact (Except.ok.inj h).symm

/-- The address book is coherent, and the rescans that wait serve the errands. -/
structure Serving (s : Session) (es : List Errand) : Prop where
  coherent : s.tracker.book.Coherent
  pending : List.Forall₂ (fun r e => r.Serves e s.tracker.book) s.pending es

theorem extends_undergo (h : s.tracker.book.Coherent) (event : Event) :
    (s.undergo event).tracker.book.Coherent ∧
      (s.undergo event).tracker.book.Extends s.tracker.book := by
  cases event with
  | request src r =>
    rw [undergo, book_perform]
    exact ⟨(h.registerEach r.texts).1, (h.registerEach r.texts).2.1⟩
  | inquiry q =>
    simp only [undergo, AddressBook.ask_eq]
    exact ⟨(h.registerEach q.texts).1, (h.registerEach q.texts).2.1⟩
  | write change => exact ⟨h, .refl _⟩

/-- The rescans that wait go on serving their errands while the address book grows. -/
theorem Serving.pending_of_extends (h : s.Serving es) {b : AddressBook} (hb : b.Coherent)
    (hext : b.Extends s.tracker.book) :
    List.Forall₂ (fun r e => r.Serves e b) s.pending es :=
  h.pending.imp fun _ _ hserves => hserves.mono h.coherent hb hext

/-- Whatever happens, the rescans that wait serve the errands that wait. -/
theorem Serving.undergo (h : s.Serving es) (event : Event) :
    (s.undergo event).Serving (s.errandsAfter es event) := by
  obtain ⟨hcoherent, hext⟩ := extends_undergo h.coherent event
  have hold := h.pending_of_extends hcoherent hext
  refine ⟨hcoherent, ?_⟩
  cases event with
  | inquiry | write => exact hold
  | request src r =>
    cases r with
    | watch | coins | scan | lookup | lookupToTip => exact hold
    | runPending => exact .nil
    | cancel id =>
      refine List.forall₂_map_left_iff.mpr (List.forall₂_map_right_iff.mpr (hold.imp ?_))
      intro r e hserves
      by_cases he : e.id = id
      · rw [if_pos he, if_pos (hserves.id.trans he)]
        exact ⟨hserves.id, hserves.start, rfl, hserves.watch⟩
      · rw [if_neg he, if_neg fun hr => he (hserves.id.symm.trans hr)]
        exact hserves
    | startRescan runtime start addresses =>
      simp only [Session.undergo, perform, errandsAfter] at hold hcoherent ⊢
      cases hid : (s.startRescan runtime start addresses).1 with
      | error e =>
        rw [startRescan_of_error hid] at hold ⊢
        exact hold
      | ok id =>
        have hnumber := id_of_startRescan hid
        obtain ⟨rfl, w, hw, _, hs⟩ := startRescan_of_ok hid
        rw [hs] at hold hcoherent ⊢
        refine List.rel_append hold (.cons ⟨hnumber.symm, rfl, rfl, ?_⟩ .nil)
        have hagain := h.coherent.watchSet_of_extends hcoherent (.refl _)
        rw [hw] at hagain
        exact hagain

theorem Serving.undergoAll (h : s.Serving es) (events : List Event) :
    (s.undergoAll events).Serving (s.errands es events) ∧
      (s.undergoAll events).tracker.book.network = s.tracker.book.network := by
  induction events generalizing s es with
  | nil => exact ⟨h, rfl⟩
  | cons event events ih =>
    obtain ⟨hserving, hnetwork⟩ := ih (h.undergo event)
    exact ⟨hserving, hnetwork.trans (extends_undergo h.coherent event).2.network⟩

theorem serving_new (config : Config) : (new config).Serving [] where
  coherent := AddressBook.coherent_empty config.network
  pending := .nil

/-- A run of the rescans that wait carries out the errands that wait, and does so at every turn. -/
theorem Serving.carryOut_take (h : s.Serving es) (src : Source) (stops : List Stop) (n : ℕ) :
    s.tracker.carryOut src stops (es.take n) =
      s.tracker.runRescans src stops [] (s.pending.take n) := by
  have hrun : s.tracker.carryOut src stops (es.take n) = _ :=
    Run.foldl_follow (List.forall₂_take n h.pending)
  simp only [Run.asked, List.filterMap_nil, List.nil_append] at hrun
  exact hrun

theorem Serving.runPending_eq (h : s.Serving es) (src : Source) (stops : List Stop) :
    s.runPending src stops =
      let run := s.tracker.carryOut src stops es
      (run.results, run.calls, { s with tracker := run.tracker, pending := [] }) := by
  have hrun := h.carryOut_take src stops es.length
  rw [List.take_length, ← h.pending.length_eq, List.take_length] at hrun
  rw [runPending, hrun]

theorem Serving.book_carryOut (h : s.Serving es) (src : Source) (stops : List Stop) (n : ℕ) :
    (s.tracker.carryOut src stops (es.take n)).tracker.book = s.tracker.book := by
  rw [h.carryOut_take]
  exact s.tracker.book_runRescans stops [] _

theorem Serving.exists_pending (h : s.Serving es) {n : ℕ} {e : Errand} (he : es[n]? = some e) :
    ∃ r, s.pending[n]? = some r ∧ r.Serves e s.tracker.book := by
  obtain ⟨hn, rfl⟩ := List.getElem?_eq_some_iff.mp he
  have hr : n < s.pending.length := by rwa [h.pending.length_eq]
  exact ⟨s.pending[n], List.getElem?_eq_getElem hr, h.pending.get hr hn⟩

/-- **A rescan in the background comes to what a scan at its turn comes to.**  After any history of
a session, the run of the rescans that wait gives the results, makes the calls and leaves the
tracker that come of scanning for their errands one after another, each up to the tip.  The rescan
at the place of an errand then watches what the texts of the errand mean to the address book.  What
the errand comes to is told by the chain, the errand and the token alone: it comes to the same for
every other tracker of the network, whatever is watched and held there, and with every token that
fires at the same heights. -/
theorem runPending_eq_carryOut (config : Config) (history : List Event) (src : Source)
    (stops : List Stop) :
    let s := (new config).undergoAll history
    let errands := (new config).errands [] history
    let whole := s.tracker.carryOut src stops errands
    s.runPending src stops =
      (whole.results, whole.calls, { s with tracker := whole.tracker, pending := [] }) ∧
    ∀ n e, errands[n]? = some e →
      let run := s.tracker.carryOut src stops (errands.take n)
      let reply := run.reply src stops e
      (s.runPending src stops).1[n]? = some (e.id, reply.result) ∧
      (∃ r, s.pending[n]? = some r ∧ r.Serves e run.tracker.book) ∧
      ∀ t : Tracker, t.book.Coherent → t.book.network = config.network → ∀ token,
        (∀ tip, src.tip = .ok tip →
          (e.token stops run.asked).SameOn token (heights e.start tip)) →
        (t.scanUpToTip src e.start e.addresses token).traced = reply.traced := by
  intro s errands whole
  obtain ⟨hserving, hnetwork⟩ := (serving_new config).undergoAll history
  have hrun : s.runPending src stops = _ := hserving.runPending_eq src stops
  refine ⟨hrun, fun n e he => ⟨?_, ?_, fun t ht hnet token hsame => ?_⟩⟩
  · rw [hrun]
    exact s.tracker.getElem?_results_carryOut src stops he
  · rw [hserving.book_carryOut src stops n]
    exact hserving.exists_pending he
  · have hbook := hserving.book_carryOut src stops n
    refine Tracker.scanUpToTip_congr ?_ ht ?_ hsame
    · rw [hbook]
      exact hserving.coherent
    · rw [hbook]
      exact hnet.trans hnetwork.symm

end Session

namespace Sample

/-- Between two rescans for one address the address book is asked and the ledger is written. -/
def busy : List Event :=
  [.request source (.startRescan true 1 [address]), .inquiry (.register capitals),
    .write fun l => l.insert ⟨⟨fundingId, 1⟩, 700, "second", script 2, 1⟩,
    .request source (.startRescan true 2 [capitals])]

/-- The second rescan is cancelled when the second height is asked for. -/
def stops : List Stop := [⟨2, 1⟩]

def firstErrand : Errand := ⟨0, 1, [address], false⟩

def secondErrand : Errand := ⟨1, 2, [capitals], false⟩

theorem errands_busy : session.errands [] busy = [firstErrand, secondErrand] := by
  decide +kernel

theorem token_firstErrand (asked : List Height) : firstErrand.token stops asked = .never := rfl

theorem token_secondErrand : secondErrand.token stops
    ((session.undergoAll busy).tracker.carryOut source stops
      ([firstErrand, secondErrand].take 1)).asked = ⟨true, [2]⟩ := by
  decide +kernel

/-- What becomes of the rescan from the first height: one coin is created, and two outpoints are
spent. -/
def firstSummary : Summary := ⟨1, 3, 1, 2, [], 2⟩

theorem result_firstErrand : (session.tracker.scanUpToTip source firstErrand.start
    firstErrand.addresses .never).result = .ok firstSummary := by
  decide +kernel

theorem result_secondErrand : (session.tracker.scanUpToTip source secondErrand.start
    secondErrand.addresses .alreadyFired).result = .error (.cancelled 2) := by
  decide +kernel

/-- The first rescan comes to what a scan by itself comes to, and it cancels the second one. -/
theorem cancelled_by_the_first :
    ((session.undergoAll busy).runPending source stops).1[0]? = some (0, .ok firstSummary) ∧
      ((session.undergoAll busy).runPending source stops).1[1]? =
        some (1, .error (.cancelled 2)) := by
  have hbook : session.tracker.book.Coherent := AddressBook.coherent_empty .regtest
  obtain ⟨_, heach⟩ := Session.runPending_eq_carryOut ⟨.regtest, 0⟩ busy source stops
  rw [show Session.new ⟨.regtest, 0⟩ = session from rfl] at heach
  rw [errands_busy] at heach
  obtain ⟨hfirst, _, hsame⟩ := heach 0 firstErrand rfl
  obtain ⟨hsecond, _, hsame'⟩ := heach 1 secondErrand rfl
  rw [token_firstErrand] at hsame
  rw [token_secondErrand] at hsame'
  have hreply := hsame session.tracker hbook rfl .never fun _ _ => ⟨rfl, fun _ _ _ => .rfl⟩
  have hreply' := hsame' session.tracker hbook rfl .alreadyFired fun _ _ =>
    ⟨rfl, fun hfired => nomatch hfired⟩
  have hresult := congrArg Traced.value hreply
  have hresult' := congrArg Traced.value hreply'
  simp only [Reply.value_traced] at hresult hresult'
  rw [← hresult, result_firstErrand] at hfirst
  rw [← hresult', result_secondErrand] at hsecond
  exact ⟨hfirst, hsecond⟩

end Sample

end CoinWatch
