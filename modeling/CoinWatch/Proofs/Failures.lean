import CoinWatch.Proofs.Cancellation
import CoinWatch.Proofs.Ownership

/-! # What failed requests leave

A request may be refused before the source is asked for anything (`Failure.isRefusal`), and it may
fail later: when the tip is not to be had, when it is cancelled, or when a lookup finds nothing.
Either way the ledger is as it was before, and of what the request listed, the addresses before the
first invalid one are watched (`FailsClean`).  This is shown of every request of a session, and of
every rescan that waits to be run.

A lookup looks at its address, then at its transaction, then for the tip, and only then at heights.
`LookupFails` lists its failures in this order, each with all that went well before it.  Everything
together is `Session.perform_of_failure`. -/

namespace CoinWatch

/-- Whether a request that fails so is refused for what it asks, without a look at the source. -/
def Failure.isRefusal : Failure → Bool
  | invalidAddress .. | missingAddress | invalidTxid .. | noScripts | noRuntime => true
  | _ => false

/-- A failure is a refusal and comes before any call, the lack of a runtime even before any text is
registered, or it comes when all the texts are. -/
def Failure.Staged (e : Failure) (b : AddressBook) (texts : List String) (made : List Call) :
    Prop :=
  (e.isRefusal = true ∧ made = [] ∧ (e = .noRuntime → texts = [])) ∨
    (e.isRefusal = false ∧ ∃ ps, (b.registerEach texts).1 = .ok ps)

/-! ### Failures of the parts -/

section parts

variable {src : Source} {start stop : Height} {token : Token} {e : Failure}

theorem lookup_of_error {target : OutPoint} {script : Script}
    (h : (lookup src target script start stop token).value = .error e) :
    (∃ k, e = .cancelled k) ∨ e = .notFound target start := by
  rw [lookup, Traced.map_value] at h
  cases hs : (sweepRange src [script] (Sighting.visit target) Sighting.isSpent start stop token
      .unseen).value with
  | error e' =>
    rw [hs] at h
    obtain rfl := Except.error.inj h
    exact .inl (sweep_of_error hs)
  | ok s =>
    rw [hs] at h
    cases s with
    | unseen => exact .inr (Except.error.inj h).symm
    | created output k => cases h
    | spent txid input k => cases h

end parts

namespace AddressBook

variable {b : AddressBook} {ts : List String}

/-- Nothing but an invalid address makes a registration fail. -/
theorem registerEach_of_error {e : Failure} (h : (b.registerEach ts).1 = .error e) :
    ∃ t fault, e = .invalidAddress t fault := by
  induction ts generalizing b with
  | nil => cases h
  | cons t ts ih =>
    cases hr : (b.register t).1 with
    | error e' =>
      rw [registerEach_cons_of_error hr] at h
      obtain rfl := Except.error.inj h
      obtain ⟨fault, _, he⟩ := decode_eq_error_iff.mp (register_of_error hr).1
      exact ⟨t, fault, he⟩
    | ok p =>
      rw [registerEach_cons_of_ok hr] at h
      exact ih (map_eq_error_iff.mp h)

theorem Coherent.accepted_of_registerEach (hb : b.Coherent) {ps : List Payee}
    (h : (b.registerEach ts).1 = .ok ps) : Address.accepted b.network ts = ts :=
  mapM_decode_isOk_iff_accepted.mp ⟨ps, (hb.fst_registerEach ts).symm.trans h⟩

theorem resolve_of_error {t : String} {e : Failure} (h : b.resolve t = .error e) :
    ∃ fault, e = .invalidAddress t fault := by
  unfold resolve at h
  cases hp : b.payee? t with
  | some p =>
    rw [hp] at h
    cases h
  | none =>
    rw [hp] at h
    obtain ⟨fault, _, he⟩ := decode_eq_error_iff.mp (map_eq_error_iff.mp h)
    exact ⟨fault, he⟩

end AddressBook

namespace Tracker

variable {src : Source} {t : Tracker} {txid address : String} {vout : UInt32} {start stop : Height}
  {token : Token} {w : WatchSet} {e : Failure}

/-- What a lookup is asked about is refused before the source is asked for anything. -/
theorem target_of_error (h : t.target txid vout address = .error e) : e.isRefusal = true := by
  unfold target at h
  split at h
  · obtain rfl := Except.error.inj h
    rfl
  · cases hr : t.book.resolve address with
    | error e' =>
      obtain ⟨fault, rfl⟩ := AddressBook.resolve_of_error hr
      rw [hr] at h
      obtain rfl := Except.error.inj h
      rfl
    | ok script =>
      rw [hr] at h
      cases hid : Hash256.parse txid with
      | ok id =>
        simp only [hid] at h
        cases h
      | error fault =>
        simp only [hid] at h
        obtain rfl := Except.error.inj h
        rfl

theorem coins_of_error {addresses : List String} (h : (t.coins addresses).result = .error e) :
    e.Staged t.book addresses (t.coins addresses).calls := by
  rw [result_coins, map_eq_error_iff] at h
  obtain ⟨text, fault, rfl⟩ := AddressBook.registerEach_of_error (map_eq_error_iff.mp h)
  exact .inl ⟨rfl, rfl, by simp⟩

theorem scan_of_error {addresses : List String}
    (h : (t.scan src start stop addresses token).result = .error e) :
    e.Staged t.book addresses (t.scan src start stop addresses token).calls := by
  cases hw : (t.book.watchSet addresses).1 with
  | error e' =>
    rw [scan_of_watchSet_error hw] at h ⊢
    obtain rfl := Except.error.inj h
    obtain ⟨text, fault, rfl⟩ := AddressBook.registerEach_of_error (map_eq_error_iff.mp hw)
    exact .inl ⟨rfl, rfl, by simp⟩
  | ok w =>
    obtain ⟨ps, hps, _⟩ := AddressBook.watchSet_eq_ok hw
    rw [scan_of_watchSet_ok hw] at h ⊢
    cases hs : (scanRange src w start stop token).value with
    | ok f =>
      rw [scanWatched_of_ok hs] at h
      cases h
    | error e' =>
      rw [scanWatched_of_error hs] at h ⊢
      obtain rfl := Except.error.inj h
      rcases scanRange_of_error hs with ⟨_, rfl, hcalls⟩ | ⟨_, k, rfl⟩
      · exact .inl ⟨rfl, hcalls, by simp⟩
      · exact .inr ⟨rfl, ps, hps⟩

theorem lookup_of_error (h : (t.lookup src txid vout address start stop token).value = .error e) :
    e.Staged t.book [] (t.lookup src txid vout address start stop token).calls := by
  cases htarget : t.target txid vout address with
  | error e' =>
    simp only [Tracker.lookup, htarget] at h ⊢
    obtain rfl := Except.error.inj h
    exact .inl ⟨target_of_error htarget, rfl, fun _ => rfl⟩
  | ok x =>
    simp only [Tracker.lookup, htarget] at h
    rcases CoinWatch.lookup_of_error h with ⟨k, rfl⟩ | rfl
    · exact .inr ⟨rfl, [], rfl⟩
    · exact .inr ⟨rfl, [], rfl⟩

theorem lookupToTip_of_error (h : (t.lookupToTip src txid vout address start).value = .error e) :
    e.Staged t.book [] (t.lookupToTip src txid vout address start).calls := by
  cases htarget : t.target txid vout address with
  | error e' =>
    simp only [lookupToTip, htarget] at h ⊢
    obtain rfl := Except.error.inj h
    exact .inl ⟨target_of_error htarget, rfl, fun _ => rfl⟩
  | ok x =>
    simp only [lookupToTip, htarget, Traced.bind_value, Source.askTip] at h
    cases htip : src.tip with
    | error text =>
      simp only [htip] at h
      obtain rfl := Except.error.inj h
      exact .inr ⟨rfl, [], rfl⟩
    | ok stop =>
      simp only [htip] at h
      rcases CoinWatch.lookup_of_error h with ⟨k, rfl⟩ | rfl
      · exact .inr ⟨rfl, [], rfl⟩
      · exact .inr ⟨rfl, [], rfl⟩

/-- A rescan that fails leaves the tracker as it is, whenever it runs. -/
theorem tracker_scanToTip_of_error (h : (t.scanToTip src w start token).result = .error e) :
    (t.scanToTip src w start token).tracker = t := by
  cases htip : src.tip with
  | error text => rw [scanToTip_of_error htip]
  | ok stop =>
    rw [scanToTip_of_ok htip] at h ⊢
    cases hs : (scanRange src w start stop token).value with
    | ok f =>
      rw [scanWatched_of_ok hs] at h
      cases h
    | error e' => rw [scanWatched_of_error hs]

theorem isRefusal_of_scanToTip (hw : w.isEmpty = false)
    (h : (t.scanToTip src w start token).result = .error e) : e.isRefusal = false := by
  cases htip : src.tip with
  | error text =>
    rw [scanToTip_of_error htip] at h
    obtain rfl := Except.error.inj h
    rfl
  | ok stop =>
    rw [scanToTip_of_ok htip] at h
    cases hs : (scanRange src w start stop token).value with
    | ok f =>
      rw [scanWatched_of_ok hs] at h
      cases h
    | error e' =>
      rw [scanWatched_of_error hs] at h
      obtain rfl := Except.error.inj h
      rcases scanRange_of_error hs with ⟨hempty, _⟩ | ⟨_, k, rfl⟩
      · exact absurd (hw.symm.trans hempty) Bool.false_ne_true
      · rfl

/-- Rescans that all fail leave the tracker as it was before the first of them. -/
theorem tracker_runRescans_of_error {stops : List Stop} {asked : List Height} {rs : List Rescan}
    (h : ∀ x ∈ (t.runRescans src stops asked rs).results, ∃ e, x.2 = .error e) :
    (t.runRescans src stops asked rs).tracker = t := by
  induction rs generalizing t asked with
  | nil => rfl
  | cons r rs ih =>
    unfold runRescans at h ⊢
    obtain ⟨⟨e, he⟩, hrest⟩ := List.forall_mem_cons.mp h
    rw [ih hrest, tracker_scanToTip_of_error he]

end Tracker

/-! ### What is left -/

/-- Between a request that listed some texts and its failure, after the calls `made`, a tracker
changes in its address book only. -/
structure FailsClean (t t' : Tracker) (texts : List String) (e : Failure) (made : List Call) :
    Prop where
  ledger : t'.ledger = t.ledger
  /-- A refusal comes before any call. -/
  calls : e.isRefusal = true → made = []
  /-- For the lack of a runtime nothing is done. -/
  untouched : e = .noRuntime → t'.book = t.book
  /-- The addresses before the first invalid one are watched, besides those that were before. -/
  addresses : t.book.Coherent → ∀ c, c ∈ t'.book.addresses ↔ c ∈ t.book.addresses ∨
    ∃ a ∈ Address.accepted t.book.network texts, Address.Spells t.book.network a c
  /-- What fails later than by a refusal has had all its addresses registered. -/
  all : t.book.Coherent → e.isRefusal = false → Address.accepted t.book.network texts = texts

theorem FailsClean.of_registerEach {t t' : Tracker} {texts : List String} {e : Failure}
    {made : List Call} (hledger : t'.ledger = t.ledger)
    (hbook : t'.book = (t.book.registerEach texts).2)
    (hstaged : e.Staged t.book texts made) : FailsClean t t' texts e made := by
  refine ⟨hledger, fun hrefusal => ?_, fun he => ?_, fun h c => ?_, fun h hlate => ?_⟩
  · rcases hstaged with ⟨_, hmade, _⟩ | ⟨hlate, _⟩
    · exact hmade
    · exact absurd (hrefusal.symm.trans hlate) Bool.noConfusion
  · rcases hstaged with ⟨_, _, hnone⟩ | ⟨hlate, _⟩
    · rw [hbook, hnone he]
      rfl
    · rw [he] at hlate
      cases hlate
  · rw [hbook]
    unfold AddressBook.addresses
    rw [Std.ExtTreeMap.mem_keys, Std.ExtTreeMap.mem_keys, h.mem_scripts_registerEach]
  · rcases hstaged with ⟨hrefusal, _⟩ | ⟨_, ps, hps⟩
    · exact absurd (hrefusal.symm.trans hlate) Bool.noConfusion
    · exact h.accepted_of_registerEach hps

/-- A run that only tells whether it went well. -/
def Traced.settled {α : Type} (r : Traced (Except Failure α)) : Traced (Except Failure Unit) :=
  ⟨r.value.map fun _ => (), r.calls⟩

theorem Traced.settled_eq_error_iff {α : Type} {r : Traced (Except Failure α)} {e : Failure} :
    r.settled.value = .error e ↔ r.value = .error e := map_eq_error_iff

namespace Session

/-- How a request ends for the one who makes it, and the calls that it makes by then. -/
def outcome (s : Session) (src : Source) : Request → Traced (Except Failure Unit)
  | .watch address => (s.tracker.watch address).traced.settled
  | .coins addresses => (s.tracker.coins addresses).traced.settled
  | .scan start stop addresses token =>
    (s.tracker.scan src start stop addresses token).traced.settled
  | .lookup txid vout address start stop token =>
    (s.tracker.lookup src txid vout address start stop token).settled
  | .lookupToTip txid vout address start =>
    (s.tracker.lookupToTip src txid vout address start).settled
  | .startRescan runtime start addresses =>
    Traced.settled ⟨(s.startRescan runtime start addresses).1, []⟩
  | .cancel _ => pure (.ok ())
  | .runPending stops => ⟨.ok (), (s.runPending src stops).2.1⟩

variable {s : Session} {src : Source}

theorem startRescan_staged {runtime : Bool} {start : Height} {addresses : List String}
    {e : Failure} (h : (s.startRescan runtime start addresses).1 = .error e) :
    e.Staged s.tracker.book (Request.startRescan runtime start addresses).texts [] := by
  cases runtime with
  | false =>
    obtain rfl := Except.error.inj h
    exact .inl ⟨rfl, rfl, fun _ => rfl⟩
  | true =>
    simp only [startRescan, Bool.not_true, Bool.false_eq_true, if_false] at h
    cases hw : (s.tracker.book.watchSet addresses).1 with
    | error e' =>
      obtain ⟨text, fault, rfl⟩ := AddressBook.registerEach_of_error (map_eq_error_iff.mp hw)
      simp only [hw] at h
      obtain rfl := Except.error.inj h
      exact .inl ⟨rfl, rfl, by simp⟩
    | ok w =>
      simp only [hw] at h
      split at h
      · obtain rfl := Except.error.inj h
        exact .inl ⟨rfl, rfl, by simp⟩
      · cases h

theorem staged_of_outcome {r : Request} {e : Failure} (h : (s.outcome src r).value = .error e) :
    e.Staged s.tracker.book r.texts (s.outcome src r).calls := by
  cases r with
  | watch address =>
    obtain ⟨fault, _, rfl⟩ := AddressBook.decode_eq_error_iff.mp
      (AddressBook.register_of_error (Traced.settled_eq_error_iff.mp h)).1
    exact .inl ⟨rfl, rfl, by simp⟩
  | coins addresses =>
    exact Tracker.coins_of_error (Traced.settled_eq_error_iff.mp h)
  | scan start stop addresses token =>
    exact Tracker.scan_of_error (Traced.settled_eq_error_iff.mp h)
  | lookup txid vout address start stop token =>
    exact Tracker.lookup_of_error (Traced.settled_eq_error_iff.mp h)
  | lookupToTip txid vout address start =>
    exact Tracker.lookupToTip_of_error (Traced.settled_eq_error_iff.mp h)
  | startRescan runtime start addresses =>
    exact startRescan_staged (Traced.settled_eq_error_iff.mp h)
  | cancel id => cases h
  | runPending stops => cases h

theorem passes_of_outcome {r : Request} {e : Failure} (h : (s.outcome src r).value = .error e) :
    s.passes src r = [] := by
  cases r with
  | watch | coins | lookup | lookupToTip | startRescan | cancel => rfl
  | scan start stop addresses token =>
    have hresult : (s.tracker.scan src start stop addresses token).result = .error e :=
      Traced.settled_eq_error_iff.mp h
    simp only [passes, hresult]
    cases (s.tracker.book.watchSet addresses).1 <;> rfl
  | runPending stops => cases h

theorem failsClean_perform {r : Request} {e : Failure} (h : (s.outcome src r).value = .error e) :
    FailsClean s.tracker (s.perform src r).tracker r.texts e (s.outcome src r).calls := by
  refine .of_registerEach ?_ (s.book_perform src r) (staged_of_outcome h)
  rw [ledger_perform, passes_of_outcome h]
  rfl

/-- A rescan that fails right after it was started leaves what its start has left. -/
theorem failsClean_rescan {start : Height} {addresses : List String} {w : WatchSet}
    {token : Token} {e : Failure} (hw : (s.tracker.book.watchSet addresses).1 = .ok w)
    (hne : w.isEmpty = false) {t : Tracker}
    (ht : t = { s.tracker with book := (s.tracker.book.watchSet addresses).2 })
    (h : (t.scanToTip src w start token).result = .error e) :
    FailsClean s.tracker (t.scanToTip src w start token).tracker addresses e
      (t.scanToTip src w start token).calls := by
  obtain ⟨ps, hps, _⟩ := AddressBook.watchSet_eq_ok hw
  refine .of_registerEach ?_ ?_ (.inr ⟨Tracker.isRefusal_of_scanToTip hne h, ps, hps⟩)
  · rw [Tracker.tracker_scanToTip_of_error h, ht]
  · rw [Tracker.tracker_scanToTip_of_error h, ht]
    rfl

end Session

/-! ### The order in which a lookup fails -/

/-- Why a lookup fails that goes up to the height `last`, if that is to be had: each case is what
comes to light when none of the cases before it did. -/
inductive LookupFails (network : Network) (src : Source) (txid : String) (vout : UInt32)
    (address : String) (start : Height) (last : Except String Height) (token : Token) :
    Failure → Prop
  | missingAddress (hempty : address.isEmpty = true) :
      LookupFails network src txid vout address start last token .missingAddress
  | invalidAddress {fault : AddressFault} (hempty : address.isEmpty = false)
      (haddress : Address.canonicalize network address = .error fault) :
      LookupFails network src txid vout address start last token (.invalidAddress address fault)
  | invalidTxid {p : Payee} {fault : HashFault} (hempty : address.isEmpty = false)
      (haddress : Address.canonicalize network address = .ok p)
      (htxid : Hash256.parse txid = .error fault) :
      LookupFails network src txid vout address start last token (.invalidTxid txid fault)
  | source {p : Payee} {id : Txid} {text : String} (hempty : address.isEmpty = false)
      (haddress : Address.canonicalize network address = .ok p)
      (htxid : Hash256.parse txid = .ok id) (hlast : last = .error text) :
      LookupFails network src txid vout address start last token (.source text)
  | cancelled {p : Payee} {id : Txid} {stop k : Height} (hempty : address.isEmpty = false)
      (haddress : Address.canonicalize network address = .ok p)
      (htxid : Hash256.parse txid = .ok id) (hlast : last = .ok stop)
      (hlookup : (lookup src ⟨id, vout⟩ p.script start stop token).value =
        .error (.cancelled k)) :
      LookupFails network src txid vout address start last token (.cancelled k)
  | notFound {p : Payee} {id : Txid} {stop : Height} (hempty : address.isEmpty = false)
      (haddress : Address.canonicalize network address = .ok p)
      (htxid : Hash256.parse txid = .ok id) (hlast : last = .ok stop)
      (hlookup : (lookup src ⟨id, vout⟩ p.script start stop token).value =
        .error (.notFound ⟨id, vout⟩ start)) :
      LookupFails network src txid vout address start last token (.notFound ⟨id, vout⟩ start)

namespace Tracker

variable {src : Source} {t : Tracker} {txid address : String} {vout : UInt32} {start : Height}
  {last : Except String Height} {token : Token} {e : Failure}

/-- What a lookup answers that goes up to `last`. -/
def answer (t : Tracker) (src : Source) (txid : String) (vout : UInt32) (address : String)
    (start : Height) (last : Except String Height) (token : Token) : Except Failure SpendReport :=
  match t.target txid vout address with
  | .error e => .error e
  | .ok (target, script) =>
    match last with
    | .error text => .error (.source text)
    | .ok stop => (CoinWatch.lookup src target script start stop token).value

theorem value_lookup (stop : Height) :
    (t.lookup src txid vout address start stop token).value =
      t.answer src txid vout address start (.ok stop) token := by
  unfold Tracker.lookup answer
  rcases t.target txid vout address with e | ⟨target, script⟩ <;> rfl

theorem value_lookupToTip :
    (t.lookupToTip src txid vout address start).value =
      t.answer src txid vout address start src.tip .never := by
  unfold lookupToTip answer
  rcases t.target txid vout address with e | ⟨target, script⟩
  · rfl
  · simp only [Traced.bind_value, Source.askTip]
    cases src.tip <;> rfl

/-- The texts of a lookup are read as if there were no address book. -/
theorem target_eq (h : t.book.Coherent) (hempty : address.isEmpty = false) :
    t.target txid vout address =
      match Address.canonicalize t.book.network address, Hash256.parse txid with
      | .error fault, _ => .error (.invalidAddress address fault)
      | .ok _, .error fault => .error (.invalidTxid txid fault)
      | .ok p, .ok id => .ok (⟨id, vout⟩, p.script) := by
  rw [target, if_neg (by simp [hempty]), h.resolve_eq, AddressBook.decode]
  cases Address.canonicalize t.book.network address with
  | error fault => rfl
  | ok p => cases Hash256.parse txid <;> rfl

/-- A lookup fails with the first failure that comes to light. -/
theorem answer_eq_error_iff (h : t.book.Coherent) :
    t.answer src txid vout address start last token = .error e ↔
      LookupFails t.book.network src txid vout address start last token e := by
  unfold answer
  cases hempty : address.isEmpty with
  | true =>
    have htarget : t.target txid vout address = .error .missingAddress := by
      rw [target, if_pos hempty]
    rw [htarget]
    constructor
    · intro he
      obtain rfl := Except.error.inj he
      exact .missingAddress hempty
    · rintro (_ | ⟨hne, _⟩ | ⟨hne, _⟩ | ⟨hne, _⟩ | ⟨hne, _⟩ | ⟨hne, _⟩)
      · rfl
      all_goals exact absurd (hempty.symm.trans hne) Bool.noConfusion
  | false =>
    rw [target_eq h hempty]
    constructor
    · intro he
      cases haddress : Address.canonicalize t.book.network address with
      | error fault =>
        simp only [haddress] at he
        obtain rfl := Except.error.inj he
        exact .invalidAddress hempty haddress
      | ok p =>
        cases htxid : Hash256.parse txid with
        | error fault =>
          simp only [haddress, htxid] at he
          obtain rfl := Except.error.inj he
          exact .invalidTxid hempty haddress htxid
        | ok id =>
          simp only [haddress, htxid] at he
          cases hlast : last with
          | error text =>
            simp only [hlast] at he
            obtain rfl := Except.error.inj he
            exact .source hempty haddress htxid rfl
          | ok stop =>
            simp only [hlast] at he
            rcases CoinWatch.lookup_of_error he with ⟨k, rfl⟩ | rfl
            · exact .cancelled hempty haddress htxid rfl he
            · exact .notFound hempty haddress htxid rfl he
    · rintro (hne | ⟨_, haddress⟩ | ⟨_, haddress, htxid⟩ | ⟨_, haddress, htxid, rfl⟩ |
        ⟨_, haddress, htxid, rfl, he⟩ | ⟨_, haddress, htxid, rfl, he⟩)
      · exact absurd (hne.symm.trans hempty) Bool.noConfusion
      all_goals simp only [*]

end Tracker

/-! ### Every request -/

/-- **What failed requests leave.**  Whatever a session is asked for, a failure leaves the ledger as
it was, makes no calls if it is a refusal, and leaves watched what it listed before the first
invalid address: all of it, unless it is a refusal.  A rescan that has started watches all that it
listed, and whenever it runs and fails, it changes nothing more; nor do rescans that fail one after
another.  A lookup, up to the tip or up to a height of its own, fails with the first failure that
comes to light.  What is said of addresses needs a coherent book, as every book is that began empty
(`AddressBook.Knows.askAll`, `Session.Sound.coherent_perform`). -/
theorem Session.perform_of_failure (s : Session) (src : Source) :
    (∀ r e, (s.outcome src r).value = .error e →
      FailsClean s.tracker (s.perform src r).tracker r.texts e (s.outcome src r).calls) ∧
    (∀ runtime start addresses id s',
      s.startRescan runtime start addresses = (.ok id, s') →
        ∃ w, s'.pending = s.pending ++ [⟨s.started, start, w, false⟩] ∧ ∀ token e,
          ((s'.tracker.scanToTip src w start token).result = .error e →
            FailsClean s.tracker (s'.tracker.scanToTip src w start token).tracker addresses e
              (s'.tracker.scanToTip src w start token).calls) ∧
          ∀ t : Tracker, (t.scanToTip src w start token).result = .error e →
            (t.scanToTip src w start token).tracker = t ∧ e.isRefusal = false) ∧
    (∀ stops, (∀ x ∈ (s.runPending src stops).1, ∃ e, x.2 = .error e) →
      (s.runPending src stops).2.2.tracker = s.tracker) ∧
    (s.tracker.book.Coherent → ∀ txid vout address start e,
      ((s.tracker.lookupToTip src txid vout address start).value = .error e ↔
        LookupFails s.tracker.book.network src txid vout address start src.tip .never e) ∧
      ∀ stop token, (s.tracker.lookup src txid vout address start stop token).value = .error e ↔
        LookupFails s.tracker.book.network src txid vout address start (.ok stop) token e) := by
  refine ⟨fun r e h => failsClean_perform h, fun runtime start addresses id s' h => ?_,
    fun stops h => Tracker.tracker_runRescans_of_error h,
    fun h txid vout address start e => ⟨?_, fun stop token => ?_⟩⟩
  · obtain ⟨_, w, hw, hne, hstarted⟩ := startRescan_of_ok (congrArg Prod.fst h)
    rw [h] at hstarted
    obtain rfl : s' = _ := hstarted
    exact ⟨w, rfl, fun token e => ⟨failsClean_rescan hw hne rfl, fun t hfails =>
      ⟨Tracker.tracker_scanToTip_of_error hfails, Tracker.isRefusal_of_scanToTip hne hfails⟩⟩⟩
  · rw [Tracker.value_lookupToTip, Tracker.answer_eq_error_iff h]
  · rw [Tracker.value_lookup, Tracker.answer_eq_error_iff h]

namespace Sample

/-- A list whose second text is invalid. -/
def faulty : Request := .scan 1 3 [address, "?", capitals] .never

theorem refused_at_second : (session.outcome source faulty).value =
    .error (.invalidAddress "?" .badBase58) := by
  decide +kernel

theorem accepted_before_second :
    address ∈ Address.accepted .regtest [address, "?", capitals] := by
  decide +kernel

theorem missing_address : (session.tracker.lookupToTip source "x" 0 "" 1).value =
    .error .missingAddress := by
  decide +kernel

/-- The scan makes no calls, enters nothing, and keeps the first address, and the lookup does not
come to its invalid transaction. -/
theorem kept_first_address : (session.outcome source faulty).calls = [] ∧
    (session.perform source faulty).tracker.ledger = session.tracker.ledger ∧
    address ∈ (session.perform source faulty).tracker.book.addresses ∧
    LookupFails .regtest source "x" 0 "" 1 source.tip .never .missingAddress := by
  have hbook : session.tracker.book.Coherent := AddressBook.coherent_empty .regtest
  obtain ⟨hrequests, _, _, hlookups⟩ := session.perform_of_failure source
  have hclean := hrequests faulty _ refused_at_second
  refine ⟨hclean.calls rfl, hclean.ledger, ?_, ?_⟩
  · rw [hclean.addresses hbook]
    exact .inr ⟨address, accepted_before_second, ⟨address, script 1⟩, canonicalize_address, rfl⟩
  · exact (hlookups hbook "x" 0 "" 1 .missingAddress).1.mp missing_address

end Sample

end CoinWatch
