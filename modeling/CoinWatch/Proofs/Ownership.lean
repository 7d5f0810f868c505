import CoinWatch.Proofs.Registration
import CoinWatch.Proofs.Requests

/-! # Who owns what is held

The ledger is asked by owner, and filled by script.  The two agree because of what every run of a
session keeps (`Session.Sound`): the address book is coherent, each script that a waiting rescan
watches belongs to a registered address, and so does each coin of the ledger.  What a request
registers only adds to the book (`book_perform`), so what was owned stays owned, also while the
chain behind the source changes.

So a query by address is one by script (`coins_owned_performOver`): it lists each held coin once
whose script one of the given texts stands for, in whatever spelling. -/

namespace CoinWatch

/-- Every script of the watch set is that of a registered address, which owns it. -/
def WatchSet.OwnedIn (w : WatchSet) (b : AddressBook) : Prop :=
  ∀ s c, w.owner? s = some c → b.scripts[c]? = some s

/-- Every coin is filed under its outpoint, and its script is that of its registered address. -/
def Ledger.OwnedIn (l : Ledger) (b : AddressBook) : Prop :=
  ∀ o c, l.get o = some c → c.outpoint = o ∧ b.scripts[c.address]? = some c.script

section owned

variable {b b' : AddressBook} {w : WatchSet} {l : Ledger} {src : Source}

theorem AddressBook.Extends.getElem?_scripts {c : String} {s : Script} (hext : b'.Extends b)
    (h : b.Coherent) (h' : b'.Coherent) (hs : b.scripts[c]? = some s) :
    b'.scripts[c]? = some s := by
  refine h'.getElem?_scripts (t := c)
    (hext.scripts c (Std.ExtTreeMap.getElem?_eq_some_iff.mp hs).1) ?_
  rw [hext.network]
  exact h.scripts c s hs

theorem WatchSet.OwnedIn.mono (hw : w.OwnedIn b) (hext : b'.Extends b) (h : b.Coherent)
    (h' : b'.Coherent) : w.OwnedIn b' :=
  fun s c hc => hext.getElem?_scripts h h' (hw s c hc)

theorem Ledger.OwnedIn.mono (hl : l.OwnedIn b) (hext : b'.Extends b) (h : b.Coherent)
    (h' : b'.Coherent) : l.OwnedIn b' :=
  fun o c hc => ⟨(hl o c hc).1, hext.getElem?_scripts h h' (hl o c hc).2⟩

theorem AddressBook.Coherent.ownedIn_watchSet (h : b.Coherent) {ts : List String}
    (hw : (b.watchSet ts).1 = .ok w) : w.OwnedIn (b.watchSet ts).2 := by
  intro s c hc
  obtain ⟨t, ht, hread⟩ := (h.owner?_of_watchSet hw).mp hc
  obtain ⟨ps, hps, _⟩ := watchSet_eq_ok hw
  have hmem : (⟨c, s⟩ : Payee) ∈ ps := by
    rw [mem_of_mapM_decode ((h.fst_registerEach ts).symm.trans hps)]
    exact ⟨t, ht, hread⟩
  exact (h.registerEach ts).2.2 ps hps ⟨c, s⟩ hmem

theorem Ledger.OwnedIn.enterAll (hl : l.OwnedIn b) {ps : List Pass}
    (hps : ∀ p ∈ ps, p.watch.OwnedIn b) : (l.enterAll src ps).OwnedIn b := by
  intro o c hc
  rcases Ledger.get_enterAll_eq_some hc with ⟨p, hp, hlatest⟩ | hold
  · obtain ⟨ho, howner⟩ := WatchSet.owner?_of_latest? hlatest
    exact ⟨ho, hps p hp c.script c.address howner⟩
  · exact hl o c hold

end owned

/-! ### What requests do to the address book -/

/-- The texts that a request registers. -/
def Request.texts : Request → List String
  | .watch address => [address]
  | .coins addresses => addresses
  | .scan _ _ addresses _ => addresses
  | .startRescan true _ addresses => addresses
  | _ => []

namespace Tracker

variable {src : Source} (t : Tracker)

theorem book_scanWatched (w : WatchSet) (start stop : Height) (token : Token) :
    (t.scanWatched src w start stop token).tracker.book = t.book := by
  cases h : (scanRange src w start stop token).value with
  | error e => rw [scanWatched_of_error h]
  | ok f => rw [scanWatched_of_ok h]

theorem book_scanToTip (w : WatchSet) (start : Height) (token : Token) :
    (t.scanToTip src w start token).tracker.book = t.book := by
  cases htip : src.tip with
  | error text => rw [scanToTip_of_error htip]
  | ok stop =>
    rw [scanToTip_of_ok htip]
    exact t.book_scanWatched w start stop token

theorem book_runRescans (stops : List Stop) (asked : List Height) (rs : List Rescan) :
    (t.runRescans src stops asked rs).tracker.book = t.book := by
  induction rs generalizing t asked with
  | nil => rfl
  | cons r rs ih =>
    unfold runRescans
    simp only [ih, book_scanToTip]

theorem book_scan (start stop : Height) (addresses : List String) (token : Token) :
    (t.scan src start stop addresses token).tracker.book = (t.book.watchSet addresses).2 := by
  cases hw : (t.book.watchSet addresses).1 with
  | error e => rw [scan_of_watchSet_error hw]
  | ok w => rw [scan_of_watchSet_ok hw, book_scanWatched]

theorem watch_of_mem_passesOf {results : List (ℕ × Except Failure Summary)} {rs : List Rescan}
    {p : Pass} (h : p ∈ passesOf results rs) : ∃ r ∈ rs, p.watch = r.watch := by
  induction rs generalizing results with
  | nil => cases results <;> simp [passesOf] at h
  | cons r rs ih =>
    cases results with
    | nil => simp [passesOf] at h
    | cons x results =>
      obtain ⟨id, result⟩ := x
      rcases List.mem_append.mp h with h | h
      · cases result with
        | error e => simp [Pass.ofResult?] at h
        | ok summary =>
          obtain rfl : p = ⟨r.watch, summary.start, summary.stop⟩ := by
            simpa [Pass.ofResult?] using h
          exact ⟨r, List.mem_cons_self, rfl⟩
      · obtain ⟨r', hr', hp⟩ := ih h
        exact ⟨r', List.mem_cons_of_mem r hr', hp⟩

end Tracker

namespace Session

variable {src : Source} {s : Session}

variable {runtime : Bool} {start : Height} {addresses : List String}

/-- A rescan that starts has a runtime and something to watch, and waits behind the others. -/
theorem startRescan_of_ok {id : ℕ} (h : (s.startRescan runtime start addresses).1 = .ok id) :
    runtime = true ∧ ∃ w, (s.tracker.book.watchSet addresses).1 = .ok w ∧ w.isEmpty = false ∧
      (s.startRescan runtime start addresses).2 =
        ⟨{ s.tracker with book := (s.tracker.book.watchSet addresses).2 },
          s.pending ++ [⟨s.started, start, w, false⟩], s.started + 1⟩ := by
  cases runtime with
  | false => cases h
  | true =>
    refine ⟨rfl, ?_⟩
    simp only [startRescan, Bool.not_true, Bool.false_eq_true, if_false] at h ⊢
    cases hw : (s.tracker.book.watchSet addresses).1 with
    | error e =>
      simp only [hw] at h
      cases h
    | ok w =>
      simp only [hw] at h ⊢
      cases hempty : w.isEmpty with
      | true =>
        simp only [hempty, if_true] at h
        cases h
      | false => exact ⟨w, rfl, hempty, rfl⟩

/-- A rescan that does not start leaves at most new addresses in the book. -/
theorem startRescan_of_error {e : Failure}
    (h : (s.startRescan runtime start addresses).1 = .error e) :
    (s.startRescan runtime start addresses).2 = { s with tracker := { s.tracker with
      book := if runtime then (s.tracker.book.watchSet addresses).2 else s.tracker.book } } := by
  cases runtime with
  | false => rfl
  | true =>
    simp only [startRescan, Bool.not_true, Bool.false_eq_true, if_false, if_true] at h ⊢
    cases hw : (s.tracker.book.watchSet addresses).1 with
    | error e' => rfl
    | ok w =>
      simp only [hw] at h ⊢
      cases hempty : w.isEmpty with
      | true => simp only [if_true]
      | false =>
        simp only [hempty, Bool.false_eq_true, if_false] at h
        cases h

theorem book_startRescan (s : Session) (runtime : Bool) (start : Height) (addresses : List String) :
    (s.startRescan runtime start addresses).2.tracker.book =
      if runtime then (s.tracker.book.watchSet addresses).2 else s.tracker.book := by
  cases h : (s.startRescan runtime start addresses).1 with
  | error e => rw [startRescan_of_error h]
  | ok id =>
    obtain ⟨rfl, w, _, _, hs⟩ := startRescan_of_ok h
    rw [hs]
    rfl

/-- A request registers its texts, and does nothing else to the address book. -/
theorem book_perform (s : Session) (src : Source) (r : Request) :
    (s.perform src r).tracker.book = (s.tracker.book.registerEach r.texts).2 := by
  cases r with
  | watch address =>
    show (s.tracker.book.register address).2 = _
    cases hr : (s.tracker.book.register address).1 with
    | error e => rw [Request.texts, AddressBook.registerEach_cons_of_error hr]
    | ok p =>
      rw [Request.texts, AddressBook.registerEach_cons_of_ok hr]
      rfl
  | coins | lookup | lookupToTip | cancel => rfl
  | scan start stop addresses token =>
    exact s.tracker.book_scan start stop addresses token
  | startRescan runtime start addresses =>
    unfold perform
    rw [book_startRescan]
    cases runtime <;> rfl
  | runPending stops => exact s.tracker.book_runRescans stops [] s.pending

/-! ### What every run keeps -/

/-- The address book is coherent, and it knows an owner for all that is held or waited for. -/
structure Sound (s : Session) : Prop where
  coherent : s.tracker.book.Coherent
  pending : ∀ r ∈ s.pending, r.watch.OwnedIn s.tracker.book
  held : s.tracker.ledger.OwnedIn s.tracker.book

theorem sound_new (config : Config) : (new config).Sound where
  coherent := AddressBook.coherent_empty config.network
  pending r hr := nomatch hr
  held o c hc := by
    rw [show (new config).tracker.ledger = .empty from rfl, Ledger.get_empty] at hc
    cases hc

theorem Sound.coherent_perform (h : s.Sound) (src : Source) (r : Request) :
    (s.perform src r).tracker.book.Coherent ∧
      (s.perform src r).tracker.book.Extends s.tracker.book := by
  rw [book_perform]
  exact ⟨(h.coherent.registerEach r.texts).1, (h.coherent.registerEach r.texts).2.1⟩

theorem Sound.owned_passes (h : s.Sound) {r : Request} {p : Pass} (hp : p ∈ s.passes src r) :
    p.watch.OwnedIn (s.perform src r).tracker.book := by
  cases r with
  | watch | coins | lookup | lookupToTip | startRescan | cancel => cases hp
  | scan start stop addresses token =>
    rw [show (s.perform src (.scan start stop addresses token)).tracker.book =
      (s.tracker.book.watchSet addresses).2 from s.tracker.book_scan start stop addresses token]
    simp only [passes] at hp
    cases hw : (s.tracker.book.watchSet addresses).1 with
    | error e =>
      rw [hw] at hp
      cases hp
    | ok w =>
      rw [hw] at hp
      have hpw : p.watch = w := by
        cases hresult : (s.tracker.scan src start stop addresses token).result with
        | error e => simp [hresult, Pass.ofResult?] at hp
        | ok summary =>
          obtain rfl : p = ⟨w, summary.start, summary.stop⟩ := by
            simpa [hresult, Pass.ofResult?] using hp
          rfl
      rw [hpw]
      exact h.coherent.ownedIn_watchSet hw
  | runPending stops =>
    obtain ⟨r, hr, hpr⟩ := Tracker.watch_of_mem_passesOf hp
    rw [show (s.perform src (.runPending stops)).tracker.book = s.tracker.book from
      s.tracker.book_runRescans stops [] s.pending, hpr]
    exact h.pending r hr

/-- The rescans that wait after a request waited before, or are for the request's own watch set. -/
theorem Sound.owned_pending (h : s.Sound) {r : Request} {x : Rescan}
    (hx : x ∈ (s.perform src r).pending) : x.watch.OwnedIn (s.perform src r).tracker.book := by
  obtain ⟨hcoherent, hext⟩ := h.coherent_perform src r
  have hold : ∀ y ∈ s.pending, y.watch.OwnedIn (s.perform src r).tracker.book :=
    fun y hy => (h.pending y hy).mono hext h.coherent hcoherent
  cases r with
  | watch | coins | scan | lookup | lookupToTip => exact hold x hx
  | runPending stops => cases hx
  | cancel id =>
    obtain ⟨y, hy, rfl⟩ := List.mem_map.mp hx
    split
    · exact hold y hy
    · exact hold y hy
  | startRescan runtime start addresses =>
    have hx : x ∈ (s.startRescan runtime start addresses).2.pending := hx
    cases hr : (s.startRescan runtime start addresses).1 with
    | error e =>
      rw [startRescan_of_error hr] at hx
      exact hold x hx
    | ok id =>
      obtain ⟨rfl, w, hw, _, hs⟩ := startRescan_of_ok hr
      rw [hs] at hx
      rcases List.mem_append.mp hx with hx | hx
      · exact hold x hx
      · obtain rfl := List.mem_singleton.mp hx
        rw [show (s.perform src (.startRescan true start addresses)).tracker.book =
          (s.tracker.book.watchSet addresses).2 from s.book_startRescan true start addresses]
        exact h.coherent.ownedIn_watchSet hw

/-- A request keeps a session sound. -/
theorem Sound.perform (h : s.Sound) (src : Source) (r : Request) : (s.perform src r).Sound where
  coherent := (h.coherent_perform src r).1
  pending x hx := h.owned_pending hx
  held := by
    obtain ⟨hcoherent, hext⟩ := h.coherent_perform src r
    rw [ledger_perform]
    exact (h.held.mono hext h.coherent hcoherent).enterAll fun p hp => h.owned_passes hp

/-- The session after some requests, each with the chain behind the source as it is then. -/
def performOver (s : Session) (rs : List (Source × Request)) : Session :=
  rs.foldl (fun s (src, r) => s.perform src r) s

theorem Sound.performOver (h : s.Sound) (rs : List (Source × Request)) :
    (s.performOver rs).Sound ∧
      (s.performOver rs).tracker.book.network = s.tracker.book.network := by
  induction rs generalizing s with
  | nil => exact ⟨h, rfl⟩
  | cons x rs ih =>
    obtain ⟨hsound, hnetwork⟩ := ih (h.perform x.1 x.2)
    exact ⟨hsound, hnetwork.trans (h.coherent_perform x.1 x.2).2.network⟩

end Session

/-! ### Coins by owner and by script -/

theorem Tracker.result_coins (t : Tracker) (addresses : List String) :
    (t.coins addresses).result = (t.book.registerAll addresses).1.map t.ledger.query := rfl

theorem Tracker.coins_isOk_iff {t : Tracker} (h : t.book.Coherent) {addresses : List String} :
    (∃ us, (t.coins addresses).result = .ok us) ↔
      ∀ a ∈ addresses, ∃ p, Address.canonicalize t.book.network a = .ok p := by
  rw [← AddressBook.mapM_decode_isOk_iff, t.result_coins, h.fst_registerAll]
  simp only [map_eq_ok_iff]
  constructor
  · rintro ⟨_, _, ⟨ps, hps, _⟩, _⟩
    exact ⟨ps, hps⟩
  · rintro ⟨ps, hps⟩
    exact ⟨_, _, ⟨ps, hps, rfl⟩, rfl⟩

/-- Over a coherent book, a coin is owned by one of some addresses if its script is that of one. -/
theorem Ledger.OwnedIn.mem_coins {t : Tracker} (hheld : t.ledger.OwnedIn t.book)
    (h : t.book.Coherent) {addresses : List String} {us : List Coin}
    (hus : (t.coins addresses).result = .ok us) :
    us.Nodup ∧ ∀ u, u ∈ us ↔ (∃ k, t.ledger.get k = some u) ∧
      ∃ a ∈ addresses, ∃ p, Address.canonicalize t.book.network a = .ok p ∧
        p.script = u.script := by
  rw [t.result_coins] at hus
  obtain ⟨owners, howners, rfl⟩ := map_eq_ok_iff.mp hus
  refine ⟨Ledger.nodup_query (fun o c hc => (hheld o c hc).1) owners, fun u => ?_⟩
  rw [Ledger.mem_query, h.mem_owners_iff howners]
  apply and_congr_right
  rintro ⟨k, hk⟩
  have hself := h.scripts u.address u.script (hheld k u hk).2
  constructor
  · rintro ⟨a, ha, p, hread, hp⟩
    refine ⟨a, ha, p, hread, ?_⟩
    have hown := Address.canonicalize_address hread
    rw [hp, hself] at hown
    exact congrArg Payee.script (Except.ok.inj hown).symm
  · rintro ⟨a, ha, p, hread, hp⟩
    refine ⟨a, ha, p, hread, ?_⟩
    rw [Address.eq_of_canonicalize hread hself hp]

/-- **What is held is owned, and asking by address is asking by script.**  After any requests, over
any sources, each held coin is filed under its outpoint and belongs to a registered address that
stands for its script.  A list of texts is answered if each is an address, and then with each held
coin once whose script one of them stands for. -/
theorem Session.coins_owned_performOver (config : Config) (rs : List (Source × Request)) :
    let s := (Session.new config).performOver rs
    (∀ k u, s.tracker.ledger.get k = some u →
      k = u.outpoint ∧ u.address ∈ s.tracker.book.addresses ∧
        Address.canonicalize config.network u.address = .ok ⟨u.address, u.script⟩) ∧
    ∀ addresses,
      ((∃ us, (s.tracker.coins addresses).result = .ok us) ↔
        ∀ a ∈ addresses, ∃ p, Address.canonicalize config.network a = .ok p) ∧
      ∀ us, (s.tracker.coins addresses).result = .ok us →
        us.Nodup ∧ ∀ u, u ∈ us ↔ (∃ k, s.tracker.ledger.get k = some u) ∧
          ∃ a ∈ addresses, ∃ p, Address.canonicalize config.network a = .ok p ∧
            p.script = u.script := by
  intro s
  obtain ⟨hsound, hnetwork⟩ := (Session.sound_new config).performOver rs
  have hnet : s.tracker.book.network = config.network := hnetwork
  rw [← hnet]
  refine ⟨fun k u hk => ?_, fun addresses => ⟨Tracker.coins_isOk_iff hsound.coherent, ?_⟩⟩
  · obtain ⟨ho, hscript⟩ := hsound.held k u hk
    refine ⟨ho.symm, ?_, hsound.coherent.scripts u.address u.script hscript⟩
    exact Std.ExtTreeMap.mem_keys.mpr (Std.ExtTreeMap.getElem?_eq_some_iff.mp hscript).1
  · exact fun us hus => hsound.held.mem_coins hsound.coherent hus

namespace Sample

/-- The same address in upper case. -/
def capitals : String := "BCRT1QQYQSZQGPQYQSZQGPQYQSZQGPQYQSZQGPVXAT9T"

/-- The range is scanned for the address in upper case. -/
def shouted : List (Source × Request) := [(source, .scan 1 3 [capitals] .never)]

theorem canonicalize_address : Address.canonicalize .regtest address = .ok ⟨address, script 1⟩ := by
  decide +kernel

theorem held_after_scan :
    (session.performOver shouted).tracker.ledger.get ⟨fundingId, 2⟩ =
      some ⟨⟨fundingId, 2⟩, 300, address, script 1, 1⟩ := by
  decide +kernel

theorem canonicalize_capitals :
    Address.canonicalize .regtest capitals = .ok ⟨address, script 1⟩ := by
  decide +kernel

/-- In either spelling, and listed in both, the address is answered with its coin, once. -/
theorem listed_in_any_spelling :
    ∃ us, ((session.performOver shouted).tracker.coins [address, capitals]).result = .ok us ∧
      us.Nodup ∧ ⟨⟨fundingId, 2⟩, 300, address, script 1, 1⟩ ∈ us := by
  have hcoins := (Session.coins_owned_performOver ⟨.regtest, 0⟩ shouted).2
  rw [show Session.new ⟨.regtest, 0⟩ = session from rfl] at hcoins
  obtain ⟨hok, hlist⟩ := hcoins [address, capitals]
  have hread : ∀ a ∈ [address, capitals],
      ∃ p, Address.canonicalize .regtest a = .ok p ∧ p.script = script 1 := by
    intro a ha
    rcases List.mem_pair.mp ha with rfl | rfl
    · exact ⟨_, canonicalize_address, rfl⟩
    · exact ⟨_, canonicalize_capitals, rfl⟩
  obtain ⟨us, hus⟩ := hok.mpr fun a ha => (hread a ha).imp fun p hp => hp.1
  obtain ⟨hnodup, hmem⟩ := hlist us hus
  have hlisted : address ∈ [address, capitals] := List.mem_cons_self
  refine ⟨us, hus, hnodup, (hmem _).mpr ⟨⟨⟨fundingId, 2⟩, ?_⟩, address, hlisted, ?_⟩⟩
  · exact held_after_scan
  · exact hread address hlisted

end Sample

end CoinWatch
