import CoinWatch.Proofs.FilterQueries
import CoinWatch.Proofs.Ownership

/-! # What scans and queries are indifferent to

Two trackers may have come to the same ledger in different ways, with other addresses registered, in
other spellings and in another order, and be asked about the same addresses in different words.  Of
all this nothing shows (`Tracker.scan_eq_of_same_addresses`).  The watch set is told by the
addresses that are meant (`AddressBook.Coherent.watchSet_eq`), since each script of it has one owner, and the
walk over the heights sees no more of the watch set than which scripts are in it, whatever the order
in which they are handed to the filters (`scanRangeIn_eq`). -/

namespace CoinWatch

/-! ### Watch sets of the same addresses -/

theorem WatchSet.ext_owner? {w w' : WatchSet} (h : ∀ s, w.owner? s = w'.owner? s) : w = w' := by
  cases w
  cases w'
  congr 1
  exact Std.ExtTreeMap.ext_getElem? h

/-- A text of the list stands for a payee if one spells its address, and the address stands for
it. -/
theorem Address.exists_canonicalize_iff {network : Network} {ts : List String} {c : String}
    {s : Script} :
    (∃ t ∈ ts, canonicalize network t = .ok ⟨c, s⟩) ↔
      (∃ t ∈ ts, Spells network t c) ∧ canonicalize network c = .ok ⟨c, s⟩ := by
  constructor
  · rintro ⟨t, ht, hread⟩
    exact ⟨⟨t, ht, ⟨c, s⟩, hread, rfl⟩, canonicalize_address hread⟩
  · rintro ⟨⟨t, ht, p, hread, hpc⟩, hself⟩
    rw [← hpc, canonicalize_address hread] at hself
    rw [← hpc, ← Except.ok.inj hself]
    exact ⟨t, ht, hread⟩

namespace AddressBook

variable {b b' : AddressBook} {ts ts' : List String}

/-- Lists that mean the same addresses have one watch set, whatever was registered before. -/
theorem Coherent.watchSet_eq (h : b.Coherent) (h' : b'.Coherent) (hnetwork : b'.network = b.network)
    (hts : ∀ t ∈ ts, ∃ p, Address.canonicalize b.network t = .ok p)
    (hts' : ∀ t ∈ ts', ∃ p, Address.canonicalize b.network t = .ok p)
    (hsame : ∀ c, (∃ t ∈ ts', Address.Spells b.network t c) ↔
      ∃ t ∈ ts, Address.Spells b.network t c) :
    ∃ w, (b.watchSet ts).1 = .ok w ∧ (b'.watchSet ts').1 = .ok w := by
  rw [← hnetwork] at hts'
  obtain ⟨ps, hps⟩ := mapM_decode_isOk_iff.mpr hts
  obtain ⟨ps', hps'⟩ := mapM_decode_isOk_iff.mpr hts'
  have hw := h.fst_watchSet_of_mapM hps
  have hw' := h'.fst_watchSet_of_mapM hps'
  refine ⟨_, hw, ?_⟩
  rw [hw']
  congr 1
  apply WatchSet.ext_owner?
  intro s
  apply Option.ext
  intro c
  rw [h.owner?_of_watchSet hw, h'.owner?_of_watchSet hw', hnetwork,
    Address.exists_canonicalize_iff, Address.exists_canonicalize_iff, hsame]

theorem Coherent.registerAll_eq (h : b.Coherent) (h' : b'.Coherent)
    (hnetwork : b'.network = b.network)
    (hts : ∀ t ∈ ts, ∃ p, Address.canonicalize b.network t = .ok p)
    (hts' : ∀ t ∈ ts', ∃ p, Address.canonicalize b.network t = .ok p)
    (hsame : ∀ c, (∃ t ∈ ts', Address.Spells b.network t c) ↔
      ∃ t ∈ ts, Address.Spells b.network t c) :
    ∃ owners owners', (b.registerAll ts).1 = .ok owners ∧ (b'.registerAll ts').1 = .ok owners' ∧
      ∀ c, c ∈ owners' ↔ c ∈ owners := by
  rw [← hnetwork] at hts'
  obtain ⟨ps, hps⟩ := mapM_decode_isOk_iff.mpr hts
  obtain ⟨ps', hps'⟩ := mapM_decode_isOk_iff.mpr hts'
  have howners : (b.registerAll ts).1 = .ok (ps.map (·.address)).eraseDups := by
    rw [h.fst_registerAll, hps]
    rfl
  have howners' : (b'.registerAll ts').1 = .ok (ps'.map (·.address)).eraseDups := by
    rw [h'.fst_registerAll, hps']
    rfl
  refine ⟨_, _, howners, howners', fun c => ?_⟩
  rw [h.mem_owners_iff howners, h'.mem_owners_iff howners', hnetwork, hsame]

end AddressBook

theorem Ledger.query_congr {owners owners' : List String} (h : ∀ c, c ∈ owners' ↔ c ∈ owners)
    (l : Ledger) : l.query owners' = l.query owners := by
  unfold Ledger.query
  congr 1
  funext c
  rw [Bool.eq_iff_iff, List.contains_iff_mem, List.contains_iff_mem, h]

/-! ### Scans that hand on the scripts in any order -/

section sweep

variable {σ : Type} {src : Source} {scripts scripts' : List Script}
  {visit : Height → Probe → σ → σ} {enough : σ → Bool}

theorem sweepRange_congr (h : ∀ s, s ∈ scripts' ↔ s ∈ scripts) (start stop : Height)
    (token : Token) (s : σ) :
    sweepRange src scripts' visit enough start stop token s =
      sweepRange src scripts visit enough start stop token s :=
  sweep_congr (fun k => congrArg Traced.calls (src.probe_congr h k))
    (fun k s => by rw [src.probe_congr h k]) (rangeSize start stop) start token s

end sweep

/-- The order in which a watch set hands on its scripts does not show. -/
theorem scanRangeIn_eq {order : WatchSet → List Script} (h : ∀ w, (order w).Perm w.scripts)
    (src : Source) (w : WatchSet) (start stop : Height) (token : Token) :
    scanRangeIn order src w start stop token = scanRange src w start stop token := by
  unfold scanRange scanRangeIn
  rw [sweepRange_congr fun s => (h w).mem_iff]

namespace Tracker

theorem scanIn_eq {order : WatchSet → List Script} (h : ∀ w, (order w).Perm w.scripts)
    (t : Tracker) (src : Source) (start stop : Height) (addresses : List String) (token : Token) :
    t.scanIn order src start stop addresses token = t.scan src start stop addresses token := by
  unfold scan scanIn scanWatchedIn
  simp only [scanRangeIn_eq h]
  rfl

/-- What a scan for a watch set does apart from the address book is told by the ledger. -/
theorem scanWatched_congr {t t' : Tracker} (h : t'.ledger = t.ledger) (src : Source) (w : WatchSet)
    (start stop : Height) (token : Token) :
    (t'.scanWatched src w start stop token).result = (t.scanWatched src w start stop token).result ∧
      (t'.scanWatched src w start stop token).calls = (t.scanWatched src w start stop token).calls ∧
      (t'.scanWatched src w start stop token).tracker.ledger =
        (t.scanWatched src w start stop token).tracker.ledger := by
  cases hscan : (scanRange src w start stop token).value with
  | error e =>
    rw [scanWatched_of_error hscan, scanWatched_of_error hscan]
    exact ⟨rfl, rfl, h⟩
  | ok f =>
    rw [scanWatched_of_ok hscan, scanWatched_of_ok hscan, h]
    exact ⟨rfl, rfl, rfl⟩

/-- **Spellings, order, repetition and history do not show.**  Two trackers of one network have
equal ledgers, and address books that are coherent, as every book is that began empty
(`AddressBook.Knows.askAll`).  Each is given a list of addresses, in which the same canonical
spellings are meant.  Then a scan of the same range with the same token gives the same result, makes
the same calls and leaves the same ledger, in whatever order a watch set hands its scripts to the
filters, and the coins of the two lists are the same. -/
theorem scan_eq_of_same_addresses {t t' : Tracker} (h : t.book.Coherent) (h' : t'.book.Coherent)
    (hnetwork : t'.book.network = t.book.network) (hledger : t'.ledger = t.ledger)
    {addresses addresses' : List String}
    (hvalid : ∀ a ∈ addresses, ∃ p, Address.canonicalize t.book.network a = .ok p)
    (hvalid' : ∀ a ∈ addresses', ∃ p, Address.canonicalize t.book.network a = .ok p)
    (hsame : ∀ c, (∃ a ∈ addresses', Address.Spells t.book.network a c) ↔
      ∃ a ∈ addresses, Address.Spells t.book.network a c) (src : Source) :
    (∀ order order' : WatchSet → List Script, (∀ w, (order w).Perm w.scripts) →
      (∀ w, (order' w).Perm w.scripts) → ∀ start stop token,
        (t'.scanIn order' src start stop addresses' token).result =
            (t.scanIn order src start stop addresses token).result ∧
          (t'.scanIn order' src start stop addresses' token).calls =
            (t.scanIn order src start stop addresses token).calls ∧
          (t'.scanIn order' src start stop addresses' token).tracker.ledger =
            (t.scanIn order src start stop addresses token).tracker.ledger ∧
          t.scanIn order src start stop addresses token = t.scan src start stop addresses token) ∧
    ∃ us, (t.coins addresses).result = .ok us ∧ (t'.coins addresses').result = .ok us := by
  refine ⟨fun order order' horder horder' start stop token => ?_, ?_⟩
  · obtain ⟨w, hw, hw'⟩ := h.watchSet_eq h' hnetwork hvalid hvalid' hsame
    rw [scanIn_eq horder, scanIn_eq horder', scan_of_watchSet_ok hw, scan_of_watchSet_ok hw']
    have hledger' : ({ t' with book := (t'.book.watchSet addresses').2 } : Tracker).ledger =
        ({ t with book := (t.book.watchSet addresses).2 } : Tracker).ledger := hledger
    obtain ⟨hresult, hcalls, hledgers⟩ := scanWatched_congr hledger' src w start stop token
    exact ⟨hresult, hcalls, hledgers, rfl⟩
  · obtain ⟨owners, owners', howners, howners', hmem⟩ :=
      h.registerAll_eq h' hnetwork hvalid hvalid' hsame
    refine ⟨t.ledger.query owners, ?_, ?_⟩
    · rw [result_coins, howners]
      rfl
    · rw [result_coins, howners', hledger]
      show Except.ok (t.ledger.query owners') = _
      rw [Ledger.query_congr hmem]

end Tracker

namespace Sample

theorem spells_either {a c : String} (ha : a ∈ [capitals, address]) :
    Address.Spells .regtest a c ↔ address = c := by
  rcases List.mem_pair.mp ha with rfl | rfl
  · exact Address.spells_iff canonicalize_capitals
  · exact Address.spells_iff canonicalize_address

theorem valid_either : ∀ a ∈ [capitals, address], ∃ p, Address.canonicalize .regtest a = .ok p := by
  intro a ha
  obtain ⟨p, hp, _⟩ := (spells_either ha).mpr rfl
  exact ⟨p, hp⟩

/-- The tracker once the address is watched in upper case. -/
def informed : Tracker :=
  { session.tracker with book := (session.tracker.book.register capitals).2 }

theorem coherent_session : session.tracker.book.Coherent := AddressBook.coherent_empty .regtest

theorem book_informed : informed.book = (session.tracker.book.register capitals).2 := by
  simp only [informed]

theorem coherent_informed :
    informed.book.Coherent ∧ informed.book.Extends session.tracker.book := by
  obtain ⟨hcoherent, hextends, _⟩ := coherent_session.register capitals
  rw [book_informed]
  exact ⟨hcoherent, hextends⟩

/-- One tracker knows the address in upper case and is asked about it in lower case, with the
scripts handed on from the last to the first; the other knows nothing and is asked about both spellings. -/
theorem same_in_any_spelling :
    (informed.scanIn (fun w => w.scripts.reverse) source 1 3 [address] (.firingAt 2)).result =
        (session.tracker.scan source 1 3 [capitals, address] (.firingAt 2)).result ∧
      (informed.coins [address]).result = (session.tracker.coins [capitals, address]).result := by
  have hsame : ∀ c, (∃ a ∈ [address], Address.Spells .regtest a c) ↔
      ∃ a ∈ [capitals, address], Address.Spells .regtest a c := by
    intro c
    constructor
    · rintro ⟨a, ha, hspells⟩
      exact ⟨a, List.mem_cons_of_mem _ ha, hspells⟩
    · rintro ⟨a, ha, hspells⟩
      have hlisted : address ∈ [capitals, address] := List.mem_cons_of_mem _ List.mem_cons_self
      have hsame := (spells_either ha).mp hspells
      exact ⟨address, List.mem_cons_self, (spells_either hlisted).mpr hsame⟩
  have hvalid' : ∀ a ∈ [address], ∃ p, Address.canonicalize .regtest a = .ok p :=
    fun a ha => valid_either a (List.mem_cons_of_mem _ ha)
  obtain ⟨hscan, us, hus, hus'⟩ :=
    Tracker.scan_eq_of_same_addresses coherent_session coherent_informed.1
      coherent_informed.2.network rfl valid_either hvalid' hsame source
  obtain ⟨hresult, _, _, horder⟩ := hscan WatchSet.scripts (fun w => w.scripts.reverse)
    (fun w => .refl _) (fun w => List.reverse_perm _) 1 3 (.firingAt 2)
  refine ⟨?_, hus'.trans hus.symm⟩
  rw [hresult, horder]

end Sample

end CoinWatch
