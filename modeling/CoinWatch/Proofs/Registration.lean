import CoinWatch.Proofs.Spellings
import CoinWatch.Watch.AddressBook
import Mathlib.Data.List.Basic

/-! # Coherent address books

A book answers for every spelling it has seen, and the canonical spelling of an address enters it
without ever being read.  Still its answers are those of a fresh reading (`Coherent`), because a
canonical spelling is read as itself.  Registration keeps this and only adds to the book
(`Extends`), so a registered list is read the same from then on, whatever is registered in between
(`registerEach_of_extends`).

For a watch set this means that it is told by the listed texts alone: a script is owned by the
canonical spelling that the texts have for it (`owner?_of_watchSet`). -/

namespace CoinWatch

namespace AddressBook

variable {b b' b'' : AddressBook} {t u c : String} {p q : Payee} {s : Script}

/-- Whatever the book knows of a spelling is what it stands for. -/
structure Coherent (b : AddressBook) : Prop where
  scripts : ∀ c s, b.scripts[c]? = some s → Address.canonicalize b.network c = .ok ⟨c, s⟩
  spellings : ∀ t c, b.spellings[t]? = some c →
    ∃ s, b.scripts[c]? = some s ∧ Address.canonicalize b.network t = .ok ⟨c, s⟩

/-- A book that knows all spellings and addresses of another one of the network. -/
structure Extends (b' b : AddressBook) : Prop where
  network : b'.network = b.network
  scripts : ∀ c ∈ b.scripts, c ∈ b'.scripts
  spellings : ∀ t ∈ b.spellings, t ∈ b'.spellings

theorem Extends.refl (b : AddressBook) : b.Extends b := ⟨rfl, fun _ h => h, fun _ h => h⟩

theorem Extends.trans (h : b''.Extends b') (h' : b'.Extends b) : b''.Extends b where
  network := h.network.trans h'.network
  scripts c hc := h.scripts c (h'.scripts c hc)
  spellings t ht := h.spellings t (h'.spellings t ht)

theorem coherent_empty (network : Network) : (empty network).Coherent := by
  refine ⟨fun c s h => ?_, fun t c h => ?_⟩
  · simp [empty] at h
  · simp [empty] at h

theorem decode_eq_ok_iff : b.decode t = .ok p ↔ Address.canonicalize b.network t = .ok p := by
  unfold decode
  cases Address.canonicalize b.network t with
  | ok q => simp
  | error fault => simp

theorem decode_congr (h : b'.network = b.network) : b'.decode = b.decode := by
  funext t
  rw [decode, decode, h]

/-! ### What a coherent book answers -/

/-- A coherent book answers for the spellings it has seen, and answers what they stand for. -/
theorem Coherent.payee?_eq_some_iff (h : b.Coherent) :
    b.payee? t = some p ↔ t ∈ b.spellings ∧ Address.canonicalize b.network t = .ok p := by
  unfold payee?
  constructor
  · intro hp
    obtain ⟨c, hc, hp⟩ := Option.bind_eq_some_iff.mp hp
    obtain ⟨s, hs, hp⟩ := Option.bind_eq_some_iff.mp hp
    obtain rfl := Option.some.inj hp
    obtain ⟨s', hs', hread⟩ := h.spellings t c hc
    obtain rfl := Option.some.inj (hs.symm.trans hs')
    exact ⟨(Std.ExtTreeMap.getElem?_eq_some_iff.mp hc).1, hread⟩
  · rintro ⟨ht, hread⟩
    obtain ⟨c, hc⟩ := Option.isSome_iff_exists.mp (Std.ExtTreeMap.mem_iff_isSome_getElem?.mp ht)
    obtain ⟨s, hs, hread'⟩ := h.spellings t c hc
    obtain rfl := Except.ok.inj (hread.symm.trans hread')
    simp [hc, hs]

theorem Coherent.getElem?_scripts (h : b.Coherent) (hc : c ∈ b.scripts)
    (hread : Address.canonicalize b.network t = .ok ⟨c, s⟩) : b.scripts[c]? = some s := by
  obtain ⟨s', hs'⟩ := Option.isSome_iff_exists.mp (Std.ExtTreeMap.mem_iff_isSome_getElem?.mp hc)
  have hself := h.scripts c s' hs'
  rw [Address.canonicalize_address hread] at hself
  obtain rfl : s = s' := congrArg Payee.script (Except.ok.inj hself)
  exact hs'

/-! ### Registering one text -/

theorem getElem?_scripts_add :
    (b.add t p).scripts[c]? =
      if p.address = c then some ((b.scripts[c]?).getD p.script) else b.scripts[c]? := by
  simp only [add, Std.ExtTreeMap.getElem?_insertIfNew, Std.compare_eq_iff_eq]
  by_cases h : p.address = c
  · subst h
    by_cases hm : p.address ∈ b.scripts
    · simp [hm]
    · simp [hm]
  · simp [h]

theorem mem_scripts_add : c ∈ (b.add t p).scripts ↔ c ∈ b.scripts ∨ p.address = c := by
  rw [Std.ExtTreeMap.mem_iff_isSome_getElem?, Std.ExtTreeMap.mem_iff_isSome_getElem?,
    getElem?_scripts_add]
  by_cases h : p.address = c
  · simp [h]
  · simp [h]

theorem getElem?_spellings_add :
    (b.add t p).spellings[u]? =
      if t = u ∨ p.address = u then some p.address else b.spellings[u]? := by
  simp only [add, Std.ExtTreeMap.getElem?_insert, Std.compare_eq_iff_eq]
  by_cases h : t = u
  · simp [h]
  · by_cases hp : p.address = u
    · simp [h, hp]
    · simp [h, hp]

theorem extends_add (b : AddressBook) (t : String) (p : Payee) : (b.add t p).Extends b := by
  refine ⟨rfl, fun c hc => ?_, fun u hu => ?_⟩
  · rw [Std.ExtTreeMap.mem_iff_isSome_getElem?] at hc ⊢
    rw [getElem?_scripts_add]
    split
    · rfl
    · exact hc
  · rw [Std.ExtTreeMap.mem_iff_isSome_getElem?] at hu ⊢
    rw [getElem?_spellings_add]
    split
    · rfl
    · exact hu

theorem mem_spellings_add :
    u ∈ (b.add t p).spellings ↔ u ∈ b.spellings ∨ t = u ∨ p.address = u := by
  rw [Std.ExtTreeMap.mem_iff_isSome_getElem?, Std.ExtTreeMap.mem_iff_isSome_getElem?,
    getElem?_spellings_add]
  by_cases h : t = u ∨ p.address = u
  · simp [h]
  · simp [h]

theorem Coherent.getElem?_scripts_add_self (h : b.Coherent)
    (hread : Address.canonicalize b.network t = .ok p) :
    (b.add t p).scripts[p.address]? = some p.script := by
  rw [getElem?_scripts_add, if_pos rfl]
  cases hs : b.scripts[p.address]? with
  | none => rfl
  | some s =>
    have hmem : p.address ∈ b.scripts :=
      (Std.ExtTreeMap.getElem?_eq_some_iff.mp hs).1
    rw [← hs, h.getElem?_scripts hmem hread]
    rfl

/-- What a text stands for may enter under it. -/
theorem Coherent.add (h : b.Coherent) (hread : Address.canonicalize b.network t = .ok p) :
    (b.add t p).Coherent := by
  have hself := h.getElem?_scripts_add_self hread
  refine ⟨fun c s hs => ?_, fun u c hc => ?_⟩
  · by_cases hpc : p.address = c
    · subst hpc
      obtain rfl := Option.some.inj (hself.symm.trans hs)
      exact Address.canonicalize_address hread
    · rw [getElem?_scripts_add, if_neg hpc] at hs
      exact h.scripts c s hs
  · rw [getElem?_spellings_add] at hc
    split at hc
    · next hu =>
      obtain rfl := Option.some.inj hc
      refine ⟨p.script, hself, ?_⟩
      rcases hu with rfl | rfl
      · exact hread
      · exact Address.canonicalize_address hread
    · obtain ⟨s, hs, hread'⟩ := h.spellings u c hc
      have hmem : c ∈ (b.add t p).scripts := (extends_add b t p).scripts c
        (Std.ExtTreeMap.getElem?_eq_some_iff.mp hs).1
      obtain ⟨s', hs'⟩ :=
        Option.isSome_iff_exists.mp (Std.ExtTreeMap.mem_iff_isSome_getElem?.mp hmem)
      refine ⟨s, ?_, hread'⟩
      by_cases hpc : p.address = c
      · subst hpc
        rw [getElem?_scripts_add, if_pos rfl, hs]
        rfl
      · rw [getElem?_scripts_add, if_neg hpc]
        exact hs

theorem Coherent.fst_register (h : b.Coherent) (t : String) : (b.register t).1 = b.decode t := by
  unfold register
  cases hp : b.payee? t with
  | some p =>
    rw [decode_eq_ok_iff.mpr (h.payee?_eq_some_iff.mp hp).2]
  | none => cases b.decode t <;> rfl

/-- Any text is answered for as if it were read afresh. -/
theorem Coherent.resolve_eq (h : b.Coherent) (t : String) :
    b.resolve t = (b.decode t).map (·.script) := by
  unfold resolve
  cases hp : b.payee? t with
  | some p =>
    rw [decode_eq_ok_iff.mpr (h.payee?_eq_some_iff.mp hp).2]
    rfl
  | none => rfl

/-- A text is refused as it would be read, and the book stays the same. -/
theorem register_of_error {e : Failure} (h : (b.register t).1 = .error e) :
    b.decode t = .error e ∧ (b.register t).2 = b := by
  unfold register at h ⊢
  cases hp : b.payee? t with
  | some p =>
    rw [hp] at h
    cases h
  | none =>
    rw [hp] at h
    cases hd : b.decode t with
    | ok p =>
      simp only [hd] at h
      cases h
    | error e' =>
      simp only [hd] at h
      exact ⟨h, rfl⟩

/-- After a text was registered, the book is coherent, has grown, and knows the text and its
address. -/
theorem Coherent.register (h : b.Coherent) (t : String) :
    (b.register t).2.Coherent ∧ (b.register t).2.Extends b ∧
      ∀ p, (b.register t).1 = .ok p →
        t ∈ (b.register t).2.spellings ∧ (b.register t).2.scripts[p.address]? = some p.script := by
  unfold AddressBook.register
  cases hp : b.payee? t with
  | some p =>
    refine ⟨h, .refl b, fun q hq => ?_⟩
    obtain rfl := Except.ok.inj hq
    obtain ⟨hmem, hread⟩ := h.payee?_eq_some_iff.mp hp
    obtain ⟨c, hc⟩ := Option.isSome_iff_exists.mp (Std.ExtTreeMap.mem_iff_isSome_getElem?.mp hmem)
    obtain ⟨s, hs, hread'⟩ := h.spellings t c hc
    obtain rfl := Except.ok.inj (hread.symm.trans hread')
    exact ⟨hmem, hs⟩
  | none =>
    cases hd : b.decode t with
    | error e => exact ⟨h, .refl b, fun q hq => nomatch hq⟩
    | ok p =>
      have hread := decode_eq_ok_iff.mp hd
      refine ⟨h.add hread, extends_add b t p, fun q hq => ?_⟩
      obtain rfl := Except.ok.inj hq
      exact ⟨mem_spellings_add.mpr (.inr (.inl rfl)), h.getElem?_scripts_add_self hread⟩

/-! ### Registering a list -/

variable {ts : List String}

theorem registerEach_cons_of_error {e : Failure} (h : (b.register t).1 = .error e) :
    b.registerEach (t :: ts) = (.error e, (b.register t).2) := by
  rw [registerEach, show b.register t = (.error e, (b.register t).2) from Prod.ext h rfl]

theorem registerEach_cons_of_ok (h : (b.register t).1 = .ok p) :
    b.registerEach (t :: ts) =
      (((b.register t).2.registerEach ts).1.map (p :: ·),
        ((b.register t).2.registerEach ts).2) := by
  rw [registerEach, show b.register t = (.ok p, (b.register t).2) from Prod.ext h rfl]

theorem Coherent.registerEach (h : b.Coherent) (ts : List String) :
    (b.registerEach ts).2.Coherent ∧ (b.registerEach ts).2.Extends b ∧
      ∀ ps, (b.registerEach ts).1 = .ok ps →
        ∀ p ∈ ps, (b.registerEach ts).2.scripts[p.address]? = some p.script := by
  induction ts generalizing b with
  | nil =>
    refine ⟨h, .refl b, fun ps hps => ?_⟩
    obtain rfl := Except.ok.inj hps
    simp
  | cons t ts ih =>
    obtain ⟨hcoherent, hextends, hknown⟩ := h.register t
    obtain ⟨hcoherent', hextends', hknown'⟩ := ih hcoherent
    have hread := h.fst_register t
    cases hr : (b.register t).1 with
    | error e =>
      rw [registerEach_cons_of_error hr]
      exact ⟨hcoherent, hextends, fun ps hps => nomatch hps⟩
    | ok p =>
      rw [registerEach_cons_of_ok hr]
      refine ⟨hcoherent', hextends'.trans hextends, fun ps hps => ?_⟩
      have hp := (hknown p hr).2
      have hmem := hextends'.scripts p.address (Std.ExtTreeMap.getElem?_eq_some_iff.mp hp).1
      have hfresh :
          Address.canonicalize ((b.register t).2.registerEach ts).2.network t = .ok p := by
        rw [hextends'.network, hextends.network]
        exact decode_eq_ok_iff.mp (hread.symm.trans hr)
      obtain ⟨rest, hrest, rfl⟩ := map_eq_ok_iff.mp hps
      intro q hq
      rcases List.mem_cons.mp hq with rfl | hq
      · exact hcoherent'.getElem?_scripts hmem hfresh
      · exact hknown' rest hrest q hq

theorem Coherent.fst_registerEach (h : b.Coherent) (ts : List String) :
    (b.registerEach ts).1 = ts.mapM b.decode := by
  induction ts generalizing b with
  | nil => rfl
  | cons t ts ih =>
    obtain ⟨hcoherent, hextends, _⟩ := h.register t
    rw [List.mapM_cons, ← h.fst_register t]
    cases hr : (b.register t).1 with
    | error e =>
      rw [registerEach_cons_of_error hr]
      rfl
    | ok p =>
      rw [registerEach_cons_of_ok hr, ih hcoherent, decode_congr hextends.network]
      rfl

/-- A registered list is read again as it was, and adds nothing. -/
theorem Coherent.registerEach_of_extends (h : b.Coherent) (h' : b'.Coherent)
    (hext : b'.Extends (b.registerEach ts).2) :
    b'.registerEach ts = ((b.registerEach ts).1, b') := by
  induction ts generalizing b with
  | nil => rfl
  | cons t ts ih =>
    obtain ⟨hcoherent, hextends, hknown⟩ := h.register t
    have hread := h.fst_register t
    cases hr : (b.register t).1 with
    | error e =>
      -- The text that stopped the registration stops it again.
      rw [registerEach_cons_of_error hr] at hext ⊢
      have hread' : (b'.register t).1 = .error e := by
        rw [h'.fst_register, decode_congr (hext.network.trans hextends.network), ← hread, hr]
      rw [registerEach_cons_of_error hread', (register_of_error hread').2]
    | ok p =>
      rw [registerEach_cons_of_ok hr] at hext ⊢
      dsimp only at hext ⊢
      have hlist := (hcoherent.registerEach ts).2.1
      have hknows : b'.payee? t = some p := by
        refine h'.payee?_eq_some_iff.mpr
          ⟨hext.spellings t (hlist.spellings t (hknown p hr).1), ?_⟩
        rw [hext.network, hlist.network, hextends.network]
        exact decode_eq_ok_iff.mp (hread.symm.trans hr)
      have hagain : b'.register t = (.ok p, b') := by
        unfold AddressBook.register
        rw [hknows]
      have hagain' : (b'.register t).1 = .ok p := by rw [hagain]
      rw [registerEach_cons_of_ok hagain', hagain]
      dsimp only
      rw [ih hcoherent hext]

theorem mem_of_mapM_decode {ps : List Payee} (h : ts.mapM b.decode = .ok ps) :
    p ∈ ps ↔ ∃ t ∈ ts, Address.canonicalize b.network t = .ok p := by
  induction ts generalizing ps with
  | nil =>
    obtain rfl := Except.ok.inj h
    simp
  | cons t ts ih =>
    rw [List.mapM_cons] at h
    cases hd : b.decode t with
    | error e =>
      rw [hd] at h
      cases h
    | ok q =>
      rw [hd] at h
      cases hrest : ts.mapM b.decode with
      | error e =>
        rw [hrest] at h
        cases h
      | ok rest =>
        rw [hrest] at h
        obtain rfl := Except.ok.inj h
        rw [List.mem_cons, ih hrest, List.exists_mem_cons_iff, decode_eq_ok_iff.mp hd,
          Except.ok.injEq, eq_comm]

theorem mapM_decode_isOk_iff :
    (∃ ps, ts.mapM b.decode = .ok ps) ↔
      ∀ t ∈ ts, ∃ p, Address.canonicalize b.network t = .ok p := by
  induction ts with
  | nil => simpa using ⟨[], rfl⟩
  | cons t ts ih =>
    rw [List.forall_mem_cons, ← ih, List.mapM_cons]
    simp only [← decode_eq_ok_iff]
    cases b.decode t with
    | error e =>
      refine ⟨fun ⟨ps, hps⟩ => (nomatch hps), fun ⟨⟨p, hp⟩, _⟩ => nomatch hp⟩
    | ok p =>
      cases ts.mapM b.decode with
      | error e => exact ⟨fun ⟨ps, hps⟩ => (nomatch hps), fun ⟨_, ⟨ps, hps⟩⟩ => nomatch hps⟩
      | ok ps => exact ⟨fun _ => ⟨⟨p, rfl⟩, ⟨ps, rfl⟩⟩, fun _ => ⟨p :: ps, rfl⟩⟩

end AddressBook

/-! ### What a list registers -/

namespace Address

variable {network : Network} {ts : List String} {t : String} {p : Payee}

/-- A text is an address of the network, and this is its canonical spelling. -/
def Spells (network : Network) (t c : String) : Prop :=
  ∃ p, canonicalize network t = .ok p ∧ p.address = c

theorem spells_iff {c : String} (h : canonicalize network t = .ok p) :
    Spells network t c ↔ p.address = c := by
  constructor
  · rintro ⟨q, hq, hqc⟩
    rw [Except.ok.inj (h.symm.trans hq)]
    exact hqc
  · intro hpc
    exact ⟨p, h, hpc⟩

/-- The texts of a list before the first that is no address of the network. -/
def accepted (network : Network) (ts : List String) : List String :=
  ts.takeWhile fun t => (canonicalize network t).isOk

theorem accepted_cons_of_ok (h : canonicalize network t = .ok p) :
    accepted network (t :: ts) = t :: accepted network ts :=
  List.takeWhile_cons_of_pos (by rw [h]; rfl)

theorem accepted_cons_of_error {fault : AddressFault} (h : canonicalize network t = .error fault) :
    accepted network (t :: ts) = [] :=
  List.takeWhile_cons_of_neg (by rw [h]; exact Bool.false_ne_true)

theorem isOk_canonicalize_iff :
    (canonicalize network t).isOk = true ↔ ∃ p, canonicalize network t = .ok p := by
  cases canonicalize network t with
  | ok p => exact ⟨fun _ => ⟨p, rfl⟩, fun _ => rfl⟩
  | error fault => exact ⟨fun h => (nomatch h), fun ⟨_, h⟩ => nomatch h⟩

theorem accepted_eq_self_iff :
    accepted network ts = ts ↔ ∀ t ∈ ts, ∃ p, canonicalize network t = .ok p := by
  rw [accepted, List.takeWhile_eq_self_iff]
  simp only [isOk_canonicalize_iff]

end Address

namespace AddressBook

variable {b : AddressBook} {t c : String} {ts : List String}

theorem decode_eq_error_iff {e : Failure} :
    b.decode t = .error e ↔
      ∃ fault, Address.canonicalize b.network t = .error fault ∧ e = .invalidAddress t fault := by
  unfold decode
  cases Address.canonicalize b.network t with
  | ok q => simp
  | error fault => simp [eq_comm]

/-- An accepted text brings its address into the book, and no other. -/
theorem Coherent.mem_scripts_register (h : b.Coherent) :
    c ∈ (b.register t).2.scripts ↔ c ∈ b.scripts ∨ Address.Spells b.network t c := by
  have hread := h.fst_register t
  obtain ⟨_, hextends, hknown⟩ := h.register t
  constructor
  · intro hc
    unfold AddressBook.register at hc
    cases hp : b.payee? t with
    | some p =>
      rw [hp] at hc
      exact .inl hc
    | none =>
      rw [hp] at hc
      cases hd : b.decode t with
      | error e =>
        rw [hd] at hc
        exact .inl hc
      | ok p =>
        rw [hd] at hc
        rcases mem_scripts_add.mp hc with hc | hpc
        · exact .inl hc
        · exact .inr ⟨p, decode_eq_ok_iff.mp hd, hpc⟩
  · rintro (hc | ⟨p, hp, rfl⟩)
    · exact hextends.scripts c hc
    · have hok := hread.trans (decode_eq_ok_iff.mpr hp)
      exact (Std.ExtTreeMap.getElem?_eq_some_iff.mp (hknown p hok).2).1

theorem Coherent.mem_scripts_registerEach (h : b.Coherent) :
    c ∈ (b.registerEach ts).2.scripts ↔
      c ∈ b.scripts ∨ ∃ t ∈ Address.accepted b.network ts, Address.Spells b.network t c := by
  induction ts generalizing b with
  | nil =>
    show c ∈ b.scripts ↔ _
    simp [Address.accepted]
  | cons t ts ih =>
    obtain ⟨hcoherent, hextends, _⟩ := h.register t
    have hread := h.fst_register t
    cases hr : (b.register t).1 with
    | error e =>
      obtain ⟨fault, hfault, _⟩ := decode_eq_error_iff.mp (hread.symm.trans hr)
      rw [registerEach_cons_of_error hr, (register_of_error hr).2,
        Address.accepted_cons_of_error hfault]
      simp
    | ok p =>
      have hp := decode_eq_ok_iff.mp (hread.symm.trans hr)
      rw [registerEach_cons_of_ok hr, ih hcoherent, hextends.network, h.mem_scripts_register,
        Address.accepted_cons_of_ok hp, List.exists_mem_cons_iff, or_assoc]

theorem mapM_decode_isOk_iff_accepted :
    (∃ ps, ts.mapM b.decode = .ok ps) ↔ Address.accepted b.network ts = ts := by
  rw [mapM_decode_isOk_iff, Address.accepted_eq_self_iff]

theorem Coherent.fst_registerAll (h : b.Coherent) (ts : List String) :
    (b.registerAll ts).1 =
      (ts.mapM b.decode).map fun ps => (ps.map (·.address)).eraseDups := by
  rw [← h.fst_registerEach]
  rfl

theorem Coherent.mem_owners_iff (h : b.Coherent) {owners : List String}
    (howners : (b.registerAll ts).1 = .ok owners) :
    c ∈ owners ↔ ∃ t ∈ ts, Address.Spells b.network t c := by
  rw [h.fst_registerAll] at howners
  obtain ⟨ps, hps, rfl⟩ := map_eq_ok_iff.mp howners
  rw [List.mem_eraseDups, List.mem_map]
  constructor
  · rintro ⟨p, hp, rfl⟩
    obtain ⟨t, ht, hread⟩ := (mem_of_mapM_decode hps).mp hp
    exact ⟨t, ht, p, hread, rfl⟩
  · rintro ⟨t, ht, p, hread, rfl⟩
    exact ⟨p, (mem_of_mapM_decode hps).mpr ⟨t, ht, hread⟩, rfl⟩

end AddressBook

/-! ### Watch sets of texts -/

namespace WatchSet

theorem owner?_ofPayees (ps : List Payee) (s : Script) :
    (ofPayees ps).owner? s = (ps.find? (·.script = s)).map (·.address) := by
  have hfold (w : WatchSet) :
      (ps.foldl (fun w p => w.insert p.script p.address) w).owner? s =
        (w.owner? s).or ((ps.find? (·.script = s)).map (·.address)) := by
    induction ps generalizing w with
    | nil => simp
    | cons p ps ih =>
      rw [List.foldl_cons, ih, owner?_insert, List.find?_cons]
      by_cases hp : p.script = s
      · cases w.owner? s <;> simp [hp]
      · simp [hp]
  have hof : ofPayees ps = ps.foldl (fun w p => w.insert p.script p.address) empty := by
    rw [ofPayees, ofList, List.foldl_map]
  rw [hof, hfold, owner?_empty, Option.none_or]

end WatchSet

namespace AddressBook

variable {b b' : AddressBook} {ts : List String} {w : WatchSet} {s : Script} {c : String}

theorem fst_watchSet (b : AddressBook) (ts : List String) :
    (b.watchSet ts).1 = (b.registerEach ts).1.map WatchSet.ofPayees := rfl

theorem snd_watchSet (b : AddressBook) (ts : List String) :
    (b.watchSet ts).2 = (b.registerEach ts).2 := rfl

theorem watchSet_eq_ok (hw : (b.watchSet ts).1 = .ok w) :
    ∃ ps, (b.registerEach ts).1 = .ok ps ∧ w = .ofPayees ps := by
  obtain ⟨ps, hps, rfl⟩ := map_eq_ok_iff.mp hw
  exact ⟨ps, hps, rfl⟩

theorem Coherent.fst_watchSet_of_mapM (h : b.Coherent) {ps : List Payee}
    (hps : ts.mapM b.decode = .ok ps) : (b.watchSet ts).1 = .ok (.ofPayees ps) := by
  rw [fst_watchSet, h.fst_registerEach, hps]
  rfl

/-- A watched script is owned by the canonical spelling that the listed texts have for it. -/
theorem Coherent.owner?_of_watchSet (h : b.Coherent) (hw : (b.watchSet ts).1 = .ok w) :
    w.owner? s = some c ↔ ∃ t ∈ ts, Address.canonicalize b.network t = .ok ⟨c, s⟩ := by
  obtain ⟨ps, hps, rfl⟩ := watchSet_eq_ok hw
  rw [h.fst_registerEach] at hps
  have hmem (p : Payee) := mem_of_mapM_decode (p := p) hps
  rw [WatchSet.owner?_ofPayees, Option.map_eq_some_iff]
  constructor
  · rintro ⟨p, hp, rfl⟩
    obtain rfl : p.script = s := by simpa using List.find?_some hp
    exact (hmem p).mp (List.mem_of_find?_eq_some hp)
  · rintro ⟨t, ht, hc⟩
    -- The first payee with the script has the same address.
    have hlisted : (⟨c, s⟩ : Payee) ∈ ps := (hmem _).mpr ⟨t, ht, hc⟩
    have hfound : (ps.find? (·.script = s)).isSome :=
      List.find?_isSome.mpr ⟨⟨c, s⟩, hlisted, by simp⟩
    obtain ⟨p, hp⟩ := Option.isSome_iff_exists.mp hfound
    have hps : p.script = s := by simpa using List.find?_some hp
    obtain ⟨u, _, hu⟩ := (hmem p).mp (List.mem_of_find?_eq_some hp)
    refine ⟨p, hp, ?_⟩
    rw [Address.eq_of_canonicalize hu hc hps]

/-- A registered list has the same watch set again, and adds nothing. -/
theorem Coherent.watchSet_of_extends (h : b.Coherent) (h' : b'.Coherent)
    (hext : b'.Extends (b.watchSet ts).2) : b'.watchSet ts = ((b.watchSet ts).1, b') := by
  rw [snd_watchSet] at hext
  rw [fst_watchSet, watchSet, h.registerEach_of_extends h' hext]

end AddressBook

end CoinWatch
