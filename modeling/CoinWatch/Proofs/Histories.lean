import CoinWatch.Proofs.Registration
import Mathlib.Data.List.Dedup
import Mathlib.Data.List.Induction

/-! # Histories of an address book

A book that begins empty goes through a list of inquiries (`AddressBook.askAll`): texts are
registered, one or a list at a time, watch sets are made of them, and scripts are asked for.  Of all
this the book keeps the texts that were accepted, `registered`, and their canonical spellings
(`AddressBook.Knows`).  Each inquiry keeps this relation, although a text that the book knows is
never read again and a canonical spelling enters without having been read at all.

So a book is told by the accepted texts, in whatever order and by whatever inquiries they came, and
all that it answers is what a fresh reading gives (`AddressBook.answers_of_history`). -/

namespace CoinWatch

/-! ### Lists without repetitions -/

section lists

variable {α β : Type*} [DecidableEq α]

theorem pairwise_idxOf_eraseDups (l : List α) :
    l.eraseDups.Pairwise fun a b => l.idxOf a < l.idxOf b := by
  induction l using List.reverseRecOn with
  | nil => simp
  | append_singleton l x ih =>
    have hold : l.eraseDups.Pairwise fun a b => (l ++ [x]).idxOf a < (l ++ [x]).idxOf b := by
      refine ih.imp_of_mem fun {a b} ha hb hab => ?_
      rwa [List.idxOf_append_of_mem (List.mem_eraseDups.mp ha),
        List.idxOf_append_of_mem (List.mem_eraseDups.mp hb)]
    rw [List.eraseDups_append]
    by_cases hx : x ∈ l
    · have hnone : [x].removeAll l = [] := by simp [List.removeAll, hx]
      rw [hnone, List.eraseDups_nil, List.append_nil]
      exact hold
    · have hnew : [x].removeAll l = [x] := by simp [List.removeAll, hx]
      rw [hnew, show [x].eraseDups = [x] by simp [List.eraseDups_cons], List.pairwise_append]
      refine ⟨hold, List.pairwise_singleton _ _, fun a ha b hb => ?_⟩
      have ha := List.mem_eraseDups.mp ha
      rw [List.mem_singleton.mp hb, List.idxOf_append_of_mem ha, List.idxOf_append_of_notMem hx]
      exact Nat.lt_add_right _ (List.idxOf_lt_length_of_mem ha)

/-- The values of a function on a list, each listed once, are as many as the entries of the list
that differ, if the function tells them apart. -/
theorem length_eq_of_mem_map_iff {l : List α} {f : α → β} {m : List β}
    (hf : ∀ x ∈ l, ∀ y ∈ l, f x = f y → x = y) (hm : m.Nodup) (h : ∀ b, b ∈ m ↔ b ∈ l.map f) :
    m.length = l.dedup.length := by
  have hmap : (l.dedup.map f).Nodup :=
    (List.nodup_dedup l).map_on fun x hx y hy =>
      hf x (List.mem_dedup.mp hx) y (List.mem_dedup.mp hy)
  have hperm : m.Perm (l.dedup.map f) := by
    rw [List.perm_ext_iff_of_nodup hm hmap]
    simpa [List.mem_dedup] using h
  rw [hperm.length_eq, List.length_map]

end lists

namespace WatchSet

theorem nodup_scripts (w : WatchSet) : w.scripts.Nodup := Std.ExtTreeMap.nodup_keys

theorem length_scripts (w : WatchSet) : w.scripts.length = w.size := Std.ExtTreeMap.length_keys

theorem mem_scripts_iff {w : WatchSet} {s : Script} : s ∈ w.scripts ↔ (w.owner? s).isSome := by
  rw [scripts, owner?, Std.ExtTreeMap.mem_keys, Std.ExtTreeMap.mem_iff_isSome_getElem?]

theorem mem_scripts_ofPayees {ps : List Payee} {s : Script} :
    s ∈ (ofPayees ps).scripts ↔ s ∈ ps.map (·.script) := by
  rw [mem_scripts_iff, owner?_ofPayees, Option.isSome_map, List.find?_isSome]
  simp

end WatchSet

/-! ### Inquiries -/

/-- What may be asked of an address book. -/
inductive Inquiry where
  | register (text : String)
  | registerAll (texts : List String)
  | watchSet (texts : List String)
  | scriptFor (text : String)
  | resolve (text : String)

/-- The texts that an inquiry is to register. -/
def Inquiry.texts : Inquiry → List String
  | register text => [text]
  | registerAll texts | watchSet texts => texts
  | scriptFor _ | resolve _ => []

/-- The texts that some inquiries do register. -/
def registered (network : Network) (qs : List Inquiry) : List String :=
  qs.flatMap fun q => Address.accepted network q.texts

namespace AddressBook

/-- The book after an inquiry. -/
def ask (b : AddressBook) : Inquiry → AddressBook
  | .register text => (b.register text).2
  | .registerAll texts => (b.registerAll texts).2
  | .watchSet texts => (b.watchSet texts).2
  | .scriptFor _ | .resolve _ => b

/-- The book after some inquiries. -/
def askAll (b : AddressBook) (qs : List Inquiry) : AddressBook := qs.foldl ask b

variable {b b' : AddressBook} {t u c : String} {p : Payee} {ts us : List String}

theorem snd_registerEach_singleton (b : AddressBook) (t : String) :
    (b.registerEach [t]).2 = (b.register t).2 := by
  cases hr : (b.register t).1 with
  | error e => rw [registerEach_cons_of_error hr]
  | ok p =>
    rw [registerEach_cons_of_ok hr]
    rfl

/-- An inquiry registers its texts, and does nothing else to the book. -/
theorem ask_eq (b : AddressBook) (q : Inquiry) : b.ask q = (b.registerEach q.texts).2 := by
  cases q with
  | register text => exact (b.snd_registerEach_singleton text).symm
  | registerAll | watchSet | scriptFor | resolve => rfl

/-! ### What a book knows -/

/-- The book knows the given texts, which are addresses of its network, and their canonical
spellings, and no other text. -/
structure Knows (b : AddressBook) (ts : List String) : Prop where
  coherent : b.Coherent
  addresses : ∀ c, c ∈ b.scripts ↔ ∃ t ∈ ts, Address.Spells b.network t c
  texts : ∀ u, u ∈ b.spellings ↔ ∃ t ∈ ts, u = t ∨ Address.Spells b.network t u

theorem knows_empty (network : Network) : (empty network).Knows [] where
  coherent := coherent_empty network
  addresses c := by simp [empty]
  texts u := by simp [empty]

theorem Knows.mem_spellings_of_mem_scripts (h : b.Knows ts) (hc : c ∈ b.scripts) :
    c ∈ b.spellings := by
  obtain ⟨t, ht, hspells⟩ := (h.addresses c).mp hc
  exact (h.texts c).mpr ⟨t, ht, .inr hspells⟩

theorem Knows.mem_spellings_register (h : b.Knows ts)
    (hread : Address.canonicalize b.network t = .ok p) :
    u ∈ (b.register t).2.spellings ↔
      u ∈ b.spellings ∨ u = t ∨ Address.Spells b.network t u := by
  have hok : (b.register t).1 = .ok p :=
    (h.coherent.fst_register t).trans (decode_eq_ok_iff.mpr hread)
  obtain ⟨ht, hs⟩ := (h.coherent.register t).2.2 p hok
  have haddress : p.address ∈ (b.register t).2.scripts :=
    (Std.ExtTreeMap.getElem?_eq_some_iff.mp hs).1
  rw [Address.spells_iff hread]
  cases hp : b.payee? t with
  | some q =>
    -- The book stays as it is, so the text was known, and its canonical spelling with it.
    have hstay : (b.register t).2 = b := by
      unfold AddressBook.register
      rw [hp]
    rw [hstay] at ht haddress ⊢
    constructor
    · exact .inl
    · rintro (hu | rfl | rfl)
      · exact hu
      · exact ht
      · exact h.mem_spellings_of_mem_scripts haddress
  | none =>
    have hadd : (b.register t).2 = b.add t p := by
      unfold AddressBook.register
      rw [hp, decode_eq_ok_iff.mpr hread]
    rw [hadd, mem_spellings_add, eq_comm (a := t)]

/-- Registering an accepted text adds it to what the book knows. -/
theorem Knows.register (h : b.Knows ts) (hread : Address.canonicalize b.network t = .ok p) :
    (b.register t).2.Knows (ts ++ [t]) := by
  obtain ⟨hcoherent, hextends, _⟩ := h.coherent.register t
  refine ⟨hcoherent, fun c => ?_, fun u => ?_⟩
  · rw [h.coherent.mem_scripts_register, h.addresses, hextends.network]
    simp [or_and_right, exists_or]
  · rw [h.mem_spellings_register hread, h.texts, hextends.network]
    simp [or_and_right, exists_or]

theorem Knows.registerEach (h : b.Knows ts) (us : List String) :
    (b.registerEach us).2.Knows (ts ++ Address.accepted b.network us) := by
  induction us generalizing b ts with
  | nil =>
    rw [Address.accepted, List.takeWhile_nil, List.append_nil]
    exact h
  | cons u us ih =>
    have hread := h.coherent.fst_register u
    cases hr : (b.register u).1 with
    | error e =>
      obtain ⟨fault, hfault, _⟩ := decode_eq_error_iff.mp (hread.symm.trans hr)
      rw [registerEach_cons_of_error hr, (register_of_error hr).2,
        Address.accepted_cons_of_error hfault, List.append_nil]
      exact h
    | ok p =>
      have hp := decode_eq_ok_iff.mp (hread.symm.trans hr)
      have hrest := ih (h.register hp)
      rw [(h.coherent.register u).2.1.network, List.append_assoc] at hrest
      rw [registerEach_cons_of_ok hr, Address.accepted_cons_of_ok hp]
      exact hrest

theorem Knows.askAll (h : b.Knows ts) (qs : List Inquiry) :
    (b.askAll qs).Knows (ts ++ registered b.network qs) ∧
      (b.askAll qs).network = b.network := by
  induction qs generalizing b ts with
  | nil =>
    rw [registered, List.flatMap_nil, List.append_nil]
    exact ⟨h, rfl⟩
  | cons q qs ih =>
    have hnetwork : (b.ask q).network = b.network := by
      rw [ask_eq]
      exact (h.coherent.registerEach q.texts).2.1.network
    have hask : (b.ask q).Knows (ts ++ Address.accepted b.network q.texts) := by
      rw [ask_eq]
      exact h.registerEach q.texts
    obtain ⟨hrest, hrest'⟩ := ih hask
    rw [hnetwork, List.append_assoc] at hrest
    exact ⟨hrest, hrest'.trans hnetwork⟩

theorem Coherent.getElem?_scripts_eq_some_iff (h : b.Coherent) {s : Script} :
    b.scripts[c]? = some s ↔ c ∈ b.scripts ∧ Address.canonicalize b.network c = .ok ⟨c, s⟩ := by
  constructor
  · intro hs
    exact ⟨(Std.ExtTreeMap.getElem?_eq_some_iff.mp hs).1, h.scripts c s hs⟩
  · rintro ⟨hc, hread⟩
    exact h.getElem?_scripts hc hread

theorem Coherent.getElem?_spellings_eq_some_iff (h : b.Coherent) :
    b.spellings[t]? = some c ↔ t ∈ b.spellings ∧ Address.Spells b.network t c := by
  constructor
  · intro hc
    obtain ⟨s, _, hread⟩ := h.spellings t c hc
    exact ⟨(Std.ExtTreeMap.getElem?_eq_some_iff.mp hc).1, ⟨c, s⟩, hread, rfl⟩
  · rintro ⟨ht, p, hread, rfl⟩
    obtain ⟨c, hc⟩ := Option.isSome_iff_exists.mp (Std.ExtTreeMap.mem_iff_isSome_getElem?.mp ht)
    obtain ⟨s, _, hread'⟩ := h.spellings t c hc
    obtain rfl := Except.ok.inj (hread.symm.trans hread')
    exact hc

/-- Books of one network that know the same texts are the same. -/
theorem Knows.eq_of_mem_iff (h : b.Knows ts) (h' : b'.Knows us) (hnetwork : b'.network = b.network)
    (hmem : ∀ t, t ∈ us ↔ t ∈ ts) : b' = b := by
  have hscripts : b'.scripts = b.scripts := by
    apply Std.ExtTreeMap.ext_getElem?
    intro c
    apply Option.ext
    intro s
    rw [h.coherent.getElem?_scripts_eq_some_iff, h'.coherent.getElem?_scripts_eq_some_iff,
      h.addresses, h'.addresses, hnetwork]
    simp only [hmem]
  have hspellings : b'.spellings = b.spellings := by
    apply Std.ExtTreeMap.ext_getElem?
    intro u
    apply Option.ext
    intro c
    rw [h.coherent.getElem?_spellings_eq_some_iff, h'.coherent.getElem?_spellings_eq_some_iff,
      h.texts, h'.texts, hnetwork]
    simp only [hmem]
  cases b
  cases b'
  simp_all

/-! ### What a book answers -/

theorem Knows.scriptFor_of_mem (h : b.Knows ts) (ht : t ∈ b.spellings) :
    ∃ p, b.decode t = .ok p ∧ b.scriptFor t = .ok p.script := by
  obtain ⟨c, hc⟩ := Option.isSome_iff_exists.mp (Std.ExtTreeMap.mem_iff_isSome_getElem?.mp ht)
  obtain ⟨s, _, hread⟩ := h.coherent.spellings t c hc
  refine ⟨_, decode_eq_ok_iff.mpr hread, ?_⟩
  rw [scriptFor, h.coherent.payee?_eq_some_iff.mpr ⟨ht, hread⟩]

theorem Knows.scriptFor_of_not_mem (h : b.Knows ts) (ht : t ∉ b.spellings) :
    b.scriptFor t = .error (.notRegistered t) := by
  have hnone : b.payee? t = none := by
    rw [Option.eq_none_iff_forall_ne_some]
    intro p hp
    exact ht (h.coherent.payee?_eq_some_iff.mp hp).1
  rw [scriptFor, hnone]

/-- A list that is read has as many addresses as scripts, each script owned by the address it was
listed with. -/
theorem Coherent.watchSet_of_mapM (h : b.Coherent) {ps : List Payee}
    (hps : ts.mapM b.decode = .ok ps) :
    (b.watchSet ts).1 = .ok (.ofPayees ps) ∧
      (WatchSet.ofPayees ps).size = ((ps.map (·.address)).eraseDups).length ∧
      ∀ p ∈ ps, (WatchSet.ofPayees ps).owner? p.script = some p.address := by
  have hw := h.fst_watchSet_of_mapM hps
  have hread : ∀ p ∈ ps, ∃ t ∈ ts, Address.canonicalize b.network t = .ok p :=
    fun p hp => (mem_of_mapM_decode hps).mp hp
  refine ⟨hw, ?_, fun p hp => (h.owner?_of_watchSet hw).mpr (hread p hp)⟩
  have hscript : ∀ p ∈ ps, ∀ q ∈ ps, p.script = q.script → p = q := by
    intro p hp q hq hpq
    obtain ⟨t, _, ht⟩ := hread p hp
    obtain ⟨u, _, hu⟩ := hread q hq
    exact Address.eq_of_canonicalize ht hu hpq
  have haddress : ∀ p ∈ ps, ∀ q ∈ ps, p.address = q.address → p = q := by
    intro p hp q hq hpq
    obtain ⟨t, _, ht⟩ := hread p hp
    obtain ⟨u, _, hu⟩ := hread q hq
    have hp := Address.canonicalize_address ht
    rw [hpq, Address.canonicalize_address hu] at hp
    exact (Except.ok.inj hp).symm
  have hnodup : ((ps.map (·.address)).eraseDups).Nodup :=
    (pairwise_idxOf_eraseDups _).imp fun hlt heq => by simp [heq] at hlt
  calc (WatchSet.ofPayees ps).size
      = (WatchSet.ofPayees ps).scripts.length := (WatchSet.length_scripts _).symm
    _ = ps.dedup.length := length_eq_of_mem_map_iff hscript (WatchSet.nodup_scripts _)
        fun s => WatchSet.mem_scripts_ofPayees
    _ = ((ps.map (·.address)).eraseDups).length :=
        (length_eq_of_mem_map_iff haddress hnodup fun c => List.mem_eraseDups).symm

/-- **A book answers what a fresh reading gives.**  After any inquiries to a book that began empty:
a text is registered and resolved as it is read afresh; its script is known if it was accepted or is
the canonical spelling of an accepted text, and then it is that of the fresh reading; the watched
addresses are the canonical spellings of the accepted texts, each once; and any other inquiries that
register the same texts lead to the same book.  A list is refused as its first invalid text is, or
its canonical spellings are given in the order of their first appearance, each once, and its watch
set has an entry for each of them, under the script of the address. -/
theorem answers_of_history (network : Network) (qs : List Inquiry) :
    let fresh := (empty network).decode
    let known := fun t => ∃ u ∈ registered network qs, t = u ∨ Address.Spells network u t
    let b := (empty network).askAll qs
    (∀ t, (b.register t).1 = fresh t ∧ b.resolve t = (fresh t).map (·.script)) ∧
    (∀ t, (known t → ∃ p, fresh t = .ok p ∧ b.scriptFor t = .ok p.script) ∧
      (¬ known t → b.scriptFor t = .error (.notRegistered t))) ∧
    (b.addresses.Nodup ∧ b.size = b.addresses.length ∧
      ∀ c, c ∈ b.addresses ↔ ∃ t ∈ registered network qs, Address.Spells network t c) ∧
    (∀ qs', (∀ t, t ∈ registered network qs' ↔ t ∈ registered network qs) →
      (empty network).askAll qs' = b) ∧
    ∀ ts,
      (∀ e, ts.mapM fresh = .error e →
        (b.registerAll ts).1 = .error e ∧ (b.watchSet ts).1 = .error e) ∧
      ∀ ps, ts.mapM fresh = .ok ps → ∃ owners w,
        (b.registerAll ts).1 = .ok owners ∧ (∀ c, c ∈ owners ↔ c ∈ ps.map (·.address)) ∧
        (owners.Pairwise fun c d =>
          (ps.map (·.address)).idxOf c < (ps.map (·.address)).idxOf d) ∧
        (b.watchSet ts).1 = .ok w ∧ w.size = owners.length ∧
        ∀ p ∈ ps, w.owner? p.script = some p.address := by
  intro fresh known b
  obtain ⟨hknows, hnetwork⟩ := (knows_empty network).askAll qs
  have hfresh : b.decode = fresh := decode_congr hnetwork
  have hnet : b.network = network := hnetwork
  have hknown : ∀ t, t ∈ b.spellings ↔ known t := by
    intro t
    rw [hknows.texts, hnet]
    rfl
  refine ⟨fun t => ⟨?_, ?_⟩, fun t => ⟨fun ht => ?_, fun ht => ?_⟩, ⟨?_, ?_, fun c => ?_⟩,
    fun qs' hqs' => ?_, fun ts => ⟨fun e he => ⟨?_, ?_⟩, fun ps hps => ?_⟩⟩
  · rw [hknows.coherent.fst_register, ← hfresh]
  · rw [hknows.coherent.resolve_eq, ← hfresh]
  · rw [← hfresh]
    exact hknows.scriptFor_of_mem ((hknown t).mpr ht)
  · exact hknows.scriptFor_of_not_mem fun hmem => ht ((hknown t).mp hmem)
  · exact Std.ExtTreeMap.nodup_keys
  · exact Std.ExtTreeMap.length_keys.symm
  · rw [addresses, Std.ExtTreeMap.mem_keys, hknows.addresses, hnet]
    rfl
  · obtain ⟨hknows', hnetwork'⟩ := (knows_empty network).askAll qs'
    exact hknows.eq_of_mem_iff hknows' (hnetwork'.trans hnetwork.symm) hqs'
  · rw [hknows.coherent.fst_registerAll, hfresh, he]
    rfl
  · rw [fst_watchSet, hknows.coherent.fst_registerEach, hfresh, he]
    rfl
  · rw [← hfresh] at hps
    obtain ⟨hw, hsize, howner⟩ := hknows.coherent.watchSet_of_mapM hps
    refine ⟨_, _, ?_, fun c => List.mem_eraseDups, pairwise_idxOf_eraseDups _, hw, hsize, howner⟩
    rw [hknows.coherent.fst_registerAll, hps]
    rfl

end AddressBook

namespace Sample

def lowerText : String := "bc1qw508d6qejxtdg4y5r3zarvary0c5xw7kv8f3t4"

def upperText : String := "BC1QW508D6QEJXTDG4Y5R3ZARVARY0C5XW7KV8F3T4"

def legacyText : String := "1A1zP1eP5QGefi2DMPTfTL5SLmv7DivfNa"

/-- Of the first list, only the text before the one that is no address is registered. -/
def inquiries : List Inquiry :=
  [.registerAll [upperText, "?", legacyText], .resolve legacyText, .watchSet [upperText]]

theorem registered_inquiries : registered .mainnet inquiries = [upperText, upperText] := by
  decide +kernel

theorem spells_upperText : Address.Spells .mainnet upperText lowerText := by
  have haddress : (Address.canonicalize .mainnet upperText).map (·.address) = .ok lowerText := by
    decide +kernel
  cases hp : Address.canonicalize .mainnet upperText with
  | error fault =>
    rw [hp] at haddress
    cases haddress
  | ok p =>
    rw [hp] at haddress
    exact ⟨p, hp, Except.ok.inj haddress⟩

theorem legacyText_unknown :
    ¬ ∃ t ∈ [upperText, upperText], legacyText = t ∨ Address.Spells .mainnet t legacyText := by
  rintro ⟨t, ht, hknown⟩
  obtain rfl : t = upperText := by simpa using ht
  rcases hknown with heq | ⟨p, hp, hpc⟩
  · exact absurd heq (by decide +kernel)
  · obtain ⟨q, hq, hqc⟩ := spells_upperText
    obtain rfl := Except.ok.inj (hp.symm.trans hq)
    exact absurd (hpc.symm.trans hqc) (by decide +kernel)

theorem mapM_texts :
    ([legacyText, upperText, lowerText].mapM (AddressBook.empty .mainnet).decode).map
      (·.map (·.address)) = .ok [legacyText, lowerText, lowerText] := by
  decide +kernel

/-- The address is known in the spelling that was never given, and the list that stopped at the
invalid text left nothing of what came after it.  One registration would have done the same. -/
theorem known_in_lower_case :
    let b := (AddressBook.empty .mainnet).askAll inquiries
    (∃ p, (AddressBook.empty .mainnet).decode lowerText = .ok p ∧
      b.scriptFor lowerText = .ok p.script) ∧
    b.scriptFor legacyText = .error (.notRegistered legacyText) ∧
    (AddressBook.empty .mainnet).askAll [.register upperText] = b ∧
    (b.registerAll [upperText, "?"]).1 = .error (.invalidAddress "?" .badBase58) ∧
    ∃ owners w, (b.registerAll [legacyText, upperText, lowerText]).1 = .ok owners ∧
      (b.watchSet [legacyText, upperText, lowerText]).1 = .ok w ∧ w.size = owners.length ∧
      legacyText ∈ owners := by
  obtain ⟨_, hscript, _, horder, hlists⟩ := AddressBook.answers_of_history .mainnet inquiries
  simp only [registered_inquiries] at hscript horder
  have hrefused : [upperText, "?"].mapM (AddressBook.empty .mainnet).decode =
      .error (.invalidAddress "?" .badBase58) := by
    decide +kernel
  refine ⟨(hscript lowerText).1 ⟨upperText, by simp, .inr spells_upperText⟩,
    (hscript legacyText).2 legacyText_unknown, horder [.register upperText] fun t => ?_,
    ((hlists _).1 _ hrefused).1, ?_⟩
  · rw [show registered .mainnet [.register upperText] = [upperText] by decide +kernel]
    simp
  · have hread := mapM_texts
    cases hps : [legacyText, upperText, lowerText].mapM (AddressBook.empty .mainnet).decode with
    | error e =>
      rw [hps] at hread
      cases hread
    | ok ps =>
      rw [hps] at hread
      have haddresses : ps.map (·.address) = [legacyText, lowerText, lowerText] :=
        Except.ok.inj hread
      obtain ⟨owners, w, howners, hmem, _, hw, hsize, _⟩ := (hlists _).2 ps hps
      refine ⟨owners, w, howners, hw, hsize, (hmem legacyText).mpr ?_⟩
      rw [haddresses]
      exact List.mem_cons_self

end Sample

end CoinWatch
