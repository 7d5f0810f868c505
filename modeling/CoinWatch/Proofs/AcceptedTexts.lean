import CoinWatch.Proofs.Spellings
import Mathlib

/-! # The texts of an address

A witness address is read in lower case and in capitals and in no mixture of the two, as the case of
a text does not matter for what it is read as (`Bech32.symbols?_map_toUpper`), and in lower case it
is the canonical spelling (`Segwit.map_toLower_of_decode?`).  So there are two texts for a witness
address, and one for a legacy address, which is not even read if it could be a witness program.
These are all texts that spell the address (`Address.parse_eq_ok_iff`).

Whichever of them is given, the canonical spelling names the script: it is read as what it stands
for, and it is the same for two texts just if their scripts are the same
(`Address.spelling_names_script`). -/

namespace CoinWatch

/-! ### Case -/

namespace Bech32

variable {c : Char} {cs hrp tail : List Char} {symbols : List Symbol}

theorem toUpper_of_not_isAlpha (h : c.isAlpha = false) : c.toUpper = c := by
  rw [Char.isAlpha, Bool.or_eq_false_iff] at h
  exact Char.toUpper_eq_of_not_isLower (by simp [h.2])

theorem toUpper_eq_iff {d : Char} (hd : d.isAlpha = false) : c.toUpper = d ↔ c = d := by
  constructor
  · rintro rfl
    rw [Char.isAlpha_toUpper_eq_isAlpha] at hd
    exact (toUpper_of_not_isAlpha hd).symm
  · rintro rfl
    exact toUpper_of_not_isAlpha hd

theorem visible_toUpper (c : Char) :
    (33 ≤ c.toUpper.toNat ∧ c.toUpper.toNat ≤ 126) ↔ (33 ≤ c.toNat ∧ c.toNat ≤ 126) := by
  by_cases h : c.isLower = true
  · have hrange : 97 ≤ c.toNat ∧ c.toNat ≤ 122 := by
      simp only [Char.isLower, Bool.and_eq_true, decide_eq_true_iff] at h
      exact h
    have hvalid : (c.toNat - 32).isValidChar := .inl (by omega)
    rw [Char.toUpper_eq_of_isLower h, Char.toNat_ofNat, if_pos hvalid]
    omega
  · rw [Char.toUpper_eq_of_not_isLower h]

theorem eq_lower_or_eq_capitals (h : mixedCase cs = false) :
    cs = cs.map Char.toLower ∨ cs = (cs.map Char.toLower).map Char.toUpper := by
  rw [mixedCase, Bool.and_eq_false_iff, List.any_eq_false, List.any_eq_false] at h
  rcases h with h | h
  · left
    calc cs = cs.map id := (List.map_id cs).symm
      _ = cs.map Char.toLower :=
        List.map_congr_left fun c hc => (Char.toLower_eq_of_not_isUpper (h c hc)).symm
  · right
    rw [List.map_map]
    calc cs = cs.map id := (List.map_id cs).symm
      _ = cs.map (Char.toUpper ∘ Char.toLower) := by
        apply List.map_congr_left
        intro c hc
        rw [Function.comp, Char.toUpper_toLower_eq_toUpper,
          Char.toUpper_eq_of_not_isLower (h c hc), id]

theorem mixedCase_map_toUpper (cs : List Char) : mixedCase (cs.map Char.toUpper) = false := by
  have hlower : (cs.map Char.toUpper).any Char.isLower = false := by
    rw [List.any_eq_false]
    intro c hc
    obtain ⟨d, _, rfl⟩ := List.mem_map.mp hc
    simp
  rw [mixedCase, hlower, Bool.and_false]

theorem split?_map_toUpper (cs : List Char) :
    split? (cs.map Char.toUpper) =
      (split? cs).map fun (hrp, tail) => (hrp.map Char.toUpper, tail.map Char.toUpper) := by
  have hsep : (fun c : Char => c != '1') ∘ Char.toUpper = (· != '1') := by
    funext c
    rw [Function.comp, Bool.eq_iff_iff, bne_iff_ne, bne_iff_ne, ne_eq, ne_eq,
      toUpper_eq_iff (by decide)]
  unfold split?
  rw [← List.map_reverse, List.dropWhile_map, List.takeWhile_map, hsep]
  cases cs.reverse.dropWhile (· != '1') with
  | nil => rfl
  | cons d front => simp

theorem validHrp_map_toUpper (hrp : List Char) :
    validHrp (hrp.map Char.toUpper) = validHrp hrp := by
  have hall : (hrp.map Char.toUpper).all (fun c => 33 ≤ c.toNat && c.toNat ≤ 126) =
      hrp.all fun c => 33 ≤ c.toNat && c.toNat ≤ 126 := by
    rw [List.all_map]
    congr 1
    funext c
    rw [Bool.eq_iff_iff]
    simpa using visible_toUpper c
  rw [validHrp, validHrp, hall, List.length_map]

theorem symbols?_map_toUpper (h : mixedCase cs = false) :
    symbols? (cs.map Char.toUpper) = symbols? cs := by
  have hsymbol : symbol? ∘ Char.toUpper = symbol? := by
    funext c
    rw [Function.comp, symbol?, symbol?, Char.toLower_toUpper_eq_toLower]
  have hlower : Char.toLower ∘ Char.toUpper = Char.toLower := by
    funext c
    exact Char.toLower_toUpper_eq_toLower c
  unfold symbols?
  rw [split?_map_toUpper, mixedCase_map_toUpper, h]
  cases split? cs with
  | none => rfl
  | some parts =>
    simp only [Option.map_some, Option.bind_eq_bind, Option.bind_some, validHrp_map_toUpper,
      List.mapM_map, hsymbol, List.map_map, hlower]

/-! ### What a text is read as -/

theorem char_of_symbol? {s : Symbol} (h : symbol? c = some s) : char s = c.toLower := by
  obtain ⟨i, hi, rfl⟩ := Option.map_eq_some_iff.mp h
  obtain ⟨hlt, hget, _⟩ := List.idxOf?_eq_some_iff.mp hi
  have hlen : alphabet.length = 32 := by decide
  have hnat : (BitVec.ofNat 5 i).toNat = i := by
    rw [BitVec.toNat_ofNat]
    omega
  rw [char, hnat, List.getD_eq_getElem _ _ hlt]
  exact hget

theorem map_char_of_mapM (h : tail.mapM symbol? = some symbols) :
    symbols.map char = tail.map Char.toLower := by
  induction tail generalizing symbols with
  | nil =>
    obtain rfl : symbols = [] := by simpa using h.symm
    rfl
  | cons c tail ih =>
    rw [List.mapM_cons] at h
    obtain ⟨s, hs, h⟩ := Option.bind_eq_some_iff.mp h
    obtain ⟨rest, hrest, h⟩ := Option.bind_eq_some_iff.mp h
    obtain rfl := Option.some.inj h
    rw [List.map_cons, List.map_cons, char_of_symbol? hs, ih hrest]

theorem eq_append_of_split? (h : split? cs = some (hrp, tail)) : cs = hrp ++ '1' :: tail := by
  have hparts := List.takeWhile_append_dropWhile (p := (· != '1')) (l := cs.reverse)
  unfold split? at h
  split at h
  · cases h
  · next d front hfront =>
    obtain ⟨rfl, rfl⟩ := Prod.mk.inj (Option.some.inj h)
    have hd : d = '1' := by
      have hhead := List.head_dropWhile_not (· != '1') (l := cs.reverse) (by simp [hfront])
      simpa [hfront] using hhead
    rw [hfront, hd] at hparts
    calc cs = cs.reverse.reverse := (List.reverse_reverse cs).symm
      _ = (cs.reverse.takeWhile (· != '1') ++ '1' :: front).reverse := by rw [hparts]
      _ = front.reverse ++ '1' :: (cs.reverse.takeWhile (· != '1')).reverse := by simp

/-- In lower case, a text is its human-readable part, the separator and its symbols. -/
theorem map_toLower_of_symbols? (h : symbols? cs = some (hrp, symbols)) :
    mixedCase cs = false ∧ cs.map Char.toLower = hrp ++ '1' :: symbols.map char := by
  obtain ⟨⟨front, tail⟩, hsplit, h⟩ := Option.bind_eq_some_iff.mp h
  dsimp only at h
  split at h
  · cases h
  · next hgood =>
    obtain ⟨symbols', hsymbols, h⟩ := Option.bind_eq_some_iff.mp h
    obtain ⟨rfl, rfl⟩ := Prod.mk.inj (Option.some.inj h)
    rw [Bool.or_eq_true, not_or] at hgood
    refine ⟨by simpa using hgood.1, ?_⟩
    rw [eq_append_of_split? hsplit, List.map_append, List.map_cons, map_char_of_mapM hsymbols]
    rfl

end Bech32

namespace Segwit

variable {cs hrp : List Char} {p : Program}

/-- In lower case, a text is what the program that it is read as is written as. -/
theorem map_toLower_of_decode? (h : decode? cs = some (hrp, p)) :
    Bech32.mixedCase cs = false ∧ cs.map Char.toLower = encode hrp p := by
  unfold decode? at h
  split at h
  · cases h
  · obtain ⟨⟨hrp', symbols⟩, hsymbols, h⟩ := Option.bind_eq_some_iff.mp h
    obtain ⟨hcase, htext⟩ := Bech32.map_toLower_of_symbols? hsymbols
    dsimp only at h
    split at h
    · cases h
    · next version rest =>
      split at h
      · next hgood =>
        obtain ⟨bytes, hbytes, h⟩ := Option.bind_eq_some_iff.mp h
        split at h
        · obtain ⟨rfl, rfl⟩ := Prod.mk.inj (Option.some.inj h)
          simp only [Bool.and_eq_true, decide_eq_true_iff] at hgood
          obtain ⟨⟨_, hlen⟩, hverify⟩ := hgood
          have hsix : (rest.drop (rest.length - 6)).length = 6 := by
            rw [List.length_drop]
            omega
          have hparts : version :: rest = (version :: rest.take (rest.length - 6)) ++
              rest.drop (rest.length - 6) := by
            rw [List.cons_append, List.take_append_drop]
          rw [Bech32.verify, hparts] at hverify
          have hsum := Bech32.eq_checksum_of_residue hsix (eq_of_beq hverify)
          have hversion : BitVec.ofNat 5 version.toNat = version := by simp
          refine ⟨hcase, ?_⟩
          rw [htext, hparts, hsum, eq_toSymbols_of_toBytes? hbytes, encode, Bech32.encode, hversion]
        · cases h
      · cases h

theorem decode?_map_toUpper (h : Bech32.mixedCase cs = false) :
    decode? (cs.map Char.toUpper) = decode? cs := by
  rw [decode?, decode?, List.length_map, Bech32.symbols?_map_toUpper h]

end Segwit

/-! ### Addresses -/

namespace Address

/-- The canonical spelling in capitals. -/
def capitals (a : Address) : String := String.ofList (a.chars.map Char.toUpper)

/-- The texts that spell an address.  In base 58 there is one, as long as it is not read as a
witness program; for a witness program there are two. -/
inductive SpelledBy : Address → String → Prop
  | base58 {kind : LegacyKind} {own : LegacyNetwork} {hash : Bytes} (length : hash.length = 20)
      (other : Segwit.decode? (legacy kind own hash).chars = none) :
      SpelledBy (legacy kind own hash) (legacy kind own hash).text
  | lower {hrp : Hrp} {program : Segwit.Program} (valid : program.Valid) :
      SpelledBy (witness hrp program) (witness hrp program).text
  | capitals {hrp : Hrp} {program : Segwit.Program} (valid : program.Valid) :
      SpelledBy (witness hrp program) (witness hrp program).capitals

variable {a : Address} {s : String}

theorem parse_capitals (hrp : Hrp) {program : Segwit.Program} (h : program.Valid) :
    parse (witness hrp program).capitals = .ok (witness hrp program) := by
  have hcase : Bech32.mixedCase (Segwit.encode hrp.chars program) = false :=
    Bech32.mixedCase_encode _ hrp.lowerHrp_chars _
  have hdecode : Segwit.decode? (witness hrp program).capitals.toList =
      some (hrp.chars, program) := by
    rw [capitals, String.toList_ofList, chars, Segwit.decode?_map_toUpper hcase]
    exact Segwit.decode?_encode hrp.lowerHrp_chars hrp.length_chars_le h
  simp only [parse, hdecode, hrp.ofChars?_chars]

/-- A text that is read as a witness address is one of its two texts. -/
theorem spelledBy_of_decode? {hrp : Hrp} {program : Segwit.Program}
    (h : Segwit.decode? s.toList = some (hrp.chars, program)) :
    (witness hrp program).SpelledBy s := by
  have hvalid := Segwit.valid_of_decode? h
  obtain ⟨hcase, hlower⟩ := Segwit.map_toLower_of_decode? h
  have hchars : (witness hrp program).chars = s.toList.map Char.toLower := hlower.symm
  rcases Bech32.eq_lower_or_eq_capitals hcase with hs | hs
  · have htext : s = (witness hrp program).text := by
      rw [text, hchars, ← hs, String.ofList_toList]
    rw [htext]
    exact .lower hvalid
  · have htext : s = (witness hrp program).capitals := by
      rw [capitals, hchars, ← hs, String.ofList_toList]
    rw [htext]
    exact .capitals hvalid

/-- The texts that are read as an address are those that spell it. -/
theorem parse_eq_ok_iff : parse s = .ok a ↔ a.SpelledBy s := by
  constructor
  · intro h
    unfold parse at h
    split at h
    · next chars program hdecode =>
      split at h
      · next hrp hhrp =>
        obtain rfl := Except.ok.inj h
        have hchars : hrp.chars = chars := by simpa using List.find?_some hhrp
        rw [← hchars] at hdecode
        exact spelledBy_of_decode? hdecode
      · cases h
    · next hdecode =>
      obtain ⟨⟨kind, own, hash, rfl, hlen⟩, rfl⟩ := parseLegacy_eq_ok_iff.mp h
      rw [text, String.toList_ofList] at hdecode
      exact .base58 hlen hdecode
  · intro h
    cases h with
    | @base58 kind own hash hlen hother =>
      have hdecode : Segwit.decode? (legacy kind own hash).text.toList = none := by
        rw [text, String.toList_ofList]
        exact hother
      simp only [parse, hdecode]
      exact parseLegacy_text kind own hlen
    | lower hvalid => exact parse_text_witness _ hvalid
    | capitals hvalid => exact parse_capitals _ hvalid

/-- **The canonical spelling names the script.**  A text is accepted if it spells an address of the
network, and stands for the address's script under the address's canonical spelling.  This spelling
is accepted and stands for the same, and two accepted texts have the same one just if they have the
same script. -/
theorem spelling_names_script (network : Network) :
    (∀ s p, canonicalize network s = .ok p ↔
      ∃ a : Address, a.SpelledBy s ∧ a.validFor network = true ∧ p = ⟨a.text, a.script⟩) ∧
    (∀ s p, canonicalize network s = .ok p → canonicalize network p.address = .ok p) ∧
    ∀ s t p q, canonicalize network s = .ok p → canonicalize network t = .ok q →
      (p.address = q.address ↔ p.script = q.script) := by
  refine ⟨fun s p => ?_, fun s p hs => canonicalize_address hs, fun s t p q hs ht => ?_⟩
  · rw [canonicalize_eq_ok_iff]
    simp only [parse_eq_ok_iff]
  · constructor
    · intro haddress
      have hp := canonicalize_address hs
      rw [haddress, canonicalize_address ht] at hp
      rw [Except.ok.inj hp]
    · intro hscript
      rw [eq_of_canonicalize hs ht hscript]

end Address

namespace Sample

/-- A program of version 16 in capitals, with the newer checksum. -/
def capitalText : String := "BC1SW50QGDZ25J"

/-- The hash of twenty zeros. -/
def zerosText : String := "1111111111111111111114oLvT2"

theorem canonicalize_capitalText :
    Address.canonicalize .mainnet capitalText = .ok ⟨"bc1sw50qgdz25j", [0x60, 2, 0x75, 0x1e]⟩ := by
  decide +kernel

theorem canonicalize_zerosText : Address.canonicalize .mainnet zerosText =
    .ok ⟨zerosText, [0x76, 0xa9, 20] ++ List.replicate 20 0 ++ [0x88, 0xac]⟩ := by
  decide +kernel

/-- Both are accepted, and so are their canonical spellings, which differ as the scripts do. -/
theorem named_by_scripts :
    Address.canonicalize .mainnet "bc1sw50qgdz25j" =
        .ok ⟨"bc1sw50qgdz25j", [0x60, 2, 0x75, 0x1e]⟩ ∧
      "bc1sw50qgdz25j" ≠ zerosText ∧
      ∃ a : Address, a.SpelledBy capitalText ∧ a.text = "bc1sw50qgdz25j" := by
  obtain ⟨haccepted, hagain, hsame⟩ := Address.spelling_names_script .mainnet
  refine ⟨hagain _ _ canonicalize_capitalText, ?_, ?_⟩
  · intro heq
    have hscripts := (hsame _ _ _ _ canonicalize_capitalText canonicalize_zerosText).mp heq
    exact absurd hscripts (by decide)
  · obtain ⟨a, ha, _, hp⟩ := (haccepted _ _).mp canonicalize_capitalText
    rw [Payee.mk.injEq] at hp
    exact ⟨a, ha, hp.1.symm⟩

end Sample

end CoinWatch
