import CoinWatch.Proofs.LegacyText
import CoinWatch.Proofs.WitnessText

/-! # Canonical spellings

The canonical spelling of an address is read as that address (`Address.canonicalize_address`), and
the addresses of one network have scripts of their own: with the same script, two accepted texts
have the same canonical spelling (`Address.eq_of_canonicalize`).  So the canonical spelling is a
name for the script. -/

namespace CoinWatch

theorem Hrp.lowerHrp_chars (hrp : Hrp) : Bech32.LowerHrp hrp.chars := by
  have hvalid : Bech32.validHrp hrp.chars = true := by
    cases hrp <;> decide
  have hlower : hrp.chars.all (fun c => c.isUpper = false ∧ c.toLower = c) = true := by
    cases hrp <;> decide
  exact ⟨hvalid, fun c hc => of_decide_eq_true (List.all_eq_true.mp hlower c hc)⟩

theorem Hrp.length_chars_le (hrp : Hrp) : hrp.chars.length ≤ 4 := by
  cases hrp <;> decide

theorem Hrp.ofChars?_chars (hrp : Hrp) : Hrp.ofChars? hrp.chars = some hrp := by
  cases hrp <;> decide

namespace Address

/-- The witness program of an address, if it has one, has a text. -/
def Valid : Address → Prop
  | legacy .. => True
  | witness _ program => program.Valid

variable {a b : Address} {s t : String} {p q : Payee} {network : Network}

theorem parse_text_witness (hrp : Hrp) {program : Segwit.Program} (h : program.Valid) :
    parse (witness hrp program).text = .ok (witness hrp program) := by
  have hdecode : Segwit.decode? (witness hrp program).text.toList = some (hrp.chars, program) := by
    rw [text, String.toList_ofList]
    exact Segwit.decode?_encode hrp.lowerHrp_chars hrp.length_chars_le h
  simp only [parse, hdecode, hrp.ofChars?_chars]

theorem parse_text (h : parse s = .ok a) : a.Valid ∧ parse a.text = .ok a := by
  have hs := h
  unfold parse at h
  split at h
  · next hrp program hdecode =>
    split at h
    · next hrp' hhrp =>
      obtain rfl := Except.ok.inj h
      have hvalid := Segwit.valid_of_decode? hdecode
      exact ⟨hvalid, parse_text_witness hrp' hvalid⟩
    · cases h
  · -- Text in base 58 has one spelling, so it was read before.
    obtain ⟨⟨kind, own, hash, rfl, _⟩, htext⟩ := text_of_parseLegacy h
    rw [htext]
    exact ⟨trivial, hs⟩

/-- What an accepted text stands for is an address of the network. -/
theorem canonicalize_eq_ok_iff :
    canonicalize network s = .ok p ↔
      ∃ a, parse s = .ok a ∧ a.validFor network = true ∧ p = ⟨a.text, a.script⟩ := by
  unfold canonicalize
  constructor
  · intro h
    split at h
    · next a ha =>
      split at h
      · next hvalid => exact ⟨a, ha, hvalid, (Except.ok.inj h).symm⟩
      · cases h
    · cases h
  · rintro ⟨a, ha, hvalid, rfl⟩
    simp only [ha, hvalid, if_true]

theorem canonicalize_address (h : canonicalize network s = .ok p) :
    canonicalize network p.address = .ok p := by
  obtain ⟨a, ha, hvalid, rfl⟩ := canonicalize_eq_ok_iff.mp h
  exact canonicalize_eq_ok_iff.mpr ⟨a, (parse_text ha).2, hvalid, rfl⟩

/-! ### One address for a script -/

/-- The first byte of a witness program's script. -/
def versionOp (version : ℕ) : UInt8 :=
  UInt8.ofNat (if version = 0 then 0 else 0x50 + version)

theorem toNat_versionOp {version : ℕ} (h : version ≤ 16) :
    (versionOp version).toNat = if version = 0 then 0 else 0x50 + version := by
  unfold versionOp
  rw [UInt8.toNat_ofNat']
  split <;> omega

theorem versionOp_inj {v w : ℕ} (hv : v ≤ 16) (hw : w ≤ 16) (h : versionOp v = versionOp w) :
    v = w := by
  have h := congrArg UInt8.toNat h
  rw [toNat_versionOp hv, toNat_versionOp hw] at h
  split at h <;> split at h <;> omega

theorem versionOp_ne {version : ℕ} (h : version ≤ 16) {op : UInt8} (hop : 0x60 < op.toNat) :
    versionOp version ≠ op := by
  rintro rfl
  rw [toNat_versionOp h] at hop
  split at hop <;> omega

theorem script_witness (hrp : Hrp) (program : Segwit.Program) :
    (witness hrp program).script =
      versionOp program.version :: UInt8.ofNat program.bytes.length :: program.bytes := rfl

/-- Legacy scripts begin with bytes above all those of witness programs. -/
theorem script_legacy_ne_witness {kind : LegacyKind} {own : LegacyNetwork} {hash : Bytes}
    {hrp : Hrp} {program : Segwit.Program} (h : program.Valid) :
    (legacy kind own hash).script ≠ (witness hrp program).script := by
  intro heq
  rw [script_witness] at heq
  cases kind with
  | key => exact versionOp_ne h.1 (by decide) (List.cons.inj heq).1.symm
  | script => exact versionOp_ne h.1 (by decide) (List.cons.inj heq).1.symm

theorem legacy_script_inj {kind kind' : LegacyKind} {own own' : LegacyNetwork} {hash hash' : Bytes}
    (h : (legacy kind own hash).script = (legacy kind' own' hash').script) :
    kind = kind' ∧ hash = hash' := by
  cases kind <;> cases kind' <;> simp [script] at h ⊢
  · exact h
  · exact h

/-- On one network, an address is determined by its script. -/
theorem eq_of_script_eq (ha : a.Valid) (hb : b.Valid) (hna : a.validFor network = true)
    (hnb : b.validFor network = true) (h : a.script = b.script) : a = b := by
  cases a with
  | legacy kind own hash =>
    cases b with
    | legacy kind' own' hash' =>
      obtain ⟨rfl, rfl⟩ := legacy_script_inj h
      simp only [validFor, decide_eq_true_iff] at hna hnb
      rw [hna, hnb]
    | witness hrp program => exact absurd h (script_legacy_ne_witness hb)
  | witness hrp program =>
    cases b with
    | legacy kind own hash => exact absurd h.symm (script_legacy_ne_witness ha)
    | witness hrp' program' =>
      rw [script_witness, script_witness] at h
      obtain ⟨hversion, hrest⟩ := List.cons.inj h
      obtain ⟨_, hbytes⟩ := List.cons.inj hrest
      have hprogram : program = program' := by
        cases program
        cases program'
        rw [Segwit.Program.mk.injEq]
        exact ⟨versionOp_inj ha.1 hb.1 hversion, hbytes⟩
      simp only [validFor, decide_eq_true_iff] at hna hnb
      rw [hprogram, hna, hnb]

theorem eq_of_canonicalize (hs : canonicalize network s = .ok p)
    (ht : canonicalize network t = .ok q) (h : p.script = q.script) : p = q := by
  obtain ⟨a, ha, hna, rfl⟩ := canonicalize_eq_ok_iff.mp hs
  obtain ⟨b, hb, hnb, rfl⟩ := canonicalize_eq_ok_iff.mp ht
  rw [eq_of_script_eq (parse_text ha).1 (parse_text hb).1 hna hnb h]

end Address

end CoinWatch
