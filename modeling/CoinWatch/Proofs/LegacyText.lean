import CoinWatch.Address.Basic
import Mathlib.Data.List.GetD
import Mathlib.Data.List.TakeWhile
import Mathlib.Data.Nat.Digits.Lemmas
import Mathlib.Data.String.Basic

/-! # Base 58 has one spelling

A change of radix keeps the number and the count of leading zeros, and these two determine the
digits (`Radix.convert_self`), so a change and the change back cancel (`Radix.convert_convert`).
Bytes are therefore read back from what they are written as (`Base58.decode?_encode`), and a text in
base 58 is what its bytes are written as (`Base58.encode_of_decode?`), with and without a checksum.
So the texts that are read as legacy addresses are the canonical spellings of legacy addresses with
a hash of twenty bytes (`Address.parseLegacy_eq_ok_iff`), which are never too long to be read. -/

namespace CoinWatch

namespace Radix

variable {b c : ℕ} {ds : List ℕ}

theorem digits_eq (hb : 2 ≤ b) (n : ℕ) : digits b n = Nat.digits b n := by
  induction n using Nat.strongRecOn with
  | ind n ih =>
    unfold digits
    by_cases hn : n = 0
    · simp [hn]
    · rw [if_neg (by omega), Nat.digits_def' (by omega) (by omega),
        ih (n / b) (Nat.div_lt_self (by omega) (by omega))]

theorem number_eq (b : ℕ) (ds : List ℕ) : number b ds = Nat.ofDigits b ds.reverse := by
  induction ds using List.reverseRecOn with
  | nil => rfl
  | append_singleton ds d ih =>
    unfold number at ih ⊢
    rw [List.foldl_append, ih, List.reverse_append]
    simp [Nat.ofDigits_cons, Nat.add_comm]

theorem number_digits (hb : 2 ≤ b) (n : ℕ) : number b (digits b n).reverse = n := by
  rw [number_eq, List.reverse_reverse, digits_eq hb, Nat.ofDigits_digits]

theorem number_replicate_append (b k : ℕ) (ds : List ℕ) :
    number b (List.replicate k 0 ++ ds) = number b ds := by
  simp [number_eq]

/-- The front of zeros of a list is a front of zeros and nothing more. -/
theorem replicate_append_dropWhile (ds : List ℕ) :
    List.replicate (leadingZeros ds) 0 ++ ds.dropWhile (· == 0) = ds := by
  have hzeros : ds.takeWhile (· == 0) = List.replicate (leadingZeros ds) 0 := by
    apply List.eq_replicate_of_mem
    intro d hd
    simpa using List.mem_takeWhile_imp hd
  rw [← hzeros, List.takeWhile_append_dropWhile]

theorem leadingZeros_replicate_append (k : ℕ) (h : ds.head? ≠ some 0) :
    leadingZeros (List.replicate k 0 ++ ds) = k := by
  unfold leadingZeros
  rw [List.takeWhile_append_of_pos (by simp)]
  cases ds with
  | nil => simp
  | cons d ds =>
    have hd : d ≠ 0 := by simpa using h
    simp [hd]

theorem head?_reverse_digits (hb : 2 ≤ b) (n : ℕ) : (digits b n).reverse.head? ≠ some 0 := by
  rw [List.head?_reverse, digits_eq hb]
  by_cases hn : n = 0
  · simp [hn]
  · rw [List.getLast?_eq_some_getLast (Nat.digits_ne_nil_iff_ne_zero.mpr hn)]
    simpa using Nat.getLast_digit_ne_zero b hn

theorem number_convert (hc : 2 ≤ c) (b : ℕ) (ds : List ℕ) :
    number c (convert b c ds) = number b ds := by
  rw [convert, number_replicate_append, number_digits hc]

theorem leadingZeros_convert (hc : 2 ≤ c) (b : ℕ) (ds : List ℕ) :
    leadingZeros (convert b c ds) = leadingZeros ds :=
  leadingZeros_replicate_append _ (head?_reverse_digits hc _)

/-- The number and the leading zeros determine the digits. -/
theorem convert_self (hb : 2 ≤ b) (hds : ∀ d ∈ ds, d < b) : convert b b ds = ds := by
  have hsplit := replicate_append_dropWhile ds
  generalize hrest : ds.dropWhile (· == 0) = rest at hsplit
  have hhead : ∀ h : rest ≠ [], rest.reverse.getLast (by simpa using h) ≠ 0 := by
    intro h
    rw [List.getLast_reverse]
    subst hrest
    simpa using List.head_dropWhile_not (· == 0) h
  have hlt : ∀ d ∈ rest.reverse, d < b := by
    intro d hd
    apply hds
    rw [← hsplit]
    exact List.mem_append_right _ (List.mem_reverse.mp hd)
  have hdigits : digits b (number b ds) = rest.reverse := by
    rw [← hsplit, number_replicate_append, number_eq, digits_eq hb]
    refine Nat.digits_ofDigits b (by omega) rest.reverse hlt fun h => hhead (by simpa using h)
  rw [convert, hdigits, List.reverse_reverse, hsplit]

/-- A change of radix and the change back cancel. -/
theorem convert_convert (hb : 2 ≤ b) (hc : 2 ≤ c) (hds : ∀ d ∈ ds, d < b) :
    convert c b (convert b c ds) = ds := by
  have hback : convert c b (convert b c ds) = convert b b ds := by
    rw [convert, number_convert hc, leadingZeros_convert hc, convert]
  rw [hback, convert_self hb hds]

theorem lt_of_mem_convert (hc : 2 ≤ c) {d : ℕ} (h : d ∈ convert b c ds) : d < c := by
  rcases List.mem_append.mp h with h | h
  · rw [List.eq_of_mem_replicate h]
    omega
  · rw [List.mem_reverse, digits_eq hc] at h
    exact Nat.digits_lt_base (by omega) h

/-- Where two digits of the new radix make up for one of the old, there are at most twice as
many. -/
theorem length_convert_le (hb : 2 ≤ b) (hc : 2 ≤ c) (hbc : b ≤ c ^ 2) (hds : ∀ d ∈ ds, d < b) :
    (convert b c ds).length ≤ 2 * ds.length := by
  have hsplit := replicate_append_dropWhile ds
  generalize hrest : ds.dropWhile (· == 0) = rest at hsplit
  have hlen : leadingZeros ds + rest.length = ds.length := by
    rw [← congrArg List.length hsplit, List.length_append, List.length_replicate]
  have hnumber : number b ds < c ^ (2 * rest.length) := by
    have hlt : ∀ d ∈ rest.reverse, d < b := by
      intro d hd
      apply hds
      rw [← hsplit]
      exact List.mem_append_right _ (List.mem_reverse.mp hd)
    calc number b ds = number b rest := by
          rw [← hsplit, number_replicate_append]
      _ = Nat.ofDigits b rest.reverse := number_eq b rest
      _ < b ^ rest.reverse.length := Nat.ofDigits_lt_base_pow_length (by omega) hlt
      _ = b ^ rest.length := by rw [List.length_reverse]
      _ ≤ (c ^ 2) ^ rest.length := Nat.pow_le_pow_left hbc _
      _ = c ^ (2 * rest.length) := (pow_mul c 2 rest.length).symm
  have hdigits : (digits c (number b ds)).length ≤ 2 * rest.length := by
    rw [digits_eq hc]
    exact (Nat.digits_length_le_iff (by omega) _).mpr hnumber
  rw [convert, List.length_append, List.length_replicate, List.length_reverse]
  omega

end Radix

namespace Base58

theorem value?_eq_some {c : Char} {n : ℕ} (h : value? c = some n) : n < 58 ∧ digit n = c := by
  obtain ⟨hlt, hget, _⟩ := List.idxOf?_eq_some_iff.mp h
  refine ⟨hlt, ?_⟩
  rw [digit, List.getD_eq_getElem _ _ hlt]
  exact hget

theorem value?_digit {n : ℕ} (h : n < 58) : value? (digit n) = some n := by
  have hall : ∀ n : Fin 58, value? (digit n) = some n.val := by decide +kernel
  exact hall ⟨n, h⟩

theorem utf8Size_digit (n : ℕ) : (digit n).utf8Size = 1 := by
  have hall : alphabet.all (·.utf8Size = 1) = true := by decide
  by_cases hn : n < alphabet.length
  · rw [digit, List.getD_eq_getElem _ _ hn]
    exact of_decide_eq_true (List.all_eq_true.mp hall _ (List.getElem_mem hn))
  · rw [digit, List.getD_eq_default _ _ (by omega)]
    rfl

theorem mapM_value?_digit {ds : List ℕ} (h : ∀ d ∈ ds, d < 58) :
    (ds.map digit).mapM value? = some ds := by
  induction ds with
  | nil => rfl
  | cons d ds ih =>
    rw [List.map_cons, List.mapM_cons, value?_digit (h d List.mem_cons_self),
      ih fun e he => h e (List.mem_cons_of_mem d he)]
    rfl

theorem map_digit_of_mapM {cs : List Char} {ds : List ℕ} (h : cs.mapM value? = some ds) :
    (∀ d ∈ ds, d < 58) ∧ ds.map digit = cs := by
  induction cs generalizing ds with
  | nil =>
    obtain rfl : ds = [] := by simpa using h.symm
    simp
  | cons c cs ih =>
    rw [List.mapM_cons] at h
    obtain ⟨n, hn, h⟩ := Option.bind_eq_some_iff.mp h
    obtain ⟨ns, hns, h⟩ := Option.bind_eq_some_iff.mp h
    obtain rfl := Option.some.inj h
    obtain ⟨hlt, hdigit⟩ := value?_eq_some hn
    obtain ⟨hall, hmap⟩ := ih hns
    exact ⟨by simpa using ⟨hlt, hall⟩, by rw [List.map_cons, hdigit, hmap]⟩

theorem map_toNat_lt (bs : Bytes) : ∀ d ∈ bs.map UInt8.toNat, d < 256 := by
  intro d hd
  obtain ⟨b, _, rfl⟩ := List.mem_map.mp hd
  exact b.toNat_lt

theorem decode?_encode (bs : Bytes) : decode? (encode bs) = some bs := by
  have hdigits : ∀ d ∈ Radix.convert 256 58 (bs.map UInt8.toNat), d < 58 := by
    intro d hd
    exact Radix.lt_of_mem_convert (by decide) hd
  have hbytes : (bs.map UInt8.toNat).map UInt8.ofNat = bs := by
    rw [List.map_map]
    exact List.map_id'' (fun b => UInt8.ofNat_toNat) bs
  rw [decode?, encode, mapM_value?_digit hdigits]
  simp only [Option.bind_eq_bind, Option.bind_some, Option.pure_def]
  rw [Radix.convert_convert (by decide) (by decide) (map_toNat_lt bs), hbytes]

theorem length_encode_le (bs : Bytes) : (encode bs).length ≤ 2 * bs.length := by
  have hle : (Radix.convert 256 58 (bs.map UInt8.toNat)).length ≤ 2 * (bs.map UInt8.toNat).length :=
    Radix.length_convert_le (by decide) (by decide) (by decide) (map_toNat_lt bs)
  rw [List.length_map] at hle
  rw [encode, List.length_map]
  exact hle

theorem utf8ByteSize_encode (bs : Bytes) :
    (String.ofList (encode bs)).utf8ByteSize = (encode bs).length := by
  rw [String.utf8ByteSize_ofList, encode]
  generalize Radix.convert 256 58 (bs.map UInt8.toNat) = ds
  induction ds with
  | nil => rfl
  | cons d ds ih =>
    rw [List.map_cons, String.utf8Len_cons, ih, utf8Size_digit, List.length_cons]

theorem encode_of_decode? {cs : List Char} {bs : Bytes} (h : decode? cs = some bs) :
    encode bs = cs := by
  obtain ⟨ds, hds, hbs⟩ := Option.bind_eq_some_iff.mp h
  obtain rfl := Option.some.inj hbs
  obtain ⟨hlt, hmap⟩ := map_digit_of_mapM hds
  have hbytes : ((Radix.convert 58 256 ds).map UInt8.ofNat).map UInt8.toNat =
      Radix.convert 58 256 ds := by
    rw [List.map_map]
    calc (Radix.convert 58 256 ds).map (UInt8.toNat ∘ UInt8.ofNat)
        = (Radix.convert 58 256 ds).map id := by
          apply List.map_congr_left
          intro d hd
          have hd := Radix.lt_of_mem_convert (by decide) hd
          simp only [Function.comp, UInt8.toNat_ofNat', id]
          omega
      _ = Radix.convert 58 256 ds := List.map_id _
  rw [encode, hbytes, Radix.convert_convert (by decide) (by decide) hlt, hmap]

theorem length_checksum (payload : Bytes) : (checksum payload).length = 4 := by
  rw [checksum, List.length_take, Sha256.length_hashTwice]
  rfl

theorem decodeChecked?_encodeChecked (payload : Bytes) :
    decodeChecked? (encodeChecked payload) = some payload := by
  have hsum := length_checksum payload
  have hcut : (payload ++ checksum payload).length - 4 = payload.length := by
    rw [List.length_append]
    omega
  rw [decodeChecked?, encodeChecked, decode?_encode]
  simp only [Option.bind_eq_bind, Option.bind_some, hcut, List.take_left, List.drop_left]
  rw [if_pos (by rw [List.length_append]; omega)]
  simp

theorem encodeChecked_of_decodeChecked? {cs : List Char} {payload : Bytes}
    (h : decodeChecked? cs = some payload) : encodeChecked payload = cs := by
  obtain ⟨bs, hbs, h⟩ := Option.bind_eq_some_iff.mp h
  split at h
  · dsimp only at h
    split at h
    · next hsum =>
      obtain rfl := Option.some.inj h
      rw [encodeChecked, ← hsum, List.take_append_drop, encode_of_decode? hbs]
    · cases h
  · cases h

end Base58

namespace LegacyKind

theorem versionByte_of_ofVersionByte? {byte : UInt8} {kind : LegacyKind} {network : LegacyNetwork}
    (h : ofVersionByte? byte = some (kind, network)) : kind.versionByte network = byte := by
  simpa using List.find?_some h

theorem ofVersionByte?_versionByte (kind : LegacyKind) (network : LegacyNetwork) :
    ofVersionByte? (kind.versionByte network) = some (kind, network) := by
  cases kind <;> cases network <;> rfl

end LegacyKind

namespace Address

theorem ofPayload_eq_ok {payload : Bytes} {a : Address} (h : ofPayload payload = .ok a) :
    ∃ kind network hash, a = .legacy kind network hash ∧ hash.length = 20 ∧
      payload = kind.versionByte network :: hash := by
  unfold ofPayload at h
  split at h
  · next version hash =>
    split at h
    · cases h
    · next hlen =>
      split at h
      · next kind network hkind =>
        refine ⟨kind, network, hash, (Except.ok.inj h).symm, by omega, ?_⟩
        rw [LegacyKind.versionByte_of_ofVersionByte? hkind]
      · cases h
  · cases h

theorem ofPayload_versionByte (kind : LegacyKind) (network : LegacyNetwork) {hash : Bytes}
    (hlen : hash.length = 20) :
    ofPayload (kind.versionByte network :: hash) = .ok (legacy kind network hash) := by
  simp only [ofPayload, hlen, LegacyKind.ofVersionByte?_versionByte]
  rfl

theorem text_of_parseLegacy {s : String} {a : Address} (h : parseLegacy s = .ok a) :
    (∃ kind network hash, a = .legacy kind network hash ∧ hash.length = 20) ∧ a.text = s := by
  unfold parseLegacy at h
  split at h
  · cases h
  · split at h
    · next payload hpayload =>
      obtain ⟨kind, network, hash, rfl, hlen, rfl⟩ := ofPayload_eq_ok h
      refine ⟨⟨kind, network, hash, rfl, hlen⟩, ?_⟩
      rw [text, chars, Base58.encodeChecked_of_decodeChecked? hpayload, String.ofList_toList]
    · cases h

/-- The canonical spelling is read, since it has no more than fifty bytes. -/
theorem parseLegacy_text (kind : LegacyKind) (network : LegacyNetwork) {hash : Bytes}
    (hlen : hash.length = 20) :
    parseLegacy (legacy kind network hash).text = .ok (legacy kind network hash) := by
  have hshort : (legacy kind network hash).text.utf8ByteSize ≤ 50 := by
    have hle := Base58.length_encode_le
      (kind.versionByte network :: hash ++ Base58.checksum (kind.versionByte network :: hash))
    rw [List.length_append, List.length_cons, hlen, Base58.length_checksum] at hle
    rw [text, chars, Base58.encodeChecked, Base58.utf8ByteSize_encode]
    exact hle
  rw [parseLegacy, if_neg (by omega), text, String.toList_ofList, chars,
    Base58.decodeChecked?_encodeChecked]
  exact ofPayload_versionByte kind network hlen

/-- The texts that are read as legacy addresses. -/
theorem parseLegacy_eq_ok_iff {s : String} {a : Address} :
    parseLegacy s = .ok a ↔
      (∃ kind network hash, a = .legacy kind network hash ∧ hash.length = 20) ∧ a.text = s := by
  constructor
  · exact text_of_parseLegacy
  · rintro ⟨⟨kind, network, hash, rfl, hlen⟩, rfl⟩
    exact parseLegacy_text kind network hlen

end Address

end CoinWatch
