import CoinWatch.Address.Segwit
import Mathlib.Data.List.Basic
import Mathlib.Data.List.TakeWhile
import Mathlib.Tactic.Ring

/-! # Witness programs are read back

The text of a witness program is read back as the program (`Segwit.decode?_encode`).  Two things
have to come out right behind the characters: the checksum, which brings the remainder to its
target because a step is linear in exclusive or (`Bech32.residue_append_checksum`), and the change
of bytes into groups of five bits, which adds at most four zeros (`Segwit.toBytes?_toSymbols`).

Neither leaves a choice: no other six symbols bring the remainder to its target
(`Bech32.eq_checksum_of_residue`), and symbols that are read as bytes are the ones that these are
written as (`Segwit.eq_toSymbols_of_toBytes?`). -/

namespace CoinWatch

/-! ### The checksum -/

namespace Bech32

theorem feedback_xor (a b : BitVec 30) : feedback (a ^^^ b) = feedback a ^^^ feedback b := by
  have hmask (x y : Bool) (m : BitVec 30) : (if x ^^ y then m else 0) =
      (if x then m else 0) ^^^ (if y then m else 0) := by
    cases x <;> cases y <;> simp
  simp only [feedback, BitVec.getLsbD_xor, hmask]
  ac_rfl

theorem step_xor (r q : BitVec 30) (s t : Symbol) :
    step (r ^^^ q) (s ^^^ t) = step r s ^^^ step q t := by
  simp only [step, BitVec.shiftLeft_xor_distrib, BitVec.setWidth_xor, feedback_xor]
  ac_rfl

theorem foldl_step_xor (r q : BitVec 30) (symbols : List Symbol) :
    symbols.foldl step (r ^^^ q) =
      (List.replicate symbols.length 0).foldl step r ^^^ symbols.foldl step q := by
  induction symbols generalizing r q with
  | nil => rfl
  | cons s symbols ih =>
    have hstep : step (r ^^^ q) s = step r 0 ^^^ step q s := by
      rw [← step_xor]
      congr 1
      exact BitVec.zero_xor.symm
    rw [List.foldl_cons, hstep, ih]
    rfl

/-- As long as nothing leaves it, the remainder takes its symbols in one behind the other. -/
theorem step_extractLsb' (v : BitVec 30) {k n : ℕ} (hn : n ≤ 25) :
    step ((v.extractLsb' (k + 5) n).setWidth 30) (v.extractLsb' k 5) =
      (v.extractLsb' k (n + 5)).setWidth 30 := by
  have hfeedback : feedback ((v.extractLsb' (k + 5) n).setWidth 30) = 0#30 := by
    have hhigh : ∀ i, 25 ≤ i → ((v.extractLsb' (k + 5) n).setWidth 30).getLsbD i = false := by
      intro i hi
      simp only [BitVec.getLsbD_setWidth, BitVec.getLsbD_extractLsb']
      rw [decide_eq_false (show ¬ i < n by omega)]
      simp
    simp only [feedback, hhigh 25 (by omega), hhigh 26 (by omega), hhigh 27 (by omega),
      hhigh 28 (by omega), hhigh 29 (by omega)]
    rfl
  rw [step, hfeedback, BitVec.xor_zero]
  apply BitVec.eq_of_getLsbD_eq
  intro i hi
  simp only [BitVec.getLsbD_xor, BitVec.getLsbD_shiftLeft, BitVec.getLsbD_setWidth,
    BitVec.getLsbD_extractLsb', hi, decide_true, Bool.true_and]
  by_cases h : i < 5
  · simp [h, show i < n + 5 by omega]
  · have hbit : k + 5 + (i - 5) = k + i := by omega
    have hin : (i - 5 < n) = (i < n + 5) := propext ⟨by omega, by omega⟩
    simp [h, hbit, hin, show i - 5 < 30 by omega]

theorem foldl_step_zero (v : BitVec 30) :
    [v.extractLsb' 25 5, v.extractLsb' 20 5, v.extractLsb' 15 5,
      v.extractLsb' 10 5, v.extractLsb' 5 5, v.extractLsb' 0 5].foldl step 0 = v := by
  have hzero : (0 : BitVec 30) = (v.extractLsb' 30 0).setWidth 30 := by
    apply BitVec.eq_of_getLsbD_eq
    simp
  simp only [List.foldl_cons, List.foldl_nil, hzero]
  rw [step_extractLsb' v (by omega), step_extractLsb' v (by omega), step_extractLsb' v (by omega),
    step_extractLsb' v (by omega), step_extractLsb' v (by omega), step_extractLsb' v (by omega)]
  simp

/-- Any six symbols are those of some remainder. -/
theorem exists_extractLsb'_eq (a b c d e f : Symbol) : ∃ r : BitVec 30,
    [r.extractLsb' 25 5, r.extractLsb' 20 5, r.extractLsb' 15 5,
      r.extractLsb' 10 5, r.extractLsb' 5 5, r.extractLsb' 0 5] = [a, b, c, d, e, f] := by
  let r : BitVec (5 + 5 + 5 + 5 + 5 + 5) := a ++ b ++ c ++ d ++ e ++ f
  refine ⟨r, ?_⟩
  simp (disch := omega) only [r, BitVec.extractLsb'_append_eq_of_le, Nat.reduceSub,
    BitVec.extractLsb'_append_eq_right, BitVec.extractLsb'_eq_self]

theorem residue_append (hrp : List Char) (data : List Symbol) {sum : List Symbol}
    (hlen : sum.length = 6) :
    residue (expand hrp ++ (data ++ sum)) =
      residue (expand hrp ++ data ++ List.replicate 6 0) ^^^ sum.foldl step 0 := by
  have hsplit := foldl_step_xor (residue (expand hrp ++ data)) 0 sum
  rw [show residue (expand hrp ++ data) ^^^ 0 = residue (expand hrp ++ data) from
    BitVec.xor_zero, hlen] at hsplit
  rw [← List.append_assoc]
  simp only [residue, List.foldl_append] at hsplit ⊢
  exact hsplit

/-- The checksum brings the remainder to its target. -/
theorem residue_append_checksum (v : Variant) (hrp : List Char) (data : List Symbol) :
    residue (expand hrp ++ (data ++ checksum v hrp data)) = v.target := by
  rw [residue_append hrp data rfl, checksum, foldl_step_zero, ← BitVec.xor_assoc, BitVec.xor_self,
    BitVec.zero_xor]

/-- No other six symbols do so. -/
theorem eq_checksum_of_residue {v : Variant} {hrp : List Char} {data sum : List Symbol}
    (hlen : sum.length = 6) (h : residue (expand hrp ++ (data ++ sum)) = v.target) :
    sum = checksum v hrp data := by
  match sum, hlen with
  | [a, b, c, d, e, f], hlen =>
    obtain ⟨r, hr⟩ := exists_extractLsb'_eq a b c d e f
    rw [residue_append hrp data hlen, ← hr, foldl_step_zero] at h
    have hrest : residue (expand hrp ++ data ++ List.replicate 6 0) ^^^ v.target = r := by
      rw [← h, ← BitVec.xor_assoc, BitVec.xor_self, BitVec.zero_xor]
    rw [checksum, hrest, hr]

end Bech32

/-! ### Characters -/

namespace Bech32

theorem symbol?_char (s : Symbol) : symbol? (char s) = some s := by
  revert s
  decide +kernel

theorem char_ne_separator (s : Symbol) : char s ≠ '1' := by
  revert s
  decide +kernel

theorem isUpper_char (s : Symbol) : (char s).isUpper = false := by
  revert s
  decide +kernel

theorem mapM_symbol?_char (symbols : List Symbol) :
    (symbols.map char).mapM symbol? = some symbols := by
  induction symbols with
  | nil => rfl
  | cons s symbols ih =>
    rw [List.map_cons, List.mapM_cons, symbol?_char, ih]
    rfl

theorem split?_append {hrp tail : List Char} (h : ∀ c ∈ tail, c ≠ '1') :
    split? (hrp ++ '1' :: tail) = some (hrp, tail) := by
  have htail : ∀ c ∈ tail.reverse, (c != '1') = true := by
    intro c hc
    simpa using h c (List.mem_reverse.mp hc)
  have hreverse : (hrp ++ '1' :: tail).reverse = tail.reverse ++ '1' :: hrp.reverse := by simp
  unfold split?
  rw [hreverse, List.dropWhile_append_of_pos htail, List.takeWhile_append_of_pos htail]
  simp

/-- A human-readable part in lower case. -/
def LowerHrp (hrp : List Char) : Prop :=
  validHrp hrp = true ∧ ∀ c ∈ hrp, c.isUpper = false ∧ c.toLower = c

theorem mixedCase_encode (v : Variant) {hrp : List Char} (h : LowerHrp hrp) (data : List Symbol) :
    mixedCase (encode v hrp data) = false := by
  have hupper : (encode v hrp data).any Char.isUpper = false := by
    rw [List.any_eq_false]
    intro c hc
    rw [encode, List.mem_append, List.mem_cons, List.mem_map] at hc
    rcases hc with hc | rfl | ⟨s, _, rfl⟩
    · simpa using (h.2 c hc).1
    · decide
    · simpa using isUpper_char s
  rw [mixedCase, hupper, Bool.false_and]

theorem symbols?_encode (v : Variant) {hrp : List Char} (h : LowerHrp hrp) (data : List Symbol) :
    symbols? (encode v hrp data) = some (hrp, data ++ checksum v hrp data) := by
  have hsep : ∀ c ∈ (data ++ checksum v hrp data).map char, c ≠ '1' := by
    intro c hc
    obtain ⟨s, _, rfl⟩ := List.mem_map.mp hc
    exact char_ne_separator s
  have hsame : hrp.map Char.toLower = hrp := by
    calc hrp.map Char.toLower = hrp.map id := List.map_congr_left fun c hc => (h.2 c hc).2
      _ = hrp := List.map_id hrp
  unfold symbols?
  rw [show split? (encode v hrp data) = some (hrp, (data ++ checksum v hrp data).map char) from
    split?_append hsep]
  simp only [Option.bind_eq_bind, Option.bind_some]
  rw [mixedCase_encode v h, h.1, mapM_symbol?_char, hsame]
  rfl

end Bech32

/-! ### Groups of bits -/

namespace Bits

theorem toNat_cons (b : Bool) (bits : List Bool) :
    toNat (b :: bits) = 2 ^ bits.length * b.toNat + toNat bits := by
  have hstart (n : ℕ) : bits.foldl (fun n b => 2 * n + b.toNat) n =
      2 ^ bits.length * n + toNat bits := by
    unfold toNat
    induction bits generalizing n with
    | nil => simp
    | cons b bits ih =>
      rw [List.foldl_cons, List.foldl_cons, ih, ih (2 * 0 + b.toNat), List.length_cons]
      ring
  rw [toNat, List.foldl_cons, hstart]
  simp

theorem toNat_lt (bits : List Bool) : toNat bits < 2 ^ bits.length := by
  induction bits with
  | nil => simp [toNat]
  | cons b bits ih =>
    rw [toNat_cons, List.length_cons, Nat.pow_succ]
    have hb := b.toNat_le
    have hle := Nat.mul_le_mul_left (2 ^ bits.length) hb
    omega

theorem ofNat_congr {w m n : ℕ} (h : ∀ i < w, m.testBit i = n.testBit i) :
    ofNat w m = ofNat w n := by
  induction w with
  | zero => rfl
  | succ w ih => rw [ofNat, ofNat, h w (by omega), ih fun i hi => h i (by omega)]

theorem ofNat_toNat (bits : List Bool) : ofNat bits.length (toNat bits) = bits := by
  induction bits with
  | nil => rfl
  | cons b bits ih =>
    have hlow : ofNat bits.length (2 ^ bits.length * b.toNat + toNat bits) =
        ofNat bits.length (toNat bits) := by
      apply ofNat_congr
      intro i hi
      rw [Nat.testBit_two_pow_mul_add _ (toNat_lt bits), if_pos hi]
    rw [List.length_cons, ofNat, toNat_cons, Nat.testBit_two_pow_mul_add _ (toNat_lt bits), hlow,
      ih]
    cases b <;> simp

theorem toNat_ofNat (w n : ℕ) : toNat (ofNat w n) = n % 2 ^ w := by
  induction w with
  | zero => simp [ofNat, toNat, Nat.mod_one]
  | succ w ih =>
    rw [ofNat, toNat_cons, length_ofNat, ih, Nat.mod_pow_succ, Nat.toNat_testBit, Nat.add_comm]

theorem toBytes_of_length_lt {left : List Bool} (h : left.length < 8) :
    toBytes left = ([], left) := by
  unfold toBytes
  split
  · simp at h
    omega
  · rfl

theorem toBytes_ofBytes_append (bs : Bytes) {left : List Bool} (h : left.length < 8) :
    toBytes (ofBytes bs ++ left) = (bs, left) := by
  induction bs with
  | nil => exact toBytes_of_length_lt h
  | cons b bs ih =>
    have hbyte : UInt8.ofNat (toNat (ofNat 8 b.toNat)) = b := by
      have := b.toNat_lt
      rw [toNat_ofNat, Nat.mod_eq_of_lt this, UInt8.ofNat_toNat]
    have hcons : ofBytes (b :: bs) ++ left = ofNat 8 b.toNat ++ (ofBytes bs ++ left) := by
      simp [ofBytes]
    rw [hcons]
    simp only [ofNat, List.cons_append, List.nil_append] at hbyte ⊢
    rw [toBytes, ih, hbyte]

theorem ofBytes_toBytes (bits : List Bool) :
    ofBytes (toBytes bits).1 ++ (toBytes bits).2 = bits := by
  fun_induction toBytes bits with
  | case1 b₀ b₁ b₂ b₃ b₄ b₅ b₆ b₇ rest bs left hrest ih =>
    have hlt : toNat [b₀, b₁, b₂, b₃, b₄, b₅, b₆, b₇] < 2 ^ 8 :=
      toNat_lt [b₀, b₁, b₂, b₃, b₄, b₅, b₆, b₇]
    have hbyte : ofNat 8 (UInt8.ofNat (toNat [b₀, b₁, b₂, b₃, b₄, b₅, b₆, b₇])).toNat =
        [b₀, b₁, b₂, b₃, b₄, b₅, b₆, b₇] := by
      rw [UInt8.toNat_ofNat', Nat.mod_eq_of_lt hlt]
      exact ofNat_toNat [b₀, b₁, b₂, b₃, b₄, b₅, b₆, b₇]
    rw [hrest] at ih
    simp only [ofBytes, List.flatMap_cons, hbyte] at ih ⊢
    rw [List.append_assoc, ih]
    rfl
  | case2 => rfl

theorem length_ofBytes (bs : Bytes) : (ofBytes bs).length = 8 * bs.length := by
  induction bs with
  | nil => rfl
  | cons b bs ih =>
    unfold ofBytes at ih ⊢
    rw [List.flatMap_cons, List.length_append, ih, length_ofNat, List.length_cons]
    omega

end Bits

namespace Segwit

theorem ofNat_symbolOf {bits : List Bool} (h : bits.length ≤ 5) :
    Bits.ofNat 5 (symbolOf bits).toNat = bits ++ List.replicate (5 - bits.length) false := by
  have hlen : (bits ++ List.replicate (5 - bits.length) false).length = 5 := by
    simp
    omega
  have hlt := Bits.toNat_lt (bits ++ List.replicate (5 - bits.length) false)
  have hback := Bits.ofNat_toNat (bits ++ List.replicate (5 - bits.length) false)
  rw [hlen] at hlt hback
  rw [symbolOf, BitVec.toNat_ofNat, Nat.mod_eq_of_lt hlt, hback]

theorem length_lt_five {rest : List Bool}
    (h : ∀ b₀ b₁ b₂ b₃ b₄ tail, rest = b₀ :: b₁ :: b₂ :: b₃ :: b₄ :: tail → False) :
    rest.length < 5 := by
  match rest with
  | [] | [_] | [_, _] | [_, _, _] | [_, _, _, _] => simp
  | b₀ :: b₁ :: b₂ :: b₃ :: b₄ :: tail => exact (h b₀ b₁ b₂ b₃ b₄ tail rfl).elim

/-- The symbols of a list of bits are these bits, filled up with at most four zeros. -/
theorem toBits_toSymbols (bits : List Bool) :
    ∃ k ≤ 4, toBits (toSymbols bits) = bits ++ List.replicate k false := by
  fun_induction toSymbols bits with
  | case1 b₀ b₁ b₂ b₃ b₄ rest ih =>
    obtain ⟨k, hk, ih⟩ := ih
    refine ⟨k, hk, ?_⟩
    unfold toBits at ih ⊢
    rw [List.flatMap_cons, ih, ofNat_symbolOf (by simp)]
    simp
  | case2 => exact ⟨0, by omega, rfl⟩
  | case3 rest hshort hne =>
    have hlt := length_lt_five hshort
    have hpos : 0 < rest.length := List.length_pos_iff.mpr hne
    refine ⟨5 - rest.length, by omega, ?_⟩
    rw [← ofNat_symbolOf (by omega)]
    simp [toBits]

theorem length_toSymbols (bits : List Bool) : 5 * (toSymbols bits).length ≤ bits.length + 4 := by
  fun_induction toSymbols bits with
  | case1 b₀ b₁ b₂ b₃ b₄ rest ih =>
    simp only [List.length_cons]
    omega
  | case2 => simp
  | case3 rest hshort hne =>
    have hpos : 0 < rest.length := List.length_pos_iff.mpr hne
    simp only [List.length_singleton]
    omega

theorem toBytes?_toSymbols (bs : Bytes) : toBytes? (toSymbols (Bits.ofBytes bs)) = some bs := by
  obtain ⟨k, hk, hbits⟩ := toBits_toSymbols (Bits.ofBytes bs)
  have hleft : (List.replicate k false).length < 8 := by
    rw [List.length_replicate]
    omega
  rw [toBytes?, hbits, Bits.toBytes_ofBytes_append bs hleft]
  simp [hk]

theorem length_toBits (symbols : List Bech32.Symbol) :
    (toBits symbols).length = 5 * symbols.length := by
  unfold toBits
  rw [List.length_flatMap]
  simp [Nat.mul_comm]

theorem toBits_injective {symbols symbols' : List Bech32.Symbol}
    (h : toBits symbols = toBits symbols') : symbols = symbols' := by
  induction symbols generalizing symbols' with
  | nil =>
    have hlen := congrArg List.length h
    rw [length_toBits, length_toBits, List.length_nil] at hlen
    exact (List.eq_nil_of_length_eq_zero (by omega)).symm
  | cons s symbols ih =>
    cases symbols' with
    | nil =>
      have hlen := congrArg List.length h
      rw [length_toBits, length_toBits, List.length_cons, List.length_nil] at hlen
      omega
    | cons s' symbols' =>
      unfold toBits at h ih
      rw [List.flatMap_cons, List.flatMap_cons] at h
      obtain ⟨hs, hsymbols⟩ := List.append_inj h (by simp)
      have hs := congrArg Bits.toNat hs
      rw [Bits.toNat_ofNat, Bits.toNat_ofNat, Nat.mod_eq_of_lt s.isLt,
        Nat.mod_eq_of_lt s'.isLt] at hs
      rw [BitVec.eq_of_toNat_eq hs, ih hsymbols]

/-- Symbols that are read as bytes are the ones that these are written as. -/
theorem eq_toSymbols_of_toBytes? {symbols : List Bech32.Symbol} {bs : Bytes}
    (h : toBytes? symbols = some bs) : symbols = toSymbols (Bits.ofBytes bs) := by
  have hbits := Bits.ofBytes_toBytes (toBits symbols)
  unfold toBytes? at h
  dsimp only at h
  generalize (Bits.toBytes (toBits symbols)).1 = bytes at h hbits
  generalize (Bits.toBytes (toBits symbols)).2 = left at h hbits
  split at h
  · next hleft =>
    obtain rfl := Option.some.inj h
    simp only [Bool.and_eq_true, decide_eq_true_iff] at hleft
    obtain ⟨hshort, hall⟩ := hleft
    obtain ⟨k, hk, hback⟩ := toBits_toSymbols (Bits.ofBytes bytes)
    have hzeros : left = List.replicate left.length false := by
      apply List.eq_replicate_of_mem
      intro b hb
      simpa using List.all_eq_true.mp hall b hb
    -- Both fill up to whole symbols, and with fewer bits than a symbol has.
    have hlen : left.length = k := by
      have hread := congrArg List.length hbits
      have hwritten := congrArg List.length hback
      rw [length_toBits, List.length_append] at hread hwritten
      rw [List.length_replicate] at hwritten
      omega
    apply toBits_injective
    rw [← hbits, hback, hzeros, hlen]
  · cases h

/-! ### Programs -/

/-- A program that has a text. -/
def Program.Valid (p : Program) : Prop := p.version ≤ 16 ∧ p.lengthOk = true

theorem valid_of_decode? {cs hrp : List Char} {p : Program} (h : decode? cs = some (hrp, p)) :
    p.Valid := by
  unfold decode? at h
  split at h
  · cases h
  · obtain ⟨⟨hrp', symbols⟩, _, h⟩ := Option.bind_eq_some_iff.mp h
    dsimp only at h
    split at h
    · cases h
    · split at h
      · next hsum =>
        obtain ⟨bytes, _, h⟩ := Option.bind_eq_some_iff.mp h
        split at h
        · next hlen =>
          obtain ⟨_, rfl⟩ := Prod.mk.inj (Option.some.inj h)
          simp only [Bool.and_eq_true, decide_eq_true_iff] at hsum
          exact ⟨hsum.1.1, hlen⟩
        · cases h
      · cases h

theorem length_encode_le {hrp : List Char} (hhrp : hrp.length ≤ 4) {p : Program} (hp : p.Valid) :
    (encode hrp p).length ≤ 90 := by
  have hbytes : p.bytes.length ≤ 40 := by
    have hlen := hp.2
    unfold Program.lengthOk at hlen
    simp only [Bool.and_eq_true, decide_eq_true_iff] at hlen
    exact hlen.1.2
  have hsymbols := length_toSymbols (Bits.ofBytes p.bytes)
  rw [Bits.length_ofBytes] at hsymbols
  simp only [encode, Bech32.encode, Bech32.checksum, List.length_append, List.length_cons,
    List.length_map, List.length_nil]
  omega

theorem decode?_encode {hrp : List Char} (hhrp : Bech32.LowerHrp hrp) (hshort : hrp.length ≤ 4)
    {p : Program} (hp : p.Valid) : decode? (encode hrp p) = some (hrp, p) := by
  have hversion : (BitVec.ofNat 5 p.version).toNat = p.version := by
    have := hp.1
    rw [BitVec.toNat_ofNat]
    omega
  have hlong : ¬ 90 < (encode hrp p).length := by
    have := length_encode_le hshort hp
    omega
  generalize hsum : Bech32.checksum (Program.variant p.version) hrp
    (BitVec.ofNat 5 p.version :: toSymbols (Bits.ofBytes p.bytes)) = sum
  have hsix : sum.length = 6 := by
    rw [← hsum]
    rfl
  have hverify : Bech32.verify (Program.variant p.version) hrp
      (BitVec.ofNat 5 p.version :: (toSymbols (Bits.ofBytes p.bytes) ++ sum)) = true := by
    rw [Bech32.verify, ← List.cons_append, ← hsum, Bech32.residue_append_checksum]
    exact beq_self_eq_true _
  have hfront : (toSymbols (Bits.ofBytes p.bytes) ++ sum).take
      ((toSymbols (Bits.ofBytes p.bytes) ++ sum).length - 6) =
        toSymbols (Bits.ofBytes p.bytes) := by
    rw [List.length_append, hsix, Nat.add_sub_cancel, List.take_left]
  unfold decode?
  rw [if_neg hlong]
  rw [encode, Bech32.symbols?_encode _ hhrp, hsum]
  simp only [Option.bind_eq_bind, Option.bind_some, List.cons_append, hversion, hverify, hfront,
    toBytes?_toSymbols]
  rw [if_pos (by simp [hp.1, hsix]), if_pos hp.2]
  rfl

end Segwit

end CoinWatch
