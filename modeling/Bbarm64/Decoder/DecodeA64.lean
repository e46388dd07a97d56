import Bbarm64.A64.Isa
import Bbarm64.Decoder.DecodeFacts

/-!
# Decoder.DecodeA64 — the decoder on the A64 subset

`Decodes i d` says which fields of the record `d` carry the operands of the instruction `i`.  The
decoder finds the fields of every word of the subset, whatever route the word takes: `decode` offers
the words of ADD and MOVZ to `decode_data_proc_reg` first, which refuses them.
-/

namespace Bbarm64

open X86

namespace ARM64Decoder

/-! ## Bit ranges as slices -/

/-- A range above bit `k` is one of the word shifted down by `k`. -/
theorem bits_shift {w v : BitVec 32} {k : ℕ} (h : w >>> k = v) (hi lo : ℕ) (hk : k ≤ lo)
    (hl : lo ≤ hi) : bits w hi lo = bits v (hi - k) (lo - k) := by
  have e : hi - k - (lo - k) = hi - lo := by omega
  rw [bits, bits, ← h, e, ← BitVec.shiftRight_add, Nat.add_sub_cancel' hk]

/-- The test for MOVZ, MOVK and MOVN fails on the bits above bit 23. -/
theorem not_movz {w v : BitVec 32} (h : w >>> 24 = v) (hv : bits v 4 0 ≠ 0x12#32) :
    bits w 28 23 ≠ 0x25#32 := by
  rw [← bits_shift h 28 24 (by decide) (by decide)] at hv
  refine fun he => hv (BitVec.eq_of_toNat_eq ?_)
  have hn := congrArg BitVec.toNat he
  rw [bits_toNat w (by decide)] at hn ⊢
  change _ = 18
  change _ = 37 at hn
  omega

/-- A range, widened, is a slice of the word. -/
theorem setWidth_bits (w : BitVec 32) {hi lo n : ℕ} (hn : hi - lo + 1 = n) (h : n < 32) {k : ℕ}
    (hk : n ≤ k) : (bits w hi lo).setWidth k = (w.extractLsb' lo n).setWidth k := by
  subst hn
  have hpow : 2 ^ (hi - lo + 1) ≤ 2 ^ k := Nat.pow_le_pow_right (by decide) hk
  have hmod := Nat.mod_lt (w.toNat / 2 ^ lo) (Nat.two_pow_pos (hi - lo + 1))
  apply BitVec.eq_of_toNat_eq
  rw [BitVec.toNat_setWidth, bits_toNat w h, BitVec.toNat_setWidth, BitVec.extractLsb'_toNat,
    Nat.shiftRight_eq_div_pow, Nat.mod_eq_of_lt (Nat.lt_of_lt_of_le hmod hpow)]

theorem mask_getLsbD {n : ℕ} (hn : n < 64) (i : ℕ) :
    ((1#64 <<< n) - 1#64).getLsbD i = decide (i < n) := by
  have hpos : 0 < 2 ^ n := Nat.two_pow_pos n
  have hlt : 2 ^ n < 2 ^ 64 := Nat.pow_lt_pow_right (by decide) hn
  have h : ((1#64 <<< n) - 1#64).toNat = 2 ^ n - 1 := by
    simp only [BitVec.toNat_sub, BitVec.toNat_shiftLeft, BitVec.toNat_ofNat, Nat.shiftLeft_eq]
    omega
  rw [← BitVec.testBit_toNat, h, Nat.testBit_two_pow_sub_one]

theorem shiftLeft_one_ne {n k : ℕ} (h : k < n) : 1#n <<< k ≠ 0#n := by
  intro h0
  have h1 : (1#n <<< k).getLsbD k = true := by
    rw [← BitVec.twoPow_eq, BitVec.getLsbD_twoPow]
    simp [h]
  rw [h0, BitVec.getLsbD_zero] at h1
  cases h1

/-- `sign_extend` extends the low `n` bits. -/
theorem sign_extend_eq (val : BitVec 64) {n : ℕ} (h₀ : 0 < n) (h : n ≤ 32) :
    sign_extend val n = (val.setWidth n).signExtend 32 := by
  have hlast : n - 1 < n := by omega
  have hmask := mask_getLsbD (show n < 64 by omega)
  have hmsb : (val.setWidth n).msb = val.getLsbD (n - 1) := by
    rw [BitVec.msb_eq_getLsbD_last, BitVec.getLsbD_setWidth, decide_eq_true hlast, Bool.true_and]
  unfold sign_extend
  dsimp only
  generalize (1#64 <<< n) - 1#64 = mask at hmask
  have hsign : (val &&& mask) &&& (1#64 <<< (n - 1)) ≠ 0#64 ↔ val.getLsbD (n - 1) = true := by
    have hne : BitVec.twoPow 64 (n - 1) ≠ 0#64 := by
      rw [BitVec.twoPow_eq]
      exact shiftLeft_one_ne (by omega)
    rw [← BitVec.twoPow_eq, BitVec.and_twoPow, BitVec.getLsbD_and, hmask, decide_eq_true hlast,
      Bool.and_true]
    split_ifs with hb
    · simp [hb, hne]
    · simp [hb]
  apply BitVec.eq_of_getLsbD_eq
  intro i hi
  have h64 : i < 64 := by omega
  rw [BitVec.getLsbD_signExtend, hmsb, BitVec.getLsbD_setWidth, BitVec.getLsbD_setWidth]
  simp only [hsign, hi, decide_true, Bool.true_and]
  -- by the sign, and by whether bit `i` lies in the field
  by_cases hs : val.getLsbD (n - 1) = true <;> by_cases hn : i < n
  · simp only [if_pos hs, BitVec.getLsbD_or, BitVec.getLsbD_and, BitVec.getLsbD_not, hmask, h64,
      decide_true, hn]
    simp
  · simp only [if_pos hs, BitVec.getLsbD_or, BitVec.getLsbD_and, BitVec.getLsbD_not, hmask, h64,
      decide_true, hn]
    simp [hs]
  · simp only [if_neg hs, BitVec.getLsbD_and, hmask, decide_true, hn]
    simp
  · simp only [if_neg hs, BitVec.getLsbD_and, hmask, hn]
    simpa using hs

theorem signExtend_signExtend {n : ℕ} (v : BitVec n) (h : n ≤ 32) :
    (v.signExtend 32).signExtend 64 = v.signExtend 64 := by
  apply BitVec.eq_of_toInt_eq
  rw [BitVec.toInt_signExtend_of_le (by decide), BitVec.toInt_signExtend_of_le h,
    BitVec.toInt_signExtend_of_le (by omega)]

/-- A branch offset in bytes, extended after the shift or before. -/
theorem signExtend_shiftLeft (v : BitVec 26) :
    (v.signExtend 32 <<< 2).signExtend 64 = v.signExtend 64 <<< 2 := by
  have hmsb : (v.signExtend 32 <<< 2).msb = v.msb := by
    rw [BitVec.msb_eq_getLsbD_last, BitVec.getLsbD_shiftLeft, BitVec.getLsbD_signExtend]
    rfl
  apply BitVec.eq_of_getLsbD_eq
  intro i hi
  rw [BitVec.getLsbD_signExtend, hmsb]
  simp only [BitVec.getLsbD_shiftLeft, BitVec.getLsbD_signExtend, hi, decide_true, Bool.true_and]
  by_cases h32 : i < 32
  · have h1 : i - 2 < 32 := by omega
    have h2 : i - 2 < 64 := by omega
    simp only [h32, h1, h2, decide_true, Bool.true_and, ↓reduceIte]
  · have h1 : ¬ i < 2 := by omega
    have h2 : i - 2 < 64 := by omega
    have h3 : ¬ i - 2 < 26 := by omega
    simp only [if_neg h32, h1, h2, if_neg h3, decide_false, decide_true, Bool.not_false,
      Bool.true_and]

/-! ## The subset -/

/-- The fields of `d` that carry the operands of `i`. -/
def Decodes (i : A64.Insn) (d : DecodedInstr) : Prop :=
  match i with
  | .addImm rd rn imm => d.opcode = 0x00#8 ∧ d.rd = rd.setWidth 8 ∧ d.rn = rn.setWidth 8 ∧
      d.rm = 0xFF#8 ∧ d.imm = imm ∧ d.sets_flags = false
  | .movz rd imm16 => d.opcode = 0x22#8 ∧ d.rd = rd.setWidth 8 ∧ d.imm = imm16.setWidth 64
  | .adr rd imm21 => d.opcode = 0x24#8 ∧ d.rd = rd.setWidth 8 ∧ d.imm_s = imm21.signExtend 64
  | .adrp rd imm21 => d.opcode = 0x25#8 ∧ d.rd = rd.setWidth 8 ∧ d.imm_s = imm21.signExtend 64
  | .nop => d.opcode = 0x90#8
  | .b imm26 => d.opcode = 0x50#8 ∧ d.branch_offset = imm26.signExtend 32 <<< 2
  | .bl imm26 => d.opcode = 0x51#8 ∧ d.branch_offset = imm26.signExtend 32 <<< 2

section Subset

variable {w : BitVec 32}

theorem extract_eq_iff {s n : ℕ} {v : BitVec n} :
    w.extractLsb' s n = v ↔ w.toNat / 2 ^ s % 2 ^ n = v.toNat := by
  rw [← BitVec.toNat_inj, BitVec.extractLsb'_toNat, Nat.shiftRight_eq_div_pow]

theorem getLsbD_iff {k : ℕ} : w.getLsbD k = true ↔ w.toNat / 2 ^ k % 2 = 1 := by
  rw [BitVec.getLsbD, Nat.testBit_eq_decide_div_mod_eq, decide_eq_true_eq]

/-- The high bits of a word, from a slice of it. -/
theorem toNat_of_extract {s n : ℕ} {v : BitVec n} (h : w.extractLsb' s n = v) :
    w.toNat / 2 ^ s % 2 ^ n = v.toNat :=
  extract_eq_iff.mp h

theorem shiftRight_eq {k c : ℕ} (hc : c < 2 ^ 32) (h : w.toNat / 2 ^ k = c) :
    w >>> k = BitVec.ofNat 32 c := by
  apply BitVec.eq_of_toNat_eq
  rw [BitVec.toNat_ushiftRight, Nat.shiftRight_eq_div_pow, h, BitVec.toNat_ofNat,
    Nat.mod_eq_of_lt hc]

/-- The top byte. -/
theorem top_of_extract {v : BitVec 8} (h : w.extractLsb' 24 8 = v) : w >>> 24 = v.setWidth 32 := by
  have hn := toNat_of_extract h
  have hlt := w.isLt
  have hv := v.isLt
  apply BitVec.eq_of_toNat_eq
  rw [BitVec.toNat_ushiftRight, Nat.shiftRight_eq_div_pow, BitVec.toNat_setWidth]
  omega

/-- The top `n` bits, with the two bits below them in all four ways. -/
theorem shiftRight_cases {s n : ℕ} {v : BitVec n} (hn : s + 2 + n = 32)
    (h : w.extractLsb' (s + 2) n = v) : ∃ j < 4, w >>> s = BitVec.ofNat 32 (4 * v.toNat + j) := by
  have hq : w.toNat / 2 ^ (s + 2) = v.toNat := by
    have hlt : w.toNat / 2 ^ (s + 2) < 2 ^ n := by
      rw [Nat.div_lt_iff_lt_mul (Nat.two_pow_pos _), ← Nat.pow_add, Nat.add_comm n, hn]
      exact w.isLt
    rw [← toNat_of_extract h, Nat.mod_eq_of_lt hlt]
  have hdiv : w.toNat / 2 ^ s / 4 = v.toNat := by
    rw [Nat.div_div_eq_div_mul, ← hq, Nat.pow_add]
  have hle : w.toNat / 2 ^ s ≤ w.toNat := Nat.div_le_self _ _
  have hlt := w.isLt
  refine ⟨w.toNat / 2 ^ s % 4, Nat.mod_lt _ (by decide), shiftRight_eq ?_ ?_⟩ <;> omega

theorem decode_rd (w : BitVec 32) : bits8 w 4 0 = (w.extractLsb' 0 5).setWidth 8 :=
  setWidth_bits w rfl (by decide) (by decide)

theorem decode_rn (w : BitVec 32) : bits8 w 9 5 = (w.extractLsb' 5 5).setWidth 8 :=
  setWidth_bits w rfl (by decide) (by decide)

theorem decodes_addImm (h : w.extractLsb' 23 9 = 0b100100010#9) : (decode w).1 = true ∧
    Decodes (.addImm (w.extractLsb' 0 5) (w.extractLsb' 5 5)
      (if w.getLsbD 22 then (w.extractLsb' 10 12).setWidth 64 <<< 12
        else (w.extractLsb' 10 12).setWidth 64)) (decode w).2 := by
  have himm : (bits w 21 10).setWidth 64 = (w.extractLsb' 10 12).setWidth 64 :=
    setWidth_bits w rfl (by decide) (by decide)
  obtain ⟨j, hj, h⟩ := shiftRight_cases (s := 21) rfl h
  have h22 : w.getLsbD 22 = (w >>> 21).getLsbD 1 := by rw [BitVec.getLsbD_ushiftRight]
  rw [h22]
  -- by bits 22 and 21, so that every test of the routes is closed
  obtain rfl | rfl | rfl | rfl : j = 0 ∨ j = 1 ∨ j = 2 ∨ j = 3 := by omega
  all_goals
    have hb := bits_shift h
    rw [h]
    simp +decide only [decode, decode_pcrel, decode_mid, decode_data_proc_reg, decode_data_proc_imm,
      hb, unknown, orElseIf, orElse, if_false, if_true, false_and, and_false, or_false, true_and,
      and_true, Decodes, decode_rd, decode_rn, himm]

theorem decodes_movz (h : w.extractLsb' 21 10 = 0b1010010100#10) : (decode w).1 = true ∧
    Decodes (.movz (w.extractLsb' 0 5) (w.extractLsb' 5 16)) (decode w).2 := by
  have himm : (bits w 20 5).setWidth 64 = (w.extractLsb' 5 16).setWidth 64 :=
    setWidth_bits w rfl (by decide) (by decide)
  have hcases : w >>> 21 = 0x294#32 ∨ w >>> 21 = 0x694#32 := by
    have h' := toNat_of_extract h
    have hlt := w.isLt
    have hq : w.toNat / 2 ^ 21 = 0x294 ∨ w.toNat / 2 ^ 21 = 0x694 := by
      simp only [BitVec.toNat_ofNat] at h'
      omega
    exact hq.imp (shiftRight_eq (by decide)) (shiftRight_eq (by decide))
  rcases hcases with h | h <;>
  · have hb := bits_shift h
    simp +decide only [decode, decode_pcrel, decode_mid, decode_data_proc_reg, decode_data_proc_imm,
      hb, unknown, orElseIf, orElse, if_false, if_true, false_and, and_false, or_false, true_and,
      and_true, Decodes, decode_rd, himm]

/-- The immediate of ADR and ADRP. -/
theorem decode_imm21 (w : BitVec 32) :
    (sign_extend (((bits w 23 5 <<< 2) ||| bits w 30 29).setWidth 64) 21).signExtend 64 =
      (w.extractLsb' 5 19 ++ w.extractLsb' 29 2).signExtend 64 := by
  have hhi : (bits w 23 5).setWidth 32 = (w.extractLsb' 5 19).setWidth 32 :=
    setWidth_bits w rfl (by decide) (by decide)
  have hlo : (bits w 30 29).setWidth 32 = (w.extractLsb' 29 2).setWidth 32 :=
    setWidth_bits w rfl (by decide) (by decide)
  rw [BitVec.setWidth_eq] at hhi hlo
  have himm : (((bits w 23 5 <<< 2) ||| bits w 30 29).setWidth 64).setWidth 21 =
      w.extractLsb' 5 19 ++ w.extractLsb' 29 2 := by
    rw [hhi, hlo]
    generalize w.extractLsb' 5 19 = a
    generalize w.extractLsb' 29 2 = b
    apply BitVec.eq_of_getLsbD_eq
    intro i hi
    have h64 : i < 64 := by omega
    have h32 : i < 32 := by omega
    have h32' : i - 2 < 32 := by omega
    rw [BitVec.getLsbD_append]
    simp only [BitVec.getLsbD_setWidth, BitVec.getLsbD_or, BitVec.getLsbD_shiftLeft, hi, h64, h32,
      h32', decide_true, Bool.true_and]
    by_cases h2 : i < 2
    · simp [h2]
    · have hb : b.getLsbD i = false := BitVec.getLsbD_of_ge _ _ (by omega)
      simp [h2, hb]
  rw [sign_extend_eq _ (by decide) (by decide), himm, signExtend_signExtend _ (by decide)]

theorem decodes_adr (h : w.extractLsb' 24 8 = 0b00010000#8) : (decode w).1 = true ∧
    Decodes (.adr (w.extractLsb' 0 5) (w.extractLsb' 5 19 ++ w.extractLsb' 29 2)) (decode w).2 := by
  have h : w >>> 24 = 0x10#32 := top_of_extract h
  have hb := bits_shift h
  have himm := decode_imm21 w
  rw [hb 30 29 (by decide) (by decide)] at himm
  simp +decide only [decode, decode_pcrel, hb, if_true, Decodes, decode_rd, himm, true_and]

theorem decodes_adrp (h₁ : w.extractLsb' 31 1 = 1#1) (h₂ : w.extractLsb' 24 5 = 0b10000#5) :
    (decode w).1 = true ∧ Decodes
      (.adrp (w.extractLsb' 0 5) (w.extractLsb' 5 19 ++ w.extractLsb' 29 2)) (decode w).2 := by
  have hcases : w >>> 24 = 0x90#32 ∨ w >>> 24 = 0xB0#32 ∨ w >>> 24 = 0xD0#32 ∨
      w >>> 24 = 0xF0#32 := by
    have h₁' := toNat_of_extract h₁
    have h₂' := toNat_of_extract h₂
    have hlt := w.isLt
    have hq : w.toNat / 2 ^ 24 = 0x90 ∨ w.toNat / 2 ^ 24 = 0xB0 ∨ w.toNat / 2 ^ 24 = 0xD0 ∨
        w.toNat / 2 ^ 24 = 0xF0 := by
      simp only [BitVec.toNat_ofNat] at h₁' h₂'
      omega
    exact hq.imp (shiftRight_eq (by decide)) (.imp (shiftRight_eq (by decide))
      (.imp (shiftRight_eq (by decide)) (shiftRight_eq (by decide))))
  have himm := decode_imm21 w
  rcases hcases with h | h | h | h <;>
  · have hb := bits_shift h
    rw [hb 30 29 (by decide) (by decide)] at himm
    simp +decide only [decode, decode_pcrel, hb, if_true, if_false, Decodes, decode_rd, himm,
      true_and]

theorem decodes_nop : (decode 0xD503201F#32).1 = true ∧ Decodes .nop (decode 0xD503201F#32).2 :=
  ⟨by decide, (by decide : (decode 0xD503201F#32).2.opcode = 0x90#8)⟩

/-- The offset of B and BL. -/
theorem decode_imm26 (w : BitVec 32) :
    sign_extend (w.setWidth 64) 26 = (w.extractLsb' 0 26).signExtend 32 := by
  rw [sign_extend_eq _ (by decide) (by decide), BitVec.setWidth_setWidth_of_le _ (by decide),
    BitVec.setWidth_eq_extractLsb' (by decide)]

theorem decodes_b (h : w.extractLsb' 26 6 = 0b000101#6) :
    (decode w).1 = true ∧ Decodes (.b (w.extractLsb' 0 26)) (decode w).2 := by
  obtain ⟨j, hj, h⟩ := shiftRight_cases (s := 24) rfl h
  obtain rfl | rfl | rfl | rfl : j = 0 ∨ j = 1 ∨ j = 2 ∨ j = 3 := by omega
  all_goals
    have hb := bits_shift h
    simp +decide only [decode, decode_branch, hb, if_true, if_false, Decodes, decode_imm26, true_and,
      false_and, true_or]

theorem decodes_bl (h : w.extractLsb' 26 6 = 0b100101#6) :
    (decode w).1 = true ∧ Decodes (.bl (w.extractLsb' 0 26)) (decode w).2 := by
  obtain ⟨j, hj, h⟩ := shiftRight_cases (s := 24) rfl h
  obtain rfl | rfl | rfl | rfl : j = 0 ∨ j = 1 ∨ j = 2 ∨ j = 3 := by omega
  all_goals
    have hb := bits_shift h
    simp +decide only [decode, decode_branch, hb, if_true, if_false, Decodes, decode_imm26, true_and,
      false_and, or_true]

end Subset

/-- **The subset decodes**: the record of a word of the subset carries its operands. -/
theorem decodes_of_ofWord? {w : BitVec 32} {i : A64.Insn} (h : A64.Insn.ofWord? w = some i) :
    ∃ d, decode? w = some d ∧ Decodes i d := by
  have key : (decode w).1 = true ∧ Decodes i (decode w).2 := by
    unfold A64.Insn.ofWord? at h
    dsimp only at h
    split_ifs at h with h1 h22 h2 h3 h4 h5 h6 h7
    · have hadd := decodes_addImm h1
      rw [if_pos h22] at hadd
      exact Option.some.inj h ▸ hadd
    · have hadd := decodes_addImm h1
      rw [if_neg h22] at hadd
      exact Option.some.inj h ▸ hadd
    · exact Option.some.inj h ▸ decodes_movz h2.1
    · exact Option.some.inj h ▸ decodes_adr h3.1
    · exact Option.some.inj h ▸ decodes_adrp h4.1 h4.2.1
    · rw [h5, ← Option.some.inj h]
      exact decodes_nop
    · exact Option.some.inj h ▸ decodes_b h6
    · exact Option.some.inj h ▸ decodes_bl h7
  exact ⟨_, if_pos key.1, key.2⟩

/-- `bl .-4` -/
example : A64.Insn.ofWord? 0x97FFFFFF#32 = some (.bl 0x3FFFFFF#26) ∧
    (decode 0x97FFFFFF#32).2.branch_offset = 0xFFFFFFFC#32 := by decide

end ARM64Decoder

end Bbarm64
