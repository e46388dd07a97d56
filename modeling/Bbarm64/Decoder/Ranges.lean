import Bbarm64.Decoder.DecodeA64
import Bbarm64.Decoder.DecodeFacts
import Mathlib.Algebra.Ring.Int.Defs

/-!
# Decoder.Ranges — the ranges of the record

`decode` answers false exactly when it leaves the category UNKNOWN, and otherwise every field of the
record lies in the range of the bits it was cut from.
-/

namespace Bbarm64

open X86

namespace ARM64Decoder

/-- The value is the sign extension of its low half. -/
def Fits32 (v : BitVec 64) : Prop := (v.setWidth 32).signExtend 64 = v

instance (v : BitVec 64) : Decidable (Fits32 v) := inferInstanceAs (Decidable (_ = _))

/-- The opcodes of ASR, LSR and LSL. -/
def shift_opcodes : List Byte := [0x04#8, 0x05#8, 0x06#8]

/-- The record of an accepted word. -/
structure InRange (d : DecodedInstr) : Prop where
  rd : IsArm d.rd
  rn : IsArm d.rn
  rt : IsArm d.rt
  rm : IsArm d.rm ∨ d.rm = 255#8
  cond : d.cond.toNat < 16
  shift_type : d.shift_type.toNat < 4
  /-- The immediate of ADD and SUB. -/
  arith : d.opcode ∈ [0x00#8, 0x01#8] → d.rm = 255#8 → d.imm.toNat < 2 ^ 24
  /-- Shifts are by a count. -/
  shift : d.opcode ∈ shift_opcodes → d.rm = 255#8 ∧ d.imm.toNat < 64
  imm : Fits32 d.imm
  pc_relative : d.is_pc_relative = true → -2 ^ 20 ≤ d.imm_s.toInt ∧ d.imm_s.toInt < 2 ^ 20
  branch : -2 ^ 27 ≤ d.branch_offset.toInt ∧ d.branch_offset.toInt < 2 ^ 27 ∧
    (4 : ℤ) ∣ d.branch_offset.toInt

/-! ## Widths -/

section Widths

theorem fits32_of_toInt {v : BitVec 64} (h₁ : -2 ^ 31 ≤ v.toInt) (h₂ : v.toInt < 2 ^ 31) : Fits32 v := by
  apply BitVec.eq_of_toInt_eq
  rw [BitVec.toInt_signExtend_of_le (by decide), BitVec.toInt_setWidth, Int.bmod_def]
  rw [BitVec.toInt_eq_toNat_cond] at h₁ h₂ ⊢
  split_ifs at h₁ h₂ ⊢ <;> omega

theorem fits32_of_toNat {v : BitVec 64} (h : v.toNat < 2 ^ 31) : Fits32 v := by
  have hint : v.toInt = v.toNat := BitVec.toInt_eq_toNat_of_lt (by omega)
  exact fits32_of_toInt (by omega) (by omega)

theorem toInt_bounds {n : ℕ} (v : BitVec (n + 1)) : -2 ^ n ≤ v.toInt ∧ v.toInt < 2 ^ n := by
  have h₁ : -2 ^ (n + 1) ≤ 2 * v.toInt := v.le_two_mul_toInt
  have h₂ : 2 * v.toInt < 2 ^ (n + 1) := v.two_mul_toInt_lt
  have hpow : (2 : ℤ) ^ (n + 1) = 2 ^ n * 2 := Int.pow_succ 2 n
  omega

/-- A branch offset, in bytes. -/
theorem toInt_shiftLeft_two {n : ℕ} (v : BitVec (n + 1)) (h : n < 26) :
    (v.signExtend 32 <<< 2).toInt = 4 * v.toInt := by
  have hint : (v.signExtend 32).toInt = v.toInt := BitVec.toInt_signExtend_of_le (by omega)
  obtain ⟨h₁, h₂⟩ := toInt_bounds v
  have hpow : (2 : ℤ) ^ n ≤ 2 ^ 25 := by
    exact_mod_cast Nat.pow_le_pow_right (by decide : 0 < 2) (by omega : n ≤ 25)
  rw [← hint] at h₁ h₂ ⊢
  generalize v.signExtend 32 = x at h₁ h₂
  rw [BitVec.toInt_eq_toNat_cond] at h₁ h₂ ⊢
  rw [BitVec.toInt_eq_toNat_cond, BitVec.toNat_shiftLeft, Nat.shiftLeft_eq]
  split_ifs at h₁ h₂ ⊢ <;> omega

/-- A field of the word that `sign_extend` widens. -/
theorem toInt_sign_extend (v : BitVec 64) {n : ℕ} (h : n < 32) :
    -2 ^ n ≤ ((sign_extend v (n + 1)).signExtend 64).toInt ∧
      ((sign_extend v (n + 1)).signExtend 64).toInt < 2 ^ n := by
  rw [sign_extend_eq v n.succ_pos (by omega), signExtend_signExtend _ (by omega),
    BitVec.toInt_signExtend_of_le (by omega)]
  exact toInt_bounds _

/-- A branch offset is a multiple of four, in the range of its field. -/
theorem branch_offset_bounds (v : BitVec 64) {n : ℕ} (h : n < 26) :
    -2 ^ 27 ≤ (sign_extend v (n + 1) <<< 2).toInt ∧ (sign_extend v (n + 1) <<< 2).toInt < 2 ^ 27 ∧
      (4 : ℤ) ∣ (sign_extend v (n + 1) <<< 2).toInt := by
  rw [sign_extend_eq v (by omega : 0 < n + 1) (by omega), toInt_shiftLeft_two _ h]
  obtain ⟨h₁, h₂⟩ := toInt_bounds (v.setWidth (n + 1))
  have hpow : (2 : ℤ) ^ n ≤ 2 ^ 25 := by
    exact_mod_cast Nat.pow_le_pow_right (by decide : 0 < 2) (by omega : n ≤ 25)
  exact ⟨by omega, by omega, Int.dvd_mul_right 4 _⟩

end Widths

/-! ## The fields, form by form -/

section Found

variable {w : BitVec 32} {out d : DecodedInstr}

theorem Found.cond_lt (hout : Fresh w out) (h : Found w out d) : d.cond.toNat < 16 := by
  obtain ⟨size, rfl⟩ := hout
  cases h with
  | cond_branch => exact bits8_lt w rfl (by decide)
  | test_branch =>
    have hlt : (bits8 w 24 24).toNat < 2 ^ 1 := bits8_lt w rfl (by decide)
    exact Nat.lt_of_lt_of_le hlt (by decide)
  | _ => exact (by decide : (0#8).toNat < 16)

theorem Found.shift_type_lt (hout : Fresh w out) (h : Found w out d) : d.shift_type.toNat < 4 := by
  obtain ⟨size, rfl⟩ := hout
  cases h with
  | shifted | access_reg => exact bits8_lt w rfl (by decide)
  | _ => exact (by decide : (0#8).toNat < 4)

/-- Bits of the word as a `uint64_t`. -/
theorem toNat_bits {hi lo : ℕ} (h : hi - lo + 1 < 32) :
    ((bits w hi lo).setWidth 64).toNat < 2 ^ (hi - lo + 1) := by
  rw [BitVec.toNat_setWidth, Nat.mod_eq_of_lt (by omega)]
  exact bits_lt w h

theorem fits32_bits {hi lo : ℕ} (h : hi - lo < 31) : Fits32 ((bits w hi lo).setWidth 64) := by
  have hlt := toNat_bits (w := w) (by omega : hi - lo + 1 < 32)
  have hpow : 2 ^ (hi - lo + 1) ≤ 2 ^ 31 := Nat.pow_le_pow_right (by decide) (by omega)
  exact fits32_of_toNat (by omega)

theorem fits32_sign_extend (v : BitVec 64) {n : ℕ} (h : n < 31) :
    Fits32 ((sign_extend v (n + 1)).signExtend 64) := by
  obtain ⟨h₁, h₂⟩ := toInt_sign_extend v (by omega : n < 32)
  have hpow : (2 : ℤ) ^ n ≤ 2 ^ 31 := by
    exact_mod_cast Nat.pow_le_pow_right (by decide : 0 < 2) (by omega : n ≤ 31)
  exact fits32_of_toInt (by omega) (by omega)

theorem imm12_lt : (imm12 w).toNat < 2 ^ 24 :=
  Nat.lt_of_le_of_lt (BitVec.le_def.mp (imm12_le w)) (by decide)

/-- The scaled offset of LDR and STR. -/
theorem fits32_scaled :
    Fits32 ((bits w 21 10 <<< (bits w 31 30).toNat).setWidth 64) := by
  have h₁ : (bits w 21 10).toNat < 2 ^ 12 := bits_lt w (by decide)
  have h₂ : (bits w 31 30).toNat < 2 ^ 2 := bits_lt w (by decide)
  have hpow : 2 ^ (bits w 31 30).toNat ≤ 2 ^ 3 := Nat.pow_le_pow_right (by decide) (by omega)
  have hmul : (bits w 21 10).toNat * 2 ^ (bits w 31 30).toNat ≤ 2 ^ 12 * 2 ^ 3 :=
    Nat.mul_le_mul (Nat.le_of_lt h₁) hpow
  apply fits32_of_toNat
  rw [BitVec.toNat_setWidth, BitVec.toNat_shiftLeft, Nat.shiftLeft_eq]
  omega

theorem Found.fits32 (hout : Fresh w out) (h : Found w out d) : Fits32 d.imm := by
  obtain ⟨size, rfl⟩ := hout
  cases h with
  | add_sub => exact fits32_of_toNat (Nat.lt_of_lt_of_le imm12_lt (by decide))
  | bitfield | move_wide | test_branch => exact fits32_bits (by decide)
  | access_unsigned => exact fits32_scaled
  | access_indexed | address => exact fits32_sign_extend _ (by decide)
  | _ => exact (by decide : Fits32 0#64)

theorem Found.arith_lt (hout : Fresh w out) (h : Found w out d) (hop : d.opcode ∈ [0x00#8, 0x01#8])
    (hrm : d.rm = 255#8) : d.imm.toNat < 2 ^ 24 := by
  have hle := (h.wellDecoded hout.blank).imm hrm (by simpa using hop)
  exact Nat.lt_of_le_of_lt (BitVec.le_def.mp hle) (by decide)

theorem Found.shift_lt (hout : Fresh w out) (h : Found w out d) (hop : d.opcode ∈ shift_opcodes) :
    d.rm = 255#8 ∧ d.imm.toNat < 64 := by
  have h0 := hout.blank.opcode
  cases h with
  | bitfield => exact ⟨rfl, toNat_bits (by decide)⟩
  | shifted ho => exact absurd hop (of_all (P := fun p => p.2 ∉ shift_opcodes) ho (by decide))
  | literal ho =>
    rw [h0] at ho
    exact absurd hop (of_all (P := fun p => p.2 ∉ shift_opcodes) ho (by decide))
  | move_wide ho =>
    rw [h0] at ho
    exact absurd hop (of_all (P := (· ∉ shift_opcodes)) ho (by decide))
  | add_sub ho | branch ho | compare_branch ho | test_branch ho | system ho | address ho =>
    exact absurd hop (of_all (P := (· ∉ shift_opcodes)) ho (by decide))
  | reg_branch _ ho =>
    rcases ho with ⟨-, rfl, -⟩ | ⟨rfl, -⟩
    · exact absurd hop (by decide : 0x53#8 ∉ shift_opcodes)
    · exact absurd hop (by decide : 0x52#8 ∉ shift_opcodes)
  | access_unsigned | access_reg | access_indexed =>
    exact absurd hop (of_all (P := (· ∉ shift_opcodes)) (ldst_opcode_mem _ _) (by decide))
  | cond_branch => exact absurd hop (by decide : 0x54#8 ∉ shift_opcodes)
  | nop => exact absurd hop (by decide : 0x90#8 ∉ shift_opcodes)

theorem Found.imm_s_bounds (hout : Fresh w out) (h : Found w out d) (hpc : d.is_pc_relative = true) :
    -2 ^ 20 ≤ d.imm_s.toInt ∧ d.imm_s.toInt < 2 ^ 20 := by
  obtain ⟨size, rfl⟩ := hout
  cases h with
  | address => exact toInt_sign_extend _ (by decide)
  | literal =>
    obtain ⟨h₁, h₂⟩ := toInt_sign_extend ((bits w 23 5).setWidth 64) (by decide : 18 < 32)
    exact ⟨Int.le_trans (by decide) h₁, Int.lt_of_lt_of_le h₂ (by decide)⟩
  | _ => cases hpc

theorem Found.branch_bounds (hout : Fresh w out) (h : Found w out d) :
    -2 ^ 27 ≤ d.branch_offset.toInt ∧ d.branch_offset.toInt < 2 ^ 27 ∧
      (4 : ℤ) ∣ d.branch_offset.toInt := by
  obtain ⟨size, rfl⟩ := hout
  cases h with
  | branch | cond_branch | compare_branch | test_branch => exact branch_offset_bounds _ (by decide)
  | _ => exact (by decide : -2 ^ 27 ≤ (0#32).toInt ∧ (0#32).toInt < 2 ^ 27 ∧ (4 : ℤ) ∣ (0#32).toInt)

theorem Found.inRange (hout : Fresh w out) (h : Found w out d) : InRange d := by
  have hw := h.wellDecoded hout.blank
  exact ⟨hw.rd, hw.rn, hw.rt, hw.rm.imp id And.left, h.cond_lt hout, h.shift_type_lt hout,
    h.arith_lt hout, h.shift_lt hout, h.fits32 hout, h.imm_s_bounds hout,
    h.branch_bounds hout⟩

theorem Found.category_ne (h : Found w out d) : d.category ≠ .UNKNOWN := by
  intro hc
  cases h with
  | shifted ho => exact absurd hc (of_all (P := fun p => p.1 ≠ .UNKNOWN) ho (by decide))
  | literal ho =>
    simp only [List.mem_cons, List.not_mem_nil, or_false, Prod.mk.injEq] at ho
    rcases ho with ⟨rfl, -⟩ | ⟨rfl, -⟩ | ⟨rfl, -⟩ <;> cases hc
  | _ => cases hc

end Found

/-! ## Every word -/

theorem decode_refused_iff (w : BitVec 32) : (decode w).1 = false ↔ (decode w).2.category = .UNKNOWN := by
  obtain ⟨out, -, ha⟩ := decode_answered w
  generalize decode w = r at ha
  cases ha with
  | found h => exact iff_of_false nofun h.category_ne
  | unknown size => exact iff_of_true rfl rfl

theorem decode?_inRange {w : BitVec 32} {d : DecodedInstr} (h : decode? w = some d) : InRange d := by
  obtain ⟨out, hout, hf⟩ := decode?_found h
  exact hf.inRange hout

end ARM64Decoder

end Bbarm64
