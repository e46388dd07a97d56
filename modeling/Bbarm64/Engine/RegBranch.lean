import Bbarm64.Decoder.BranchForms
import Bbarm64.Engine.Interp

/-!
# Engine.RegBranch — BR, BLR and RET

The decoder's test for BR and RET leaves bits 25:16 unread, so that BLR, BRK and others pass it too,
and go on at the address in the register.
-/

namespace Bbarm64

open X86 A64 ARM64Decoder

namespace ExecEngine

/-- Of the word: it decodes to the opcode of BR or RET with register `n` only if it is BR or RET of
`n`; as a BLR it is refused or decodes to an operation that writes `x30`; as an exception it does not
decode as a branch. -/
structure RegBranchSound (w : BitVec 32) : Prop where
  target : ∀ d, decode? w = some d → d.opcode = 0x52#8 ∨ d.opcode = 0x53#8 →
    ∃ op rn, RegBranch.ofWord? w = some ⟨op, rn⟩ ∧ (op = .br ∨ op = .ret) ∧ d.rn = rn.setWidth 8
  link : ∀ rn, RegBranch.ofWord? w = some ⟨.blr, rn⟩ → ∀ d, decode? w = some d →
    ∃ g : Guest, (execute_decoded g d).1.x 30 ≠ g.1.x 30
  exception : IsException w → ∀ d, decode? w = some d → d.category ≠ .BRANCH

section RegBranch

variable {w : BitVec 32}

theorem regBranchOp_iff {o : BitVec 2} {op : RegBranchOp} : RegBranchOp.ofBits? o = some op ↔
    o = match op with
      | .br => 0b00#2
      | .blr => 0b01#2
      | .ret => 0b10#2 := by
  unfold RegBranchOp.ofBits?
  cases op <;> split_ifs <;> simp_all

/-- Bits 25:16 tell the words of BR, BLR and RET from the others that pass the test. -/
theorem regBranch_iff {op : RegBranchOp} {rn : BitVec 5} : RegBranch.ofWord? w = some ⟨op, rn⟩ ↔
    IsRegBranchTest w ∧ rn = w.extractLsb' 5 5 ∧ bits w 25 16 =
      match op with
      | .br => 0b1000011111#32
      | .blr => 0b1000111111#32
      | .ret => 0b1001011111#32 := by
  have hlt := w.isLt
  have hword : RegBranch.ofWord? w = some ⟨op, rn⟩ ↔
      (w.extractLsb' 23 9 = 0b110101100#9 ∧ w.extractLsb' 10 11 = 0b11111000000#11 ∧
        w.extractLsb' 0 5 = 0#5) ∧ RegBranchOp.ofBits? (w.extractLsb' 21 2) = some op ∧
        rn = w.extractLsb' 5 5 := by
    rw [RegBranch.ofWord?]
    split_ifs with h
    · simp only [Option.map_eq_some_iff, RegBranch.mk.injEq]
      exact ⟨fun ⟨_, ho, hop, hrn⟩ => ⟨h, hop ▸ ho, hrn.symm⟩, fun ⟨_, ho, hrn⟩ => ⟨_, ho, rfl, hrn.symm⟩⟩
    · exact iff_of_false nofun fun hw => h hw.1
  rw [hword, regBranchOp_iff]
  unfold IsRegBranchTest
  cases op <;>
    · simp only [bits_eq_iff (show 31 - 26 + 1 < 32 by decide),
        bits_eq_iff (show 15 - 10 + 1 < 32 by decide), bits_eq_iff (show 4 - 0 + 1 < 32 by decide),
        bits_eq_iff (show 25 - 16 + 1 < 32 by decide), extract_eq_iff, BitVec.toNat_ofNat]
      constructor
      · rintro ⟨⟨h23, h10, h0⟩, h21, hrn⟩
        exact ⟨⟨by omega, by omega, by omega⟩, hrn, by omega⟩
      · rintro ⟨⟨h26, h10, h0⟩, hrn, h16⟩
        exact ⟨⟨by omega, by omega, by omega⟩, by omega, hrn⟩

/-- What passes the test gets the opcode of BR or RET, so it has to be one of them. -/
theorem regBranch_of_sound (h : RegBranchSound w) (hw : IsRegBranchTest w) :
    bits w 25 16 = 0b1000011111#32 ∨ bits w 25 16 = 0b1001011111#32 := by
  have hd : decode? w = some (reg_branch_record w) := by
    rw [decode?, decode_reg_branch hw, if_pos rfl]
  have hop : (reg_branch_record w).opcode = 0x52#8 ∨ (reg_branch_record w).opcode = 0x53#8 := by
    unfold reg_branch_record
    split_ifs
    · exact .inr rfl
    · exact .inl rfl
  obtain ⟨op, rn, hof, hbr | hret, -⟩ := h.target _ hd hop
  · subst hbr
    exact .inl (regBranch_iff.mp hof).2.2
  · subst hret
    exact .inr (regBranch_iff.mp hof).2.2

theorem sound_of_regBranch (hw : IsRegBranchTest w)
    (h : bits w 25 16 = 0b1000011111#32 ∨ bits w 25 16 = 0b1001011111#32) : RegBranchSound w := by
  have hd : ∀ d, decode? w = some d → d = reg_branch_record w := by
    intro d hd
    rw [decode?, decode_reg_branch hw, if_pos rfl] at hd
    exact (Option.some.inj hd).symm
  have hrn : (reg_branch_record w).rn = (w.extractLsb' 5 5).setWidth 8 :=
    setWidth_bits w rfl (by decide) (by decide)
  refine ⟨fun d hdec _ => ?_, fun rn hblr => ?_, fun hexc => ?_⟩
  · obtain rfl := hd d hdec
    rcases h with hbr | hret
    · exact ⟨.br, _, regBranch_iff.mpr ⟨hw, rfl, hbr⟩, .inl rfl, hrn⟩
    · exact ⟨.ret, _, regBranch_iff.mpr ⟨hw, rfl, hret⟩, .inr rfl, hrn⟩
  · -- bits 25:16 of a BLR are neither
    have hbits := (regBranch_iff.mp hblr).2.2
    rw [hbits] at h
    exact absurd h (by decide)
  · -- an exception has zeros in bits 25:24
    rw [bits_eq_iff (by decide), bits_eq_iff (by decide), BitVec.toNat_ofNat, BitVec.toNat_ofNat] at h
    rw [IsException, extract_eq_iff, BitVec.toNat_ofNat] at hexc
    omega

theorem sound_of_not_test (hw : ¬ IsRegBranchTest w) : RegBranchSound w := by
  refine ⟨fun d hd hop => ?_, fun rn hblr => ?_, fun hexc d hd hcat => ?_⟩
  · exact absurd (test_of_opcode hd (by simpa using hop)) hw
  · exact absurd (regBranch_iff.mp hblr).1 hw
  · rcases test_of_category hd hcat with ht | hb
    · exact hw ht
    · rw [bits_eq_iff (by decide), bits_eq_iff (by decide), BitVec.toNat_ofNat, BitVec.toNat_ofNat] at hb
      rw [IsException, extract_eq_iff, BitVec.toNat_ofNat] at hexc
      omega

/-- **Branches to a register**: exactly the words that pass the test without being BR or RET are
decoded wrongly. -/
theorem regBranchSound_iff (w : BitVec 32) : RegBranchSound w ↔
    (IsRegBranchTest w → bits w 25 16 = 0b1000011111#32 ∨ bits w 25 16 = 0b1001011111#32) := by
  constructor
  · exact regBranch_of_sound
  · intro h
    by_cases hw : IsRegBranchTest w
    · exact sound_of_regBranch hw (h hw)
    · exact sound_of_not_test hw

/-- `blr x1` is run as `br x1`. -/
theorem not_regBranchSound_blr : ¬ RegBranchSound 0xD63F0020#32 := by
  intro h
  exact absurd (regBranch_of_sound h (by decide)) (by decide)

end RegBranch

end ExecEngine

end Bbarm64
