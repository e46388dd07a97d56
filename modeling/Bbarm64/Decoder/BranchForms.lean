import Bbarm64.A64.Encodings
import Bbarm64.Decoder.DecodeA64

/-!
# Decoder.BranchForms — the decoder on the branches

`DecodesBranch b r` says that a decode accepts with the operands of the branch `b` in its record.  B
and BL meet it.  B.cond and the 64-bit CBZ and CBNZ take their offset from the low 19 bits of the
word, where `imm19` is bits 23:5.  The other forms do not come to a decoder that knows them.  The
test for BR and RET (`IsRegBranchTest`) looks at bits 31:26, 15:10 and 4:0 only.
-/

namespace Bbarm64

open X86 A64

namespace ARM64Decoder

/-- The opcode of a branch. -/
def branch_opcode : ImmBranch → Byte
  | .b _ => 0x50#8
  | .bl _ => 0x51#8
  | .bcond _ _ => 0x54#8
  | .cb nonzero _ _ _ => if nonzero then 0x56#8 else 0x55#8
  | .tb nonzero _ _ _ => if nonzero then 0x58#8 else 0x57#8

/-- The operands of the tests: the condition; the register and its size; for TBZ and TBNZ also the
bit number. -/
def DecodesTest (b : ImmBranch) (d : DecodedInstr) : Prop :=
  match b with
  | .b _ | .bl _ => True
  | .bcond cond _ => d.cond = cond.setWidth 8
  | .cb _ sf rt _ => d.rn = rt.setWidth 8 ∧ d.size = if sf then 1#8 else 0#8
  | .tb _ bit rt _ =>
    d.rn = rt.setWidth 8 ∧ d.imm = bit.setWidth 64 ∧ d.size = if bit.msb then 1#8 else 0#8

/-- The decode succeeds with the branch's opcode, operands and offset. -/
def DecodesBranch (b : ImmBranch) (r : Bool × DecodedInstr) : Prop :=
  r.1 = true ∧ r.2.opcode = branch_opcode b ∧ DecodesTest b r.2 ∧ r.2.branch_offset = b.offset

/-- The branches that decode: B and BL; B.cond and the 64-bit CBZ and CBNZ where the low 19 bits of
the word are the immediate. -/
def ImmInPlace (w : BitVec 32) : ImmBranch → Prop
  | .b _ | .bl _ => True
  | .bcond _ imm19 => w.setWidth 19 = imm19
  | .cb _ sf _ imm19 => sf = true ∧ w.setWidth 19 = imm19
  | .tb _ _ _ _ => False

section Forms

variable {w : BitVec 32}

/-! ## The offset -/

theorem shiftLeft_signExtend_inj {n : ℕ} (hn : n ≤ 30) {u v : BitVec n} :
    u.signExtend 32 <<< 2 = v.signExtend 32 <<< 2 ↔ u = v := by
  refine ⟨fun h => BitVec.eq_of_getLsbD_eq fun i hi => ?_, fun h => by rw [h]⟩
  have hbit : ∀ x : BitVec n, (x.signExtend 32 <<< 2).getLsbD (i + 2) = x.getLsbD i := by
    intro x
    have h32 : i + 2 < 32 := by omega
    have hlt : i < 32 := by omega
    have h2 : ¬ i + 2 < 2 := by omega
    rw [BitVec.getLsbD_shiftLeft, Nat.add_sub_cancel, BitVec.getLsbD_signExtend]
    simp only [h32, hlt, h2, hi, if_true, decide_true, decide_false, Bool.not_false, Bool.true_and]
  rw [← hbit u, ← hbit v, h]

/-- The offset that B.cond, CBZ and CBNZ get. -/
theorem offset19_eq_iff {imm19 : BitVec 19} :
    sign_extend (w.setWidth 64) 19 <<< 2 = imm19.signExtend 32 <<< 2 ↔ w.setWidth 19 = imm19 := by
  rw [sign_extend_eq _ (by decide) (by decide), BitVec.setWidth_setWidth_of_le _ (by decide)]
  exact shiftLeft_signExtend_inj (by decide)

/-- With the immediate in the low bits, the two places for the register number agree. -/
theorem rt_of_imm_low (h : w.setWidth 19 = w.extractLsb' 5 19) :
    w.extractLsb' 5 5 = w.extractLsb' 0 5 := by
  apply BitVec.eq_of_getLsbD_eq
  intro i hi
  have h19 : i < 19 := by omega
  have hbit := congrArg (·.getLsbD i) h
  simp only [BitVec.getLsbD_setWidth, BitVec.getLsbD_extractLsb', h19, decide_true,
    Bool.true_and] at hbit
  simp only [BitVec.getLsbD_extractLsb', hi, decide_true, Bool.true_and, Nat.zero_add]
  exact hbit.symm

/-! ## The forms -/

theorem decode_bcond (h : w >>> 24 = 0x54#32) :
    decode w = (true, { DecodedInstr.cleared w with
      category := .BRANCH_COND, opcode := 0x54#8, cond := bits8 w 3 0,
      branch_offset := sign_extend (w.setWidth 64) 19 <<< 2 }) := by
  have hb := bits_shift h
  have hmov := not_movz h (by decide)
  simp +decide only [decode, decode_mid, decode_branch, hb, hmov, orElseIf, if_true, if_false,
    false_and]

theorem decode_cb (h : w >>> 24 = 0xB4#32 ∨ w >>> 24 = 0xB5#32) :
    decode w = (true, { DecodedInstr.cleared w with
      category := .BRANCH_COND, opcode := if w.getLsbD 24 then 0x56#8 else 0x55#8,
      rn := bits8 w 9 5, size := 1#8,
      branch_offset := sign_extend (w.setWidth 64) 19 <<< 2 }) := by
  have h24 : w.getLsbD 24 = (w >>> 24).getLsbD 0 := by rw [BitVec.getLsbD_ushiftRight]
  rw [h24]
  rcases h with h | h <;>
  · have hb := bits_shift h
    have hsize : bits8 w 31 31 = 1#8 := by rw [bits8, hb 31 31 (by decide) (by decide)]; rfl
    rw [h]
    simp +decide only [decode, decode_branch, hb, hsize, if_true, if_false, false_and, true_and]

/-- The 32-bit CBZ and CBNZ, TBZ and TBNZ. -/
theorem decode_refused (h : w >>> 24 ∈ [0x34#32, 0x35#32, 0x36#32, 0x37#32, 0xB6#32, 0xB7#32]) :
    (decode w).1 = false := by
  simp only [List.mem_cons, List.not_mem_nil, or_false] at h
  rcases h with h | h | h | h | h | h <;>
  · have hb := bits_shift h
    have hmov := not_movz h (by decide)
    simp +decide only [decode, decode_mid, decode_branch, decode_load_store, unknown, hb, hmov,
      orElseIf, if_true, if_false, false_and, true_and]

/-! ## Every immediate branch -/

/-- The top byte has two bits around the six of the class. -/
theorem top_byte_cases {k : BitVec 6} (h : w.extractLsb' 25 6 = k) :
    w.toNat / 2 ^ 24 = 2 * k.toNat ∨ w.toNat / 2 ^ 24 = 2 * k.toNat + 1 ∨
      w.toNat / 2 ^ 24 = 2 * k.toNat + 128 ∨ w.toNat / 2 ^ 24 = 2 * k.toNat + 129 := by
  have h' := toNat_of_extract h
  have hlt := w.isLt
  omega

theorem top_of_cb (h : w.extractLsb' 25 6 = 0b011010#6) :
    w >>> 24 ∈ [0x34#32, 0x35#32] ∧ w.getLsbD 31 = false ∨
      (w >>> 24 = 0xB4#32 ∨ w >>> 24 = 0xB5#32) ∧ w.getLsbD 31 = true := by
  have h31 : w.getLsbD 31 = (w >>> 24).getLsbD 7 := by rw [BitVec.getLsbD_ushiftRight]
  rcases top_byte_cases h with hq | hq | hq | hq <;>
  · have htop := shiftRight_eq (by decide) hq
    rw [h31, htop]
    decide

theorem top_of_tb (h : w.extractLsb' 25 6 = 0b011011#6) :
    w >>> 24 ∈ [0x36#32, 0x37#32, 0xB6#32, 0xB7#32] := by
  rcases top_byte_cases h with hq | hq | hq | hq <;>
  · rw [shiftRight_eq (by decide) hq]
    decide

theorem decodesBranch_bcond (h : w >>> 24 = 0x54#32) :
    DecodesBranch (.bcond (w.extractLsb' 0 4) (w.extractLsb' 5 19)) (decode w) ↔
      w.setWidth 19 = w.extractLsb' 5 19 := by
  have hcond : bits8 w 3 0 = (w.extractLsb' 0 4).setWidth 8 :=
    setWidth_bits w rfl (by decide) (by decide)
  rw [decode_bcond h]
  constructor
  · rintro ⟨-, -, -, hoff⟩
    exact offset19_eq_iff.mp hoff
  · intro himm
    exact ⟨rfl, rfl, hcond, offset19_eq_iff.mpr himm⟩

theorem decodesBranch_cb (h : w >>> 24 = 0xB4#32 ∨ w >>> 24 = 0xB5#32) :
    DecodesBranch (.cb (w.getLsbD 24) true (w.extractLsb' 0 5) (w.extractLsb' 5 19)) (decode w) ↔
      w.setWidth 19 = w.extractLsb' 5 19 := by
  rw [decode_cb h]
  constructor
  · rintro ⟨-, -, -, hoff⟩
    exact offset19_eq_iff.mp hoff
  · intro himm
    have hrn : bits8 w 9 5 = (w.extractLsb' 0 5).setWidth 8 := by
      rw [decode_rn, rt_of_imm_low himm]
    exact ⟨rfl, rfl, ⟨hrn, rfl⟩, offset19_eq_iff.mpr himm⟩

theorem not_decodesBranch {b : ImmBranch}
    (h : w >>> 24 ∈ [0x34#32, 0x35#32, 0x36#32, 0x37#32, 0xB6#32, 0xB7#32]) :
    ¬ DecodesBranch b (decode w) :=
  fun hd => absurd hd.1 (by rw [decode_refused h]; decide)

/-- **Immediate branches**: the decoder returns the branch of a word exactly for B and BL, and for
B.cond and the 64-bit CBZ and CBNZ whose low 19 bits happen to be the immediate. -/
theorem decodesBranch_iff {b : ImmBranch} (h : ImmBranch.ofWord? w = some b) :
    DecodesBranch b (decode w) ↔ ImmInPlace w b := by
  unfold ImmBranch.ofWord? at h
  dsimp only at h
  split_ifs at h with hb hbl hbcond hcb htb
  · obtain rfl := Option.some.inj h
    obtain ⟨hok, hop, hoff⟩ := decodes_b hb
    exact ⟨fun _ => trivial, fun _ => ⟨hok, hop, trivial, hoff⟩⟩
  · obtain rfl := Option.some.inj h
    obtain ⟨hok, hop, hoff⟩ := decodes_bl hbl
    exact ⟨fun _ => trivial, fun _ => ⟨hok, hop, trivial, hoff⟩⟩
  · obtain rfl := Option.some.inj h
    exact decodesBranch_bcond (top_of_extract hbcond.1)
  · obtain rfl := Option.some.inj h
    rcases top_of_cb hcb with ⟨htop, h31⟩ | ⟨htop, h31⟩
    · rw [h31]
      exact iff_of_false (not_decodesBranch (by grind)) fun hp => absurd hp.1 (by decide)
    · rw [h31]
      exact (decodesBranch_cb htop).trans ⟨fun himm => ⟨rfl, himm⟩, And.right⟩
  · obtain rfl := Option.some.inj h
    exact iff_of_false (not_decodesBranch (by grind [top_of_tb htb])) id

/-! ## Branches to a register -/

/-- The record of all words that pass the test for BR and RET. -/
def reg_branch_record (w : BitVec 32) : DecodedInstr :=
  { DecodedInstr.cleared w with
    category := .BRANCH, opcode := if bits w 9 5 = 30#32 then 0x53#8 else 0x52#8, rn := bits8 w 9 5 }

theorem decode_reg_branch (h : IsRegBranchTest w) : decode w = (true, reg_branch_record w) := by
  obtain ⟨h31, h15, h4⟩ := h
  obtain ⟨j, hj, htop⟩ : ∃ j < 4, w >>> 24 = BitVec.ofNat 32 (0xD4 + j) := by
    rw [bits_eq_iff (by decide)] at h31
    simp only [BitVec.toNat_ofNat] at h31
    have hlt := w.isLt
    exact ⟨w.toNat / 2 ^ 24 % 4, Nat.mod_lt _ (by decide), shiftRight_eq (by omega) (by omega)⟩
  -- the register of RET is stored as the number 30
  have h30 : bits w 9 5 = 30#32 → bits8 w 9 5 = 30#8 := by
    intro h
    rw [bits8, h]
    rfl
  obtain rfl | rfl | rfl | rfl : j = 0 ∨ j = 1 ∨ j = 2 ∨ j = 3 := by omega
  all_goals
    have hb := bits_shift htop
    have hmov := not_movz htop (by decide)
    by_cases hrn : bits w 9 5 = 30#32
    · simp +decide only [decode, decode_mid, decode_branch, hb, hmov, h15, h4, hrn, h30 hrn, orElseIf,
        if_true, if_false, and_true, reg_branch_record]
    · simp +decide only [decode, decode_mid, decode_branch, hb, hmov, h15, h4, hrn, orElseIf, if_true,
        if_false, and_true, reg_branch_record]

/-- What has the opcode of BR or RET has passed that test. -/
theorem test_of_opcode {d : DecodedInstr} (h : decode? w = some d)
    (hop : d.opcode ∈ [0x52#8, 0x53#8]) : IsRegBranchTest w := by
  obtain ⟨out, hout, hf⟩ := decode?_found h
  rcases hf.opcode_mem hout.blank with ho | ⟨hw, -⟩
  · exact absurd hop (of_all (P := (· ∉ [0x52#8, 0x53#8])) ho (by decide))
  · exact hw

/-- What has the category BRANCH is B or BL, or has passed that test. -/
theorem test_of_category {d : DecodedInstr} (h : decode? w = some d) (hcat : d.category = .BRANCH) :
    IsRegBranchTest w ∨ bits w 31 26 = 0b000101#32 ∨ bits w 31 26 = 0b100101#32 := by
  obtain ⟨out, -, hf⟩ := decode?_found h
  cases hf with
  | reg_branch hw => exact .inl hw
  | branch _ hw => exact .inr hw
  | shifted ho =>
    exact absurd hcat (of_all (P := fun p => p.1 ≠ .BRANCH) ho (by decide))
  | literal ho =>
    simp only [List.mem_cons, List.not_mem_nil, or_false, Prod.mk.injEq] at ho
    rcases ho with ⟨rfl, -⟩ | ⟨rfl, -⟩ | ⟨rfl, -⟩ <;> cases hcat
  | _ => cases hcat

/-- `cbz x0, .` -/
theorem decodesBranch_iff_cbz :
    DecodesBranch (.cb false true 0#5 0#19) (decode 0xB4000000#32) ↔
      ImmInPlace 0xB4000000#32 (.cb false true 0#5 0#19) :=
  decodesBranch_iff (by decide)

/-- `b.eq .+8` decodes with the offset of the low 19 bits. -/
theorem not_decodesBranch_beq : ImmBranch.ofWord? 0x54000040#32 = some (.bcond 0#4 2#19) ∧
    ¬ DecodesBranch (.bcond 0#4 2#19) (decode 0x54000040#32) :=
  ⟨by decide, fun h => absurd h.2.2.2 (by decide)⟩

end Forms

end ARM64Decoder

end Bbarm64
