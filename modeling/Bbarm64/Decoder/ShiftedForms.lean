import Bbarm64.A64.Encodings
import Bbarm64.Decoder.DecodeA64

/-!
# Decoder.ShiftedForms — the decoder on data processing with a shifted register

`DecodesShifted r res` says that a decode accepts with the operation, the operands and the flag
setting of `r`.  All twelve operations reach `decode_data_proc_reg`.  Its rows for ADD and SUB never
match, the row for the logical operations takes the arithmetic ones too and looks neither at N nor
at the third opcode value, and only the entry for ORR is the right one.
-/

namespace Bbarm64

open X86 A64

namespace ARM64Decoder

/-- The opcode of an operation. -/
def shifted_opcode : ShiftedOp → Byte
  | .add | .adds => 0x00#8
  | .sub | .subs => 0x01#8
  | .and => 0x10#8
  | .bic => 0x11#8
  | .orr => 0x12#8
  | .orn => 0x13#8
  | .eor => 0x14#8
  | .eon => 0x15#8
  | .ands => 0x16#8
  | .bics => 0x17#8

/-- CMP and TST, the S forms without a destination, have opcodes of their own. -/
def IsOpcode (r : ShiftedReg) (opcode : Byte) : Prop :=
  opcode = shifted_opcode r.op ∨ r.rd = 31#5 ∧
    (r.op = .subs ∧ opcode = 0x30#8 ∨ r.op = .ands ∧ opcode = 0x31#8)

/-- The decode succeeds with the operation and the operands of `r`. -/
structure DecodesShifted (r : ShiftedReg) (res : Bool × DecodedInstr) : Prop where
  ok : res.1 = true
  opcode : IsOpcode r res.2.opcode
  rd : res.2.rd = r.rd.setWidth 8
  rn : res.2.rn = r.rn.setWidth 8
  rm : res.2.rm = r.rm.setWidth 8
  shift_type : res.2.shift_type = r.shift.setWidth 8
  shift_amount : res.2.shift_amount = r.amount.setWidth 8
  sets_flags : res.2.sets_flags = r.op.setsFlags

section Forms

variable {w : BitVec 32}

/-- Bits 30:21 in the rows of `decode_data_proc_reg` that test them all. -/
def fixed_rows : List (BitVec 32) :=
  [0x02C#32, 0x2AC#32, 0x034#32, 0x234#32, 0x2A0#32, 0x1B0#32, 0x1AC#32, 0x2B0#32]

/-- They match words of five classes of bits 28:24 only, and so does the row for the shifts. -/
theorem not_fixed_row {v : BitVec 32} (h : w >>> 24 = v)
    (hv : bits v 4 0 ∉ [0b00101#32, 0b00110#32, 0b10100#32, 0b10101#32, 0b10110#32]) :
    bits w 30 21 ∉ fixed_rows ∧ bits w 30 22 ≠ 0x0D3#32 := by
  rw [← bits_shift h 28 24 (by decide) (by decide)] at hv
  have hclass : ∀ v, bits w 28 24 = v ↔ w.toNat / 2 ^ 24 % 2 ^ (28 - 24 + 1) = v.toNat :=
    fun _ => bits_eq_iff (by decide)
  simp only [List.mem_cons, List.not_mem_nil, or_false, not_or, hclass, BitVec.toNat_ofNat] at hv
  constructor
  · intro hrow
    have hop : (bits w 30 21).toNat ∈ fixed_rows.map BitVec.toNat := List.mem_map_of_mem hrow
    rw [bits_toNat w (by decide)] at hop
    simp only [fixed_rows, List.map_cons, List.map_nil, List.mem_cons, List.not_mem_nil, or_false,
      BitVec.toNat_ofNat] at hop
    omega
  · intro hrow
    have hop : (bits w 30 22).toNat = 0x0D3 := congrArg BitVec.toNat hrow
    rw [bits_toNat w (by decide)] at hop
    omega

/-- What the row of the logical operations returns. -/
def logical_record (w : BitVec 32) (opcode : Byte) : DecodedInstr :=
  { DecodedInstr.cleared w with
    size := bits8 w 31 31, rd := bits8 w 4 0, rn := bits8 w 9 5, rm := bits8 w 20 16,
    shift_type := bits8 w 23 22, shift_amount := bits8 w 15 10, category := .LOGICAL,
    opcode := opcode, sets_flags := opcode == 0x16#8 || opcode == 0x17#8 }

/-- Bits 31:24 of the words of that row, with the opcode it gives them. -/
def logical_rows : List (BitVec 32 × Byte) :=
  [(0x0A#32, 0x16#8), (0x8A#32, 0x16#8), (0x0B#32, 0x17#8), (0x8B#32, 0x17#8), (0x2A#32, 0x12#8),
    (0xAA#32, 0x12#8), (0x2B#32, 0x13#8), (0xAB#32, 0x13#8), (0x4A#32, 0x10#8), (0xCA#32, 0x10#8),
    (0x4B#32, 0x10#8), (0xCB#32, 0x10#8)]

theorem decode_logical {opcode : Byte} (h : (w >>> 24, opcode) ∈ logical_rows) :
    decode w = (true, logical_record w opcode) := by
  simp only [logical_rows, List.mem_cons, List.not_mem_nil, or_false, Prod.mk.injEq] at h
  rcases h with ⟨h, rfl⟩ | ⟨h, rfl⟩ | ⟨h, rfl⟩ | ⟨h, rfl⟩ | ⟨h, rfl⟩ | ⟨h, rfl⟩ | ⟨h, rfl⟩ |
    ⟨h, rfl⟩ | ⟨h, rfl⟩ | ⟨h, rfl⟩ | ⟨h, rfl⟩ | ⟨h, rfl⟩ <;>
  · have hb := bits_shift h
    have hrow := not_fixed_row h (by decide)
    simp only [fixed_rows, List.mem_cons, List.not_mem_nil, or_false, not_or] at hrow
    simp +decide only [decode, decode_data_proc_reg, hb, hrow, orElseIf, orElse, if_true, if_false,
      logical_record]

/-- The S forms but ADDS end in `decode_load_store`. -/
theorem decode_s_form (h : w >>> 24 ∈ [0x6A#32, 0xEA#32, 0x6B#32, 0xEB#32]) :
    (decode w).1 = true ∧ (decode w).2.category = .LOAD_STORE ∧ 0x60#8 ≤ (decode w).2.opcode := by
  have hopcode : ∀ (is_load : Bool) (opc : BitVec 32), 0x60#8 ≤ ldst_opcode is_load opc := by
    intro is_load opc
    unfold ldst_opcode
    split_ifs <;> decide
  simp only [List.mem_cons, List.not_mem_nil, or_false] at h
  rcases h with h | h | h | h <;>
  · have hb := bits_shift h
    have hrow := not_fixed_row h (by decide)
    have hmov := not_movz h (by decide)
    simp only [fixed_rows, List.mem_cons, List.not_mem_nil, or_false, not_or] at hrow
    simp +decide only [decode, decode_mid, decode_data_proc_reg, decode_load_store, hb, hrow, hmov,
      unknown, orElseIf, orElse, if_true, if_false, false_and, hopcode, true_and]

/-! ## Every operation -/

/-- Bits 31:24 of a word of a class. -/
theorem top_of_class {c : BitVec 5} (h : w.extractLsb' 24 5 = c) :
    ∃ k < 8, w >>> 24 = BitVec.ofNat 32 (32 * k + c.toNat) ∧
      w.extractLsb' 29 2 = BitVec.ofNat 2 k := by
  have hc := toNat_of_extract h
  have hlt := w.isLt
  refine ⟨w.toNat / 2 ^ 29, by omega, shiftRight_eq (by omega) (by omega), ?_⟩
  apply BitVec.eq_of_toNat_eq
  rw [BitVec.extractLsb'_toNat, Nat.shiftRight_eq_div_pow, BitVec.toNat_ofNat]

variable {r : ShiftedReg}

theorem mem_of_isOpcode {opcode : Byte} (h : IsOpcode r opcode) :
    opcode ∈ [shifted_opcode r.op, 0x30#8, 0x31#8] := by
  rcases h with rfl | ⟨-, ⟨-, rfl⟩ | ⟨-, rfl⟩⟩ <;> simp

theorem not_decodesShifted_of_row {opcode : Byte} (h : (w >>> 24, opcode) ∈ logical_rows)
    (hr : opcode ∉ [shifted_opcode r.op, 0x30#8, 0x31#8]) : ¬ DecodesShifted r (decode w) := by
  intro hd
  have hop := hd.opcode
  rw [decode_logical h] at hop
  exact hr (mem_of_isOpcode hop)

theorem not_decodesShifted_of_s_form (h : w >>> 24 ∈ [0x6A#32, 0xEA#32, 0x6B#32, 0xEB#32]) :
    ¬ DecodesShifted r (decode w) := by
  intro hd
  have hlt : ∀ op, ∀ opcode ∈ [shifted_opcode op, 0x30#8, 0x31#8], opcode < 0x60#8 := by
    intro op
    cases op <;> decide
  exact absurd (decode_s_form h).2.2 (BitVec.not_le.mpr (hlt _ _ (mem_of_isOpcode hd.opcode)))

/-- SUBS, ANDS and BICS. -/
theorem s_form_top : ∀ k < 8, k % 4 = 3 →
    BitVec.ofNat 32 (32 * k + 10) ∈ [0x6A#32, 0xEA#32, 0x6B#32, 0xEB#32] ∧
      BitVec.ofNat 32 (32 * k + 11) ∈ [0x6A#32, 0xEA#32, 0x6B#32, 0xEB#32] := by
  decide

/-- ORR and ORN. -/
theorem orr_row : ∀ k < 8, k % 4 = 1 → (BitVec.ofNat 32 (32 * k + 10), 0x12#8) ∈ logical_rows ∧
    ∀ n, ShiftedOp.logical (BitVec.ofNat 2 k) n = if n then .orn else .orr := by
  decide

/-- ADD, ADDS and SUB get an opcode of another operation. -/
theorem arith_row : ∀ k < 8, k % 4 ≠ 3 → ∃ row ∈ logical_rows, row.1 = BitVec.ofNat 32 (32 * k + 11) ∧
    row.2 ∉ [shifted_opcode (.arith (BitVec.ofNat 2 k)), 0x30#8, 0x31#8] := by
  decide

theorem not_decodesShifted_arith (h : w.extractLsb' 24 5 = 0b01011#5) :
    ¬ DecodesShifted (.ofFields (.arith (w.extractLsb' 29 2)) w) (decode w) := by
  obtain ⟨k, hk, htop, hopc⟩ := top_of_class h
  by_cases h3 : k % 4 = 3
  · refine not_decodesShifted_of_s_form ?_
    rw [htop]
    exact (s_form_top k hk h3).2
  · obtain ⟨row, hrow, hr, hne⟩ := arith_row k hk h3
    rw [hopc]
    refine @not_decodesShifted_of_row w _ row.2 ?_ hne
    rw [htop]
    exact hr ▸ hrow

/-- AND, BIC, EOR and EON too. -/
theorem logical_row : ∀ k < 8, k % 4 ≠ 1 → k % 4 ≠ 3 → ∀ n, ∃ row ∈ logical_rows,
    row.1 = BitVec.ofNat 32 (32 * k + 10) ∧
    row.2 ∉ [shifted_opcode (.logical (BitVec.ofNat 2 k) n), 0x30#8, 0x31#8] := by
  decide

theorem decodesShifted_logical (h : w.extractLsb' 24 5 = 0b01010#5) :
    DecodesShifted (.ofFields (.logical (w.extractLsb' 29 2) (w.getLsbD 21)) w) (decode w) ↔
      .logical (w.extractLsb' 29 2) (w.getLsbD 21) = ShiftedOp.orr := by
  obtain ⟨k, hk, htop, hopc⟩ := top_of_class h
  rw [hopc]
  have hne : k % 4 ≠ 1 → ShiftedOp.logical (BitVec.ofNat 2 k) (w.getLsbD 21) ≠ .orr := by
    have hall : ∀ k < 8, k % 4 ≠ 1 → ∀ n, ShiftedOp.logical (BitVec.ofNat 2 k) n ≠ .orr := by decide
    exact fun h1 => hall k hk h1 _
  by_cases h3 : k % 4 = 3
  · refine iff_of_false (not_decodesShifted_of_s_form ?_) (hne (by omega))
    rw [htop]
    exact (s_form_top k hk h3).1
  by_cases h1 : k % 4 = 1
  · obtain ⟨hrow, hop⟩ := orr_row k hk h1
    rw [← show w >>> 24 = BitVec.ofNat 32 (32 * k + 10) from htop] at hrow
    rw [hop]
    cases w.getLsbD 21 with
    | true =>
      have hne : 0x12#8 ∉ [shifted_opcode .orn, 0x30#8, 0x31#8] := by decide
      exact iff_of_false (not_decodesShifted_of_row hrow hne) (by decide)
    | false =>
      rw [decode_logical hrow]
      have hshift : bits8 w 23 22 = (w.extractLsb' 22 2).setWidth 8 :=
        setWidth_bits w rfl (by decide) (by decide)
      have hamount : bits8 w 15 10 = (w.extractLsb' 10 6).setWidth 8 :=
        setWidth_bits w rfl (by decide) (by decide)
      have hrm : bits8 w 20 16 = (w.extractLsb' 16 5).setWidth 8 :=
        setWidth_bits w rfl (by decide) (by decide)
      exact iff_of_true ⟨rfl, .inl rfl, decode_rd w, decode_rn w, hrm, hshift, hamount, rfl⟩ rfl
  · obtain ⟨row, hrow, hr, hrne⟩ := logical_row k hk h1 h3 (w.getLsbD 21)
    refine iff_of_false (@not_decodesShifted_of_row w _ row.2 ?_ hrne) (hne h1)
    rw [htop]
    exact hr ▸ hrow

/-- **Data processing with a shifted register**: of the twelve operations the decoder returns
ORR. -/
theorem decodesShifted_iff (h : ShiftedReg.ofWord? w = some r) :
    DecodesShifted r (decode w) ↔ r.op = .orr := by
  unfold ShiftedReg.ofWord? at h
  dsimp only at h
  split_ifs at h with hres harith hlog
  · obtain rfl := Option.some.inj h
    have hne : ∀ opc, ShiftedOp.arith opc ≠ .orr := by decide
    exact iff_of_false (not_decodesShifted_arith harith.1) (hne _)
  · obtain rfl := Option.some.inj h
    exact decodesShifted_logical hlog

/-- `orr x0, x1, x2, lsl #3` -/
theorem decodesShifted_iff_orr :
    DecodesShifted ⟨.orr, 0#5, 1#5, 2#5, 0#2, 3#6⟩ (decode 0xAA020C20#32) ↔ ShiftedOp.orr = .orr :=
  decodesShifted_iff (r := ⟨.orr, 0#5, 1#5, 2#5, 0#2, 3#6⟩) (by decide)

/-- `add x0, x1, x2` decodes as BICS. -/
theorem not_decodesShifted_add :
    ShiftedReg.ofWord? 0x8B020020#32 = some ⟨.add, 0#5, 1#5, 2#5, 0#2, 0#6⟩ ∧
      ¬ DecodesShifted ⟨.add, 0#5, 1#5, 2#5, 0#2, 0#6⟩ (decode 0x8B020020#32) := by
  refine ⟨by decide, fun h => ?_⟩
  have hop : (decode 0x8B020020#32).2.opcode = 0x17#8 := by decide
  have hmem := mem_of_isOpcode h.opcode
  rw [hop] at hmem
  exact absurd hmem (by decide)

end Forms

end ARM64Decoder

end Bbarm64
