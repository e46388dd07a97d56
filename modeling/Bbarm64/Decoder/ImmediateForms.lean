import Bbarm64.A64.Immediate
import Bbarm64.Decoder.ShiftedForms

/-!
# Decoder.ImmediateForms — the decoder on data processing with an immediate

`decode` offers all these words to `decode_data_proc_reg` first, which refuses them.  ADD and SUB
come to `decode_data_proc_imm` over three routes with all their fields but one: `sets_flags` is bit 30
of the word, which tells SUB from ADD.  The wide moves decode.  The shifts are told apart by bits
28:23, the same in all of them: of the 64-bit ones LSR gets the opcode of ASR, and LSL that of SBFX; of
the 32-bit ones ASR gets that of SBFX, and LSL and LSR are refused.  ADR decodes if the low two bits of its immediate, which
lie in the top byte of the word, are zero.
-/

namespace Bbarm64

open X86 A64

namespace ARM64Decoder

section Forms

variable {w : BitVec 32}

/-! ## Routes -/

/-- `decode_data_proc_reg` knows none of the words. -/
theorem data_proc_reg_unknown {v : BitVec 32} (h : w >>> 24 = v)
    (hv : bits v 4 0 ∈ [0b10000#32, 0b10001#32, 0b10010#32, 0b10011#32]) (out : DecodedInstr) :
    decode_data_proc_reg w out = unknown { out with size := bits8 w 31 31 } := by
  have hclass : bits w 28 24 ∈ [0b10000#32, 0b10001#32, 0b10010#32, 0b10011#32] := by
    rwa [bits_shift h 28 24 (by decide) (by decide)]
  have hnot : bits v 4 0 ∉ [0b00101#32, 0b00110#32, 0b10100#32, 0b10101#32, 0b10110#32] := by
    generalize bits v 4 0 = c at hv
    simp only [List.mem_cons, List.not_mem_nil, or_false] at hv
    rcases hv with rfl | rfl | rfl | rfl <;> decide
  have h24 : bits w 30 24 ≠ 0x1A8#32 := by
    intro he
    have hlt : (bits w 30 24).toNat < _ := bits_lt w (by decide)
    rw [he] at hlt
    exact absurd hlt (by decide)
  have hrow := not_fixed_row h hnot
  simp only [fixed_rows, List.mem_cons, List.not_mem_nil, or_false, not_or] at hrow hclass
  rcases hclass with hc | hc | hc | hc <;>
  · simp +decide only [decode_data_proc_reg, hrow, hc, h24, if_false, false_and, and_false, or_false,
      unknown]

/-! ## ADD and SUB -/

/-- The record of a word of ADD, ADDS, SUB or SUBS. -/
def add_sub_record (w : BitVec 32) : DecodedInstr :=
  { DecodedInstr.cleared w with
    category := .INTEGER_ARITH, opcode := if w.getLsbD 30 then 0x01#8 else 0x00#8,
    rd := (w.extractLsb' 0 5).setWidth 8, rn := (w.extractLsb' 5 5).setWidth 8, rm := 0xFF#8,
    imm := if w.getLsbD 22 then (w.extractLsb' 10 12).setWidth 64 <<< 12
      else (w.extractLsb' 10 12).setWidth 64
    size := bits8 w 31 31, sets_flags := w.getLsbD 30 }

/-- A flag of the word, as the decoder tests it. -/
theorem bits_ne_zero (w : BitVec 32) (k : ℕ) : (bits w k k != 0#32) = w.getLsbD k := by
  have h1 : k - k + 1 = 1 := by omega
  rw [Bool.eq_iff_iff, getLsbD_iff, bne_iff_ne, Ne, bits_eq_iff (by omega), h1]
  simp only [BitVec.toNat_ofNat]
  omega

/-- Bits 28:24 of the words that bits 28:23 tell. -/
theorem class_of_six {c : BitVec 6} (h : w.extractLsb' 23 6 = c) :
    w.extractLsb' 24 5 = c.extractLsb' 1 5 := by
  have hc := toNat_of_extract h
  refine extract_eq_iff.mpr ?_
  rw [BitVec.extractLsb'_toNat, Nat.shiftRight_eq_div_pow, ← hc]
  omega

theorem top_of_add_sub (h : w.extractLsb' 23 6 = 0b100010#6) :
    w >>> 24 ∈ [0x11#32, 0x31#32, 0x51#32, 0x71#32, 0x91#32, 0xB1#32, 0xD1#32, 0xF1#32] := by
  obtain ⟨k, hk, htop, -⟩ := top_of_class (class_of_six h)
  rw [htop]
  clear htop
  revert k
  decide

theorem decode_add_sub (h : w.extractLsb' 23 6 = 0b100010#6) :
    decode w = (true, add_sub_record w) := by
  have himm : (bits w 21 10).setWidth 64 = (w.extractLsb' 10 12).setWidth 64 :=
    setWidth_bits w rfl (by decide) (by decide)
  have h22 : (bits w 22 22 ≠ 0#32) = (w.getLsbD 22 = true) := by
    rw [← bits_ne_zero, bne_iff_ne]
  have h30 : w.getLsbD 30 = (w >>> 24).getLsbD 6 := by rw [BitVec.getLsbD_ushiftRight]
  have htop := top_of_add_sub h
  simp only [List.mem_cons, List.not_mem_nil, or_false] at htop
  rcases htop with h | h | h | h | h | h | h | h <;>
  · have hb := bits_shift h
    have hreg := data_proc_reg_unknown h (by decide)
    have hmov := not_movz h (by decide)
    simp +decide only [decode, decode_mid, decode_data_proc_imm, hb, hreg, hmov, h22, bits_ne_zero,
      himm, decode_rd, decode_rn, unknown, orElseIf, orElse, if_true, if_false, add_sub_record, h30, h]

/-- The decode succeeds with the operation, the operands and the flag setting of `f`. -/
structure DecodesAddSub (f : AddSubImm) (r : Bool × DecodedInstr) : Prop where
  ok : r.1 = true
  opcode : r.2.opcode = if f.sub then 0x01#8 else 0x00#8
  rd : r.2.rd = f.rd.setWidth 8
  rn : r.2.rn = f.rn.setWidth 8
  rm : r.2.rm = 0xFF#8
  imm : r.2.imm = f.imm
  sets_flags : r.2.sets_flags = f.setsFlags

theorem addSub_class {f : AddSubImm} (h : AddSubImm.ofWord? w = some f) :
    w.extractLsb' 23 6 = 0b100010#6 ∧ f = ⟨w.getLsbD 31, w.getLsbD 30, w.getLsbD 29, w.getLsbD 22,
      w.extractLsb' 10 12, w.extractLsb' 5 5, w.extractLsb' 0 5⟩ := by
  unfold AddSubImm.ofWord? at h
  split_ifs at h with hc
  exact ⟨hc, (Option.some.inj h).symm⟩

/-- **ADD and SUB (immediate)**: the decoder takes bit 30 for the S bit, so that of the four
operations it finds ADD and SUBS. -/
theorem decodesAddSub_iff {f : AddSubImm} (h : AddSubImm.ofWord? w = some f) :
    DecodesAddSub f (decode w) ↔ f.setsFlags = f.sub := by
  obtain ⟨hc, rfl⟩ := addSub_class h
  rw [decode_add_sub hc]
  exact ⟨fun hd => hd.sets_flags.symm, fun hs => ⟨rfl, rfl, rfl, rfl, rfl, rfl, hs.symm⟩⟩

/-- `subs x1, x2, #3, lsl #12` -/
theorem decodesAddSub_iff_subs :
    DecodesAddSub ⟨true, true, true, true, 3#12, 2#5, 1#5⟩ (decode 0xF1400C41#32) ↔ true = true :=
  decodesAddSub_iff (f := ⟨true, true, true, true, 3#12, 2#5, 1#5⟩) (by decide)

/-- `sub x0, x1, #4` decodes as SUBS. -/
theorem not_decodesAddSub_sub :
    AddSubImm.ofWord? 0xD1001020#32 = some ⟨true, true, false, false, 4#12, 1#5, 0#5⟩ ∧
      ¬ DecodesAddSub ⟨true, true, false, false, 4#12, 1#5, 0#5⟩ (decode 0xD1001020#32) := by
  refine ⟨by decide, fun h => ?_⟩
  have hset : (decode 0xD1001020#32).2.sets_flags = true := by decide
  exact absurd (hset.symm.trans h.sets_flags) (by decide)

/-! ## Wide moves -/

def move_opcode : MoveOp → Byte
  | .movn => 0x21#8
  | .movz => 0x22#8
  | .movk => 0x23#8

/-- The record of a wide move; the halfword is not in it. -/
def move_record (w : BitVec 32) (op : MoveOp) : DecodedInstr :=
  { DecodedInstr.cleared w with
    category := .MOVE, opcode := move_opcode op, rd := (w.extractLsb' 0 5).setWidth 8,
    imm := (w.extractLsb' 5 16).setWidth 64, size := bits8 w 31 31 }

theorem top_of_move {op : MoveOp} (h : w.extractLsb' 23 6 = 0b100101#6)
    (hop : MoveOp.ofBits? (w.extractLsb' 29 2) = some op) :
    (w >>> 24, op) ∈ [(0x12#32, MoveOp.movn), (0x92#32, .movn), (0x52#32, .movz), (0xD2#32, .movz),
      (0x72#32, .movk), (0xF2#32, .movk)] := by
  obtain ⟨k, hk, htop, hopc⟩ := top_of_class (class_of_six h)
  rw [hopc] at hop
  rw [htop]
  clear htop hopc h
  cases op <;> revert k <;> decide

theorem decode_wide {op : MoveOp} (h : w.extractLsb' 23 6 = 0b100101#6)
    (hop : MoveOp.ofBits? (w.extractLsb' 29 2) = some op) : decode w = (true, move_record w op) := by
  have himm : (bits w 20 5).setWidth 64 = (w.extractLsb' 5 16).setWidth 64 :=
    setWidth_bits w rfl (by decide) (by decide)
  have hmov : bits w 28 23 = 0b100101#32 := by
    have h' : w.toNat / 2 ^ 23 % 2 ^ 6 = 37 := toNat_of_extract h
    exact (bits_eq_iff (by decide)).mpr h'
  have htop := top_of_move h hop
  simp only [List.mem_cons, List.not_mem_nil, or_false, Prod.mk.injEq] at htop
  rcases htop with ⟨h, rfl⟩ | ⟨h, rfl⟩ | ⟨h, rfl⟩ | ⟨h, rfl⟩ | ⟨h, rfl⟩ | ⟨h, rfl⟩ <;>
  · have hb := bits_shift h
    have hreg := data_proc_reg_unknown h (by decide)
    simp +decide only [decode, decode_mid, decode_data_proc_imm, hb, hreg, hmov, himm, decode_rd,
      unknown, orElseIf, orElse, if_true, if_false, false_and, and_false, or_false, move_record,
      move_opcode]

/-- A wide move decodes, and the record keeps the word with the halfword in it. -/
theorem decode_move_wide {f : MoveWide} (h : MoveWide.ofWord? w = some f) :
    decode w = (true, move_record w f.op) ∧ f.hw = w.extractLsb' 21 2 ∧
      f.imm16 = w.extractLsb' 5 16 ∧ f.rd = w.extractLsb' 0 5 := by
  unfold MoveWide.ofWord? at h
  split_ifs at h with hc
  obtain ⟨op, hop, rfl⟩ := Option.map_eq_some_iff.mp h
  exact ⟨decode_wide hc.1 hop, rfl, rfl, rfl⟩

/-! ## The shifts -/

theorem bits_28_23 (h : w.extractLsb' 23 6 = 0b100110#6) : bits w 28 23 = 0b100110#32 := by
  have h' : w.toNat / 2 ^ 23 % 2 ^ 6 = 38 := toNat_of_extract h
  exact (bits_eq_iff (by decide)).mpr h'

/-- The word of a shift: UBFM for LSL and LSR, SBFM for ASR; LSL has its amount in `imms`. -/
structure IsShift (w : BitVec 32) (f : ShiftImm) : Prop where
  six : w.extractLsb' 23 6 = 0b100110#6
  rd : f.rd = w.extractLsb' 0 5
  rn : f.rn = w.extractLsb' 5 5
  top : w >>> 24 = if f.kind = .asr then if f.sf then 0x93#32 else 0x13#32
    else if f.sf then 0xD3#32 else 0x53#32
  imms : w.extractLsb' 10 6 =
    (if f.sf then 63#6 else 31#6) - if f.kind = .lsl then f.amount else 0#6
  immr : f.kind ≠ .lsl → w.extractLsb' 16 6 = f.amount

theorem isShift_of_ofWord? {f : ShiftImm} (h : ShiftImm.ofWord? w = some f) : IsShift w f := by
  have htop : ∀ opc, w.extractLsb' 23 6 = 0b100110#6 → w.extractLsb' 29 2 = opc →
      w >>> 24 = BitVec.ofNat 32 (128 * (w.getLsbD 31).toNat + 32 * opc.toNat + 0x13) := by
    intro opc h23 hopc
    obtain ⟨k, hk, htop, hopc'⟩ := top_of_class (class_of_six h23)
    have h31 : w.getLsbD 31 = (w >>> 24).getLsbD 7 := by rw [BitVec.getLsbD_ushiftRight]
    rw [h31, htop, ← hopc, hopc']
    clear htop hopc' hopc h31
    revert k
    decide
  unfold ShiftImm.ofWord? at h
  dsimp only at h
  generalize hlast : (if w.getLsbD 31 = true then 63#6 else 31#6) = last at h
  split_ifs at h with hc hasr hlsr hlsl
  · obtain rfl := Option.some.inj h
    refine ⟨hc.1, rfl, rfl, ?_, ?_, fun _ => rfl⟩
    · rw [htop _ hc.1 hasr.1]
      cases w.getLsbD 31 <;> rfl
    · dsimp only
      rw [hlast, hasr.2]
      exact (BitVec.sub_zero last).symm
  · obtain rfl := Option.some.inj h
    refine ⟨hc.1, rfl, rfl, ?_, ?_, fun _ => rfl⟩
    · rw [htop _ hc.1 hlsr.1]
      cases w.getLsbD 31 <;> rfl
    · dsimp only
      rw [hlast, hlsr.2]
      exact (BitVec.sub_zero last).symm
  · obtain rfl := Option.some.inj h
    refine ⟨hc.1, rfl, rfl, ?_, ?_, fun hne => absurd rfl hne⟩
    · rw [htop _ hc.1 hlsl.1]
      cases w.getLsbD 31 <;> rfl
    · dsimp only
      rw [hlast, if_pos rfl]
      generalize w.extractLsb' 10 6 = imms
      bv_omega

/-- The record of a 64-bit shift. -/
def shift_record (w : BitVec 32) : DecodedInstr :=
  let imms := w.extractLsb' 10 6
  { DecodedInstr.cleared w with
    category := .INTEGER_ARITH, opcode := if imms = 63#6 then 0x04#8 else 0x07#8,
    rd := (w.extractLsb' 0 5).setWidth 8, rn := (w.extractLsb' 5 5).setWidth 8, rm := 0xFF#8,
    imm := (w.extractLsb' 16 6).setWidth 64,
    imm_s := if imms = 63#6 then 0#64 else imms.setWidth 64
    size := bits8 w 31 31 }

theorem decode_shift64 (h₁ : w.extractLsb' 23 6 = 0b100110#6) (h : w >>> 24 ∈ [0x93#32, 0xD3#32]) :
    decode w = (true, shift_record w) := by
  have h23 := bits_28_23 h₁
  have himmr : (bits w 21 16).setWidth 64 = (w.extractLsb' 16 6).setWidth 64 :=
    setWidth_bits w rfl (by decide) (by decide)
  have himms : (bits w 15 10).setWidth 64 = (w.extractLsb' 10 6).setWidth 64 :=
    setWidth_bits w rfl (by decide) (by decide)
  have hlast : bits w 15 10 = 63#32 ↔ w.extractLsb' 10 6 = 63#6 := by
    rw [bits_eq_iff (by decide), extract_eq_iff]
    rfl
  simp only [List.mem_cons, List.not_mem_nil, or_false] at h
  rcases h with h | h <;>
  · have hb := bits_shift h
    have hreg := data_proc_reg_unknown h (by decide)
    by_cases hs : w.extractLsb' 10 6 = 63#6
    · simp +decide only [decode, decode_mid, decode_even, decode_data_proc_imm, hb, hreg, h23, hlast,
        himmr, hs, decode_rd, decode_rn, unknown, orElseIf, orElse, if_true, if_false, false_and,
        shift_record, DecodedInstr.cleared]
    · simp +decide only [decode, decode_mid, decode_even, decode_data_proc_imm, hb, hreg, h23, hlast,
        himmr, himms, hs, decode_rd, decode_rn, unknown, orElseIf, orElse, if_true, if_false, false_and,
        and_false, shift_record]

/-- The 32-bit LSL and LSR end in `decode_load_store`. -/
theorem decode_ubfm32 (h₁ : w.extractLsb' 23 6 = 0b100110#6) (h : w >>> 24 = 0x53#32) :
    (decode w).1 = false := by
  have hb := bits_shift h
  have hreg := data_proc_reg_unknown h (by decide)
  have h23 := bits_28_23 h₁
  simp +decide only [decode, decode_mid, decode_load_store, hb, hreg, h23, unknown, orElseIf, orElse,
    if_true, if_false, false_and]

/-- The 32-bit ASR, whose `imms` is not 63, decodes as SBFX. -/
theorem decode_asr32 (h₁ : w.extractLsb' 23 6 = 0b100110#6) (h : w >>> 24 = 0x13#32)
    (hs : w.extractLsb' 10 6 = 31#6) :
    (decode w).1 = true ∧ (decode w).2.opcode = 0x07#8 := by
  have hb := bits_shift h
  have hreg := data_proc_reg_unknown h (by decide)
  have h23 := bits_28_23 h₁
  have himms : bits w 15 10 = 31#32 := by
    have h' : w.toNat / 2 ^ 10 % 2 ^ 6 = 31 := toNat_of_extract hs
    exact (bits_eq_iff (by decide)).mpr h'
  simp +decide only [decode, decode_mid, decode_even, decode_data_proc_imm, hb, hreg, h23, himms,
    unknown, orElseIf, orElse, if_true, if_false, false_and, and_false]

/-! ## LDR (literal) -/

/-- The record of LDR (literal), 64-bit: register 31 as a base, and the offset in words. -/
def literal_record (w : BitVec 32) : DecodedInstr :=
  { DecodedInstr.cleared w with
    category := .LOAD_STORE, opcode := 0x63#8, rt := (w.extractLsb' 0 5).setWidth 8, rn := 31#8,
    imm_s := (w.extractLsb' 5 19).signExtend 64, is_pc_relative := true }

theorem decode?_literal {f : LoadLiteral} (h : LoadLiteral.ofWord? w = some f) :
    decode? w = some (literal_record w) ∧ f = ⟨w.extractLsb' 0 5, w.extractLsb' 5 19⟩ := by
  unfold LoadLiteral.ofWord? at h
  split_ifs at h with hc
  obtain rfl := Option.some.inj h
  have htop : w >>> 24 = 0x58#32 := top_of_extract hc
  have hb := bits_shift htop
  have h19 : (bits w 23 5).setWidth 19 = w.extractLsb' 5 19 := by
    rw [setWidth_bits w (n := 19) rfl (by decide) (by decide), BitVec.setWidth_eq]
  have himm : (sign_extend ((bits w 23 5).setWidth 64) 19).signExtend 64 =
      (w.extractLsb' 5 19).signExtend 64 := by
    rw [sign_extend_eq _ (by decide) (by decide), BitVec.setWidth_setWidth_of_le _ (by decide), h19,
      signExtend_signExtend _ (by decide)]
  have hdecode : decode w = (true, literal_record w) := by
    simp +decide only [decode, decode_pcrel, hb, himm, decode_rd, if_true, if_false, literal_record]
  rw [decode?, hdecode]
  exact ⟨rfl, rfl⟩

/-! ## ADR and ADRP -/

/-- The record of ADR and ADRP. -/
def pcrel_record (w : BitVec 32) (page : Bool) : DecodedInstr :=
  let offset := (w.extractLsb' 5 19 ++ w.extractLsb' 29 2).signExtend 64
  { DecodedInstr.cleared w with
    category := .MOVE, opcode := if page then 0x25#8 else 0x24#8,
    rd := (w.extractLsb' 0 5).setWidth 8, imm_s := offset, imm := offset, is_pc_relative := true }

/-- The top byte holds `op`, `immlo` and the class. -/
theorem top_of_pcrel {f : PcRel} (h : PcRel.ofWord? w = some f) :
    f = ⟨w.getLsbD 31, w.extractLsb' 5 19 ++ w.extractLsb' 29 2, w.extractLsb' 0 5⟩ ∧
      (w >>> 24, f.page, f.imm21.extractLsb' 0 2) ∈ [(0x10#32, false, 0#2), (0x30#32, false, 1#2),
        (0x50#32, false, 2#2), (0x70#32, false, 3#2), (0x90#32, true, 0#2), (0xB0#32, true, 1#2),
        (0xD0#32, true, 2#2), (0xF0#32, true, 3#2)] := by
  unfold PcRel.ofWord? at h
  split_ifs at h with hc
  obtain rfl := Option.some.inj h
  obtain ⟨k, hk, htop, hlo⟩ := top_of_class hc
  have h31 : w.getLsbD 31 = (w >>> 24).getLsbD 7 := by rw [BitVec.getLsbD_ushiftRight]
  refine ⟨rfl, ?_⟩
  dsimp only
  rw [BitVec.extractLsb'_append_eq_right, hlo, h31, htop]
  clear htop hlo h31 hc h
  revert k
  decide

/-- **ADR and ADRP** decode, ADR only with a multiple of four. -/
theorem decode_pcrel_word {f : PcRel} (h : PcRel.ofWord? w = some f) :
    if f.page = true ∨ f.imm21.extractLsb' 0 2 = 0#2 then decode w = (true, pcrel_record w f.page)
    else (decode w).1 = false := by
  obtain ⟨-, htop⟩ := top_of_pcrel h
  generalize f.page = page at htop
  generalize f.imm21.extractLsb' 0 2 = low at htop
  have himm := decode_imm21 w
  simp only [List.mem_cons, List.not_mem_nil, or_false, Prod.mk.injEq] at htop
  rcases htop with ⟨h, rfl, rfl⟩ | ⟨h, rfl, rfl⟩ | ⟨h, rfl, rfl⟩ | ⟨h, rfl, rfl⟩ | ⟨h, rfl, rfl⟩ |
    ⟨h, rfl, rfl⟩ | ⟨h, rfl, rfl⟩ | ⟨h, rfl, rfl⟩
  all_goals
    have hb := bits_shift h
    have hreg := data_proc_reg_unknown h (by decide)
    have hmov := not_movz h (by decide)
    rw [hb 30 29 (by decide) (by decide)] at himm
    simp +decide only [decode, decode_mid, decode_pcrel, decode_load_store, hb, hreg, hmov, himm,
      decode_rd, unknown, orElseIf, orElse, if_true, if_false, false_and, pcrel_record]

end Forms

end ARM64Decoder

end Bbarm64
