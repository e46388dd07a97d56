import Bbarm64.Engine.Fallback
import Bbarm64.Engine.Narrow

/-!
# Engine.Shift — the blocks of the 64-bit shifts

The decoder takes LSR for ASR, which the block shifts arithmetically, and LSL for SBFX, for which the
block has nothing but its return.
-/

namespace Bbarm64

open X86 ARM64Decoder IRBuilder IRLowering

namespace ExecEngine

/-- The word of a 64-bit LSL, LSR or ASR by 1 to 63, between `x0` to `x30`. -/
structure IsLongShift (w : BitVec 32) (f : A64.ShiftImm) : Prop where
  word : A64.ShiftImm.ofWord? w = some f
  sf : f.sf = true
  amount : f.amount ≠ 0#6
  rd : f.rd ≠ 31#5
  rn : f.rn ≠ 31#5

/-- The word decodes, and its block, entered in state `s`, returns with the A64 result in `rd`. -/
def LeavesShift (f : A64.ShiftImm) (w : BitVec 32) (g : Guest) (host_code : Word) (host : Mem)
    (s : State) : Prop :=
  ∃ d s', decode? w = some d ∧ Returns (block_code [d] g.1.pc host_code host) s s' ∧
    X86.word s'.mem (s.reg rdi) (8 * f.rd.toNat) = f.result (g.1.x f.rn.toNat)

/-- ASR; or LSR of a value with a clear top bit; or LSL that finds its result in `rd`. -/
def ShiftInPlace (f : A64.ShiftImm) (g : Guest) : Prop :=
  match f.kind with
  | .asr => True
  | .lsr => (g.1.x f.rn.toNat).msb = false
  | .lsl => g.1.x f.rd.toNat = g.1.x f.rn.toNat <<< f.amount.toNat

/-! ## The block of SAR -/

/-- The IR of SAR by an immediate. -/
def sarIr (d : DecodedInstr) : IRInst where
  op := .SAR
  dest := reg d.rd
  src1 := reg d.rn
  src2 := IR_IMM
  imm := d.imm
  size := if d.size ≠ 0#8 then 8#8 else 4#8

section Sar

variable {d : DecodedInstr} {s : State} {c : Word} {ctx : CPUContext}

theorem instrIr_sar (hop : d.opcode = 0x04#8) (pc : Word) : instrIr d pc = [sarIr d] := by
  simp [instrIr, build_instr, hop, shift_imm, sarIr, IRBlock.push_back]

/-- The count goes to SAR as a byte, and SAR takes it modulo 64. -/
theorem execShift_sar {n : Byte} (hn : n.toNat < 64) (r : Reg) :
    (execShift .sar r n s).reg r = (s.reg r).sshiftRight n.toNat := by
  unfold execShift
  dsimp only
  rw [Nat.mod_eq_of_lt hn]
  split_ifs with h0
  · rw [h0, BitVec.sshiftRight_zero]
  · simp [ShiftOp.eval]

/-- **The block of SAR**: `rd` gets the arithmetic shift. -/
theorem run_sar (hrn : IsArm d.rn) (hrd : IsArm d.rd) (himm : d.imm.toNat < 64)
    (hc : s.reg r12 = c) (hctx : CtxAt s.mem c ctx) (ft : Word) :
    X86.word (execAll (lowerAsm ft (sarIr d)) s).mem c (8 * d.rd.toNat) =
      (ctx.x d.rn.toNat).sshiftRight d.imm.toNat := by
  have hx : X86.word s.mem c (8 * d.rn.toNat) = ctx.x d.rn.toNat :=
    hctx _ (Nat.lt_of_lt_of_le hrn (by decide))
  have hn : (d.imm.setWidth 8).toNat = d.imm.toNat := by
    rw [BitVec.toNat_setWidth]
    omega
  have hlower : lowerAsm ft (sarIr d) =
      [ldArm d.rn rax, .shift .sar rax (d.imm.setWidth 8), stArm rax d.rd] := by
    simp [lowerAsm, sarIr, shiftAsm]
  have hr12 : (r12 : Reg) ≠ rax := by decide
  have hc' : (execShift .sar rax (d.imm.setWidth 8) (s.setReg rax (ctx.x d.rn.toNat))).reg r12 = c := by
    rw [execShift_reg hr12, setReg_reg, if_neg hr12, hc]
  rw [hlower, execAll_cons, execAll_cons, execAll_cons, execAll_nil, exec_ldArm hc hrn, hx, exec,
    exec_stArm_mem hc' hrd, word_write_same, execShift_sar (by omega), setReg_reg, if_pos rfl, hn]

end Sar

/-! ## The shifts -/

section Shift

variable {f : A64.ShiftImm} {w : BitVec 32} {g : Guest} {host_code : Word} {s : State}

/-- If the block leaves a value in `rd`. -/
theorem leavesShift_of {d : DecodedInstr} (hdec : decode w = (true, d)) {s' : State}
    (hret : ∀ s₁, Returns (block_code [d] g.1.pc host_code host) s s₁ ↔ s₁ = s') {v : Word}
    (hv : X86.word s'.mem (s.reg rdi) (8 * f.rd.toNat) = v) :
    LeavesShift f w g host_code host s ↔ v = f.result (g.1.x f.rn.toNat) := by
  have hdec? : decode? w = some d := by
    rw [decode?, hdec]
    rfl
  constructor
  · rintro ⟨d', s₁, hd, hs₁, hres⟩
    obtain rfl := Option.some.inj (hdec?.symm.trans hd)
    obtain rfl := (hret s₁).mp hs₁
    rw [← hv, hres]
  · intro hres
    exact ⟨d, s', hdec?, (hret s').mpr rfl, by rw [hv, hres]⟩

theorem shift_record_fields (h : IsShift w f) : (shift_record w).rd.toNat = f.rd.toNat ∧
    (shift_record w).rn.toNat = f.rn.toNat ∧
    (shift_record w).imm.toNat = (w.extractLsb' 16 6).toNat := by
  refine ⟨?_, ?_, ?_⟩
  · rw [h.rd]
    exact toNat_setWidth_arm _
  · rw [h.rn]
    exact toNat_setWidth_arm _
  · have hlt := (w.extractLsb' 16 6).isLt
    show ((w.extractLsb' 16 6).setWidth 64).toNat = _
    rw [BitVec.toNat_setWidth]
    omega

theorem top_of_long (h : IsShift w f) (hsf : f.sf = true) : w >>> 24 ∈ [0x93#32, 0xD3#32] := by
  rw [h.top, hsf, if_pos rfl, if_pos rfl]
  split_ifs <;> decide

/-- ASR and LSR: the block shifts arithmetically. -/
theorem leavesShift_right (h : IsShift w f) (hsf : f.sf = true) (hk : f.kind ≠ .lsl)
    (hb : host_code ≠ 0#64) (host : Mem) (hctx : CtxAt s.mem (s.reg rdi) g.1) :
    LeavesShift f w g host_code host s ↔
      (g.1.x f.rn.toNat).sshiftRight f.amount.toNat = f.result (g.1.x f.rn.toNat) := by
  have himms : w.extractLsb' 10 6 = 63#6 := by
    rw [h.imms, hsf, if_neg hk]
    rfl
  have hop : (shift_record w).opcode = 0x04#8 := if_pos himms
  obtain ⟨hrd, hrn, himm⟩ := shift_record_fields h
  rw [h.immr hk] at himm
  have hlt := f.rd.isLt
  have hlt' := f.rn.isLt
  have hamount := f.amount.isLt
  have hwd : IsArm (shift_record w).rn ∧ IsArm (shift_record w).rd := by
    unfold IsArm
    omega
  have hr : ¬ Returning (sarIr (shift_record w)).op := (by decide : ¬ Returning IROpcode.SAR)
  refine leavesShift_of (decode_shift64 h.six (top_of_long h hsf))
    (fun s₁ => returns_lone (instrIr_sar hop _) rfl hr hb host) ?_
  rw [lone_mem hr, word_write_ne (by omega) (by omega) (by omega), ← hrd,
    run_sar hwd.1 hwd.2 (by omega) (enter_r12 s) hctx, hrn, himm]

/-- LSL: the block leaves `rd` alone. -/
theorem leavesShift_left (h : IsShift w f) (hsf : f.sf = true) (hk : f.kind = .lsl)
    (hs : f.amount ≠ 0#6) (hb : host_code ≠ 0#64) (host : Mem)
    (hctx : CtxAt s.mem (s.reg rdi) g.1) : LeavesShift f w g host_code host s ↔
      g.1.x f.rd.toNat = f.result (g.1.x f.rn.toNat) := by
  have himms : w.extractLsb' 10 6 ≠ 63#6 := by
    rw [h.imms, hsf, if_pos hk, if_pos rfl]
    generalize f.amount = amount at hs
    bv_omega
  have hop : (shift_record w).opcode = 0x07#8 := if_neg himms
  have hcases : (shift_record w).opcode ∉ build_cases := by
    rw [hop]
    decide
  obtain ⟨s', hret, hmem⟩ := returns_default hcases g.1.pc hb host s
  have hlt := f.rd.isLt
  refine leavesShift_of (decode_shift64 h.six (top_of_long h hsf)) hret ?_
  rw [hmem, word_write_ne (by omega) (by omega) (by omega)]
  exact hctx _ (Nat.lt_of_lt_of_le hlt (by decide))

/-- Shifts to the right agree on a clear top bit only. -/
theorem sshiftRight_eq_iff {x : Word} {n : ℕ} (hn : 0 < n) :
    x.sshiftRight n = x >>> n ↔ x.msb = false := by
  constructor
  · intro h
    have hmsb := congrArg BitVec.msb h
    rwa [BitVec.msb_sshiftRight, BitVec.msb_ushiftRight, decide_eq_true hn, Bool.not_true,
      Bool.false_and] at hmsb
  · exact BitVec.sshiftRight_eq_of_msb_false

/-- **64-bit shifts**: the block leaves the result of ASR, that of LSR if the top bit of the value is
clear, and that of LSL if it is there before. -/
theorem leavesShift_iff (h : IsLongShift w f) (hb : host_code ≠ 0#64) (host : Mem)
    (hctx : CtxAt s.mem (s.reg rdi) g.1) :
    LeavesShift f w g host_code host s ↔ ShiftInPlace f g := by
  have hshift := isShift_of_ofWord? h.word
  unfold ShiftInPlace
  cases hk : f.kind with
  | asr =>
    rw [leavesShift_right hshift h.sf (by rw [hk]; decide) hb host hctx, A64.ShiftImm.result, hk]
    exact iff_of_true rfl trivial
  | lsr =>
    have hpos : 0 < f.amount.toNat := by
      rw [Nat.pos_iff_ne_zero]
      intro h0
      exact h.amount (BitVec.eq_of_toNat_eq h0)
    rw [leavesShift_right hshift h.sf (by rw [hk]; decide) hb host hctx, A64.ShiftImm.result, hk]
    exact sshiftRight_eq_iff hpos
  | lsl =>
    rw [leavesShift_left hshift h.sf hk h.amount hb host hctx, A64.ShiftImm.result, hk]

end Shift

/-- `x2` is -8. -/
def negative_guest : Guest := (CPUContext.zero.set_x 2 (-8#64), .new fun _ => 0#8)

/-- The host state with that context at 0. -/
def negative_state : State :=
  { State.cleared with mem := writeN 8 (fun _ => 0#8) (off 0#64 16) (-8#64) }

theorem ctxAt_negative :
    CtxAt negative_state.mem (negative_state.reg rdi) negative_guest.1 :=
  CtxAt.write (k := 2) (ctxAt_zero _) (by decide) _

/-- `asr x1, x2, #1` of -8 -/
theorem leavesShift_iff_asr :
    LeavesShift ⟨true, .asr, 1#6, 2#5, 1#5⟩ 0x9341FC41#32 negative_guest 0x8000#64 (fun _ => 0#8)
      negative_state ↔ ShiftInPlace ⟨true, .asr, 1#6, 2#5, 1#5⟩ negative_guest :=
  leavesShift_iff ⟨by decide, rfl, by decide, by decide, by decide⟩ (by decide) _ ctxAt_negative

/-- `lsr x1, x2, #1` of -8 leaves -4. -/
theorem not_leavesShift_lsr :
    IsLongShift 0xD341FC41#32 ⟨true, .lsr, 1#6, 2#5, 1#5⟩ ∧
      ¬ LeavesShift ⟨true, .lsr, 1#6, 2#5, 1#5⟩ 0xD341FC41#32 negative_guest 0x8000#64
        (fun _ => 0#8) negative_state := by
  have hw : IsLongShift 0xD341FC41#32 ⟨true, .lsr, 1#6, 2#5, 1#5⟩ :=
    ⟨by decide, rfl, by decide, by decide, by decide⟩
  refine ⟨hw, ?_⟩
  rw [leavesShift_right (isShift_of_ofWord? hw.word) rfl (by decide) (by decide) _ ctxAt_negative]
  decide

end ExecEngine

end Bbarm64
