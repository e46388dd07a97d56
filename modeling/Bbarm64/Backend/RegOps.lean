import Bbarm64.Backend.EmitterFacts
import Bbarm64.X86.Completion

/-!
# Backend.RegOps — the encoders that change one register

`RegOp` names the shifts, `neg`, `bswap` and the arithmetic with an immediate of up to 31 bits, each
with its operand, `RegOp.emit` is the call of the encoder and `RegOp.eval` the operation it is named
after.  All of them put bit 0 of the register number where the REX prefix takes bit 3 (`breg`), so
what the bytes change is another register for half of the numbers.
-/

namespace Bbarm64

open X86 X86_64Emitter

inductive RegOp where
  | shl_reg_imm (imm : Byte)
  | shr_reg_imm (imm : Byte)
  | sar_reg_imm (imm : Byte)
  | ror_reg_imm (imm : Byte)
  | shl_reg_cl
  | shr_reg_cl
  | sar_reg_cl
  | neg_reg
  | bswap
  | add_reg_imm (imm : BitVec 64)
  | sub_reg_imm (imm : BitVec 64)
  | and_reg_imm (imm : BitVec 64)
  | or_reg_imm (imm : BitVec 64)
  | xor_reg_imm (imm : BitVec 64)
  deriving DecidableEq, Repr

namespace RegOp

/-- Counts from 1 to 63, and immediates below `2 ^ 31`. -/
def InRange : RegOp → Prop
  | .shl_reg_imm n | .shr_reg_imm n | .sar_reg_imm n | .ror_reg_imm n => 1 ≤ n.toNat ∧ n.toNat ≤ 63
  | .add_reg_imm v | .sub_reg_imm v | .and_reg_imm v | .or_reg_imm v | .xor_reg_imm v =>
    v.toNat < 2 ^ 31
  | .shl_reg_cl | .shr_reg_cl | .sar_reg_cl | .neg_reg | .bswap => True

def emit (op : RegOp) (e : X86_64Emitter) (reg : Byte) : X86_64Emitter :=
  match op with
  | .shl_reg_imm n => e.emit_shl_reg_imm reg n
  | .shr_reg_imm n => e.emit_shr_reg_imm reg n
  | .sar_reg_imm n => e.emit_sar_reg_imm reg n
  | .ror_reg_imm n => e.emit_ror_reg_imm reg n
  | .shl_reg_cl => e.emit_shl_reg_cl reg
  | .shr_reg_cl => e.emit_shr_reg_cl reg
  | .sar_reg_cl => e.emit_sar_reg_cl reg
  | .neg_reg => e.emit_neg_reg reg
  | .bswap => e.emit_bswap reg
  | .add_reg_imm v => e.emit_add_reg_imm reg v
  | .sub_reg_imm v => e.emit_sub_reg_imm reg v
  | .and_reg_imm v => e.emit_and_reg_imm reg v
  | .or_reg_imm v => e.emit_or_reg_imm reg v
  | .xor_reg_imm v => e.emit_xor_reg_imm reg v

/-- The operation on the old value `a`, with `c` the value of RCX. -/
def eval (op : RegOp) (c a : Word) : Word :=
  match op with
  | .shl_reg_imm n => a <<< n.toNat
  | .shr_reg_imm n => a >>> n.toNat
  | .sar_reg_imm n => a.sshiftRight n.toNat
  | .ror_reg_imm n => a.rotateRight n.toNat
  | .shl_reg_cl => a <<< (c.toNat % 64)
  | .shr_reg_cl => a >>> (c.toNat % 64)
  | .sar_reg_cl => a.sshiftRight (c.toNat % 64)
  | .neg_reg => -a
  | .bswap => byteSwap a
  | .add_reg_imm v => a + v
  | .sub_reg_imm v => a - v
  | .and_reg_imm v => a &&& v
  | .or_reg_imm v => a ||| v
  | .xor_reg_imm v => a ^^^ v

/-- The instruction on the register `r`. -/
def insn (op : RegOp) (r : Reg) : Insn :=
  match op with
  | .shl_reg_imm n => .base (.shift .shl r n)
  | .shr_reg_imm n => .base (.shift .shr r n)
  | .sar_reg_imm n => .base (.shift .sar r n)
  | .ror_reg_imm n => .ror r n
  | .shl_reg_cl => .shiftCL .shl r
  | .shr_reg_cl => .shiftCL .shr r
  | .sar_reg_cl => .shiftCL .sar r
  | .neg_reg => .neg r
  | .bswap => .bswap r
  | .add_reg_imm v => .base (.aluI .add r (v.setWidth 32))
  | .sub_reg_imm v => .base (.aluI .sub r (v.setWidth 32))
  | .and_reg_imm v => .base (.aluI .and r (v.setWidth 32))
  | .or_reg_imm v => .base (.aluI .or r (v.setWidth 32))
  | .xor_reg_imm v => .base (.aluI .xor r (v.setWidth 32))

/-! ## The bytes -/

section Bytes

variable (e : X86_64Emitter) (reg : Byte)

theorem or_low : ∀ d l : BitVec 3, modrm 3#2 d 0#3 ||| l.setWidth 8 = modrm 3#2 d l := by decide

theorem emit_ror_reg_imm_eq (imm : Byte) : e.emit_ror_reg_imm reg imm =
    e.emit_bytes (encodeInsn (.ror (breg reg) imm)) := by
  have h : 0xC8#8 = modrm 3#2 1#3 0#3 := by decide
  simp only [emit_ror_reg_imm, emit_shift_imm, emit_rex_eq, rex_low, low_breg, h, or_low, encodeInsn,
    emit_bytes_cons, emit_bytes_nil]
  rfl

theorem emit_shift_cl_eq (op : ShiftOp) : e.emit_shift_cl (modrm 3#2 op.digit 0#3) reg =
    e.emit_bytes (encodeInsn (.shiftCL op (breg reg))) := by
  simp only [emit_shift_cl, emit_rex_eq, rex_low, low_breg, or_low, encodeInsn, emit_bytes_cons,
    emit_bytes_nil]
  rfl

theorem emit_neg_reg_eq : e.emit_neg_reg reg = e.emit_bytes (encodeInsn (.neg (breg reg))) := by
  have h : 0xD8#8 = modrm 3#2 3#3 0#3 := by decide
  simp only [emit_neg_reg, emit_rex_eq, rex_low, low_breg, h, or_low, encodeInsn, emit_bytes_cons,
    emit_bytes_nil]
  rfl

theorem emit_bswap_eq : e.emit_bswap reg = e.emit_bytes (encodeInsn (.bswap (breg reg))) := by
  have h : ∀ l : BitVec 3, 0xC8#8 ||| l.setWidth 8 = 0b11001#5 ++ l := by decide
  simp only [emit_bswap, emit_rex_eq, rex_low, low_breg, h, encodeInsn, emit_bytes_cons,
    emit_bytes_nil]
  rfl

/-- **The bytes of a call** are one instruction, on the register `breg reg`. -/
theorem emit_eq {op : RegOp} (hop : op.InRange) :
    op.emit e reg = e.emit_bytes (encodeInsn (op.insn (breg reg))) := by
  have hle : ∀ v : BitVec 64, v.toNat < 2 ^ 31 → v ≤ 0xFFFFFFFF#64 := by
    intro v hv
    rw [BitVec.le_def]
    exact Nat.le_of_lt (Nat.lt_of_lt_of_le hv (by decide))
  cases op with
  | shl_reg_imm n => exact e.emit_shift_imm_eq .shl reg n
  | shr_reg_imm n => exact e.emit_shift_imm_eq .shr reg n
  | sar_reg_imm n => exact e.emit_shift_imm_eq .sar reg n
  | ror_reg_imm n => exact emit_ror_reg_imm_eq e reg n
  | shl_reg_cl => exact emit_shift_cl_eq e reg .shl
  | shr_reg_cl => exact emit_shift_cl_eq e reg .shr
  | sar_reg_cl => exact emit_shift_cl_eq e reg .sar
  | neg_reg => exact emit_neg_reg_eq e reg
  | bswap => exact emit_bswap_eq e reg
  | add_reg_imm v => exact e.emit_add_reg_imm_eq (hle v hop) reg
  | sub_reg_imm v => exact e.emit_sub_reg_imm_eq (hle v hop) reg
  | and_reg_imm v => exact e.emit_and_reg_imm_eq (hle v hop) reg
  | or_reg_imm v => exact e.emit_or_reg_imm_eq (hle v hop) reg
  | xor_reg_imm v => exact e.emit_xor_reg_imm_eq (hle v hop) reg

/-- The bytes the call adds to the buffer. -/
def bytes (op : RegOp) (e : X86_64Emitter) (reg : Byte) : List Byte :=
  (op.emit e reg).code.drop e.offset_

theorem length_insn_le (op : RegOp) (r : Reg) : (encodeInsn (op.insn r)).length ≤ 7 := by
  cases op <;> simp [insn, encodeInsn, encode]

theorem bytes_eq {op : RegOp} (hop : op.InRange) (hb : e.buf_ ≠ 0#64) (hs : e.size_ ≤ 2 ^ 64)
    (hroom : e.offset_ + 7 ≤ e.size_) :
    op.bytes e reg = encodeInsn (op.insn (breg reg)) := by
  have hlen := length_insn_le op (breg reg)
  rw [bytes, emit_eq e reg hop, e.emit_bytes_drop hb hs (by omega)]

end Bytes

/-! ## The effect -/

theorem straight_insn (op : RegOp) (r : Reg) : (op.insn r).straight = true := by
  cases op <;> rfl

theorem execShift_reg_eq (o : ShiftOp) (d q : Reg) (n : Byte) (s : State) :
    (execShift o d n s).reg q = if q = d then o.eval (s.reg d) (n.toNat % 64) else s.reg q := by
  unfold execShift
  dsimp only
  by_cases hk : n.toNat % 64 = 0
  · have h0 : o.eval (s.reg d) 0 = s.reg d := by cases o <;> simp [ShiftOp.eval]
    rw [if_pos hk, hk, h0]
    split_ifs with hq
    · rw [hq]
    · rfl
  · rw [if_neg hk]
    simp

theorem execAlu_reg_eq {o : AluOp} (ho : o ≠ .cmp) (d q : Reg) (b : Word) (s : State) :
    (execAlu o d b s).reg q = if q = d then o.eval (s.reg d) b else s.reg q := by
  unfold execAlu
  dsimp only
  rw [if_neg ho]
  simp

theorem signExtend_of_lt {v : BitVec 64} (hv : v.toNat < 2 ^ 31) :
    (v.setWidth 32).signExtend 64 = v := by
  have hw : (v.setWidth 32).toNat = v.toNat := by
    rw [BitVec.toNat_setWidth]
    exact Nat.mod_eq_of_lt (Nat.lt_trans hv (by decide))
  have hmsb : (v.setWidth 32).msb = false := by
    rw [BitVec.msb_eq_false_iff_two_mul_lt, hw]
    omega
  apply BitVec.eq_of_toNat_eq
  rw [BitVec.signExtend_eq_setWidth_of_msb_false hmsb, BitVec.toNat_setWidth, hw]
  exact Nat.mod_eq_of_lt v.isLt

/-- The register `r` gets the result, the others keep their values. -/
theorem execInsn_reg {op : RegOp} (hop : op.InRange) (r q : Reg) (s : State) :
    (execInsn (op.insn r) s).reg q = if q = r then op.eval (s.reg rcx) (s.reg r) else s.reg q := by
  have himm : ∀ n : Byte, 1 ≤ n.toNat ∧ n.toNat ≤ 63 → n.toNat % 64 = n.toNat := by
    intro n hn
    omega
  have hcl : ((s.reg rcx).setWidth 8).toNat % 64 = (s.reg rcx).toNat % 64 := by
    rw [BitVec.toNat_setWidth]
    omega
  cases op with
  | shl_reg_imm n | shr_reg_imm n | sar_reg_imm n =>
    show (execShift _ r n s).reg q = _
    rw [execShift_reg_eq, himm n hop]
    rfl
  | ror_reg_imm n =>
    show (execRor r n s).reg q = _
    unfold execRor
    dsimp only
    rw [himm n hop, if_neg (by have := hop.1; omega)]
    rfl
  | shl_reg_cl | shr_reg_cl | sar_reg_cl =>
    show (execShift _ r ((s.reg rcx).setWidth 8) s).reg q = _
    rw [execShift_reg_eq, hcl]
    rfl
  | neg_reg => rfl
  | bswap => rfl
  | add_reg_imm v | sub_reg_imm v | and_reg_imm v | or_reg_imm v | xor_reg_imm v =>
    simp only [insn, execInsn, exec]
    rw [execAlu_reg_eq (by decide), signExtend_of_lt hop]
    rfl

/-- Executing the code changes register `r` to the operation of its old value, and no other. -/
def Computes (op : RegOp) (code : List Byte) (r : Reg) (s : State) : Prop :=
  ∃ s', StepsInsn code ⟨0, s⟩ ⟨code.length, s'⟩ ∧ s'.reg r = op.eval (s.reg rcx) (s.reg r) ∧
    ∀ q, q ≠ r → s'.reg q = s.reg q

/-- An instruction on the register `b` instead of `r`. -/
theorem computes_insn_iff {op : RegOp} (hop : op.InRange) (b r : Reg) (s : State) :
    op.Computes (encodeInsn (op.insn b)) r s ↔ b = r ∨
      op.eval (s.reg rcx) (s.reg r) = s.reg r ∧ op.eval (s.reg rcx) (s.reg b) = s.reg b := by
  have hrun : op.Computes (encodeInsn (op.insn b)) r s ↔
      (execInsn (op.insn b) s).reg r = op.eval (s.reg rcx) (s.reg r) ∧
        ∀ q, q ≠ r → (execInsn (op.insn b) s).reg q = s.reg q := by
    unfold Computes
    simp only [stepsInsn_one_iff (straight_insn op b) s, exists_eq_left]
  rw [hrun, write_meets_iff fun q => execInsn_reg hop b q s]
  by_cases hbr : b = r
  · subst hbr
    exact iff_of_true (.inl ⟨rfl, rfl⟩) (.inl rfl)
  · constructor
    · rintro (⟨he, -⟩ | ⟨-, hkeep⟩)
      · exact .inl he
      · exact .inr hkeep
    · rintro (he | hkeep)
      · exact absurd he hbr
      · exact .inr ⟨hbr, hkeep⟩

/-- The register number with its bit 0 in the place of its bit 3. -/
def swapped (r : Reg) : Reg := r.extractLsb' 0 1 ++ r.extractLsb' 0 3

theorem breg_setWidth : ∀ r : Reg, breg (r.setWidth 8) = swapped r := by decide

theorem swapped_eq_iff : ∀ r : Reg, swapped r = r ↔ r.getLsbD 0 = r.getLsbD 3 := by decide

/-- **The encoders**: the bytes do what the encoder is named after exactly for the registers whose
bit 0 is their bit 3, and where the operation leaves both registers as they are. -/
theorem computes_iff {e : X86_64Emitter} (hb : e.buf_ ≠ 0#64) (hs : e.size_ ≤ 2 ^ 64)
    (hroom : e.offset_ + 7 ≤ e.size_) {op : RegOp} (hop : op.InRange) (r : Reg) (s : State) :
    op.Computes (op.bytes e (r.setWidth 8)) r s ↔ r.getLsbD 0 = r.getLsbD 3 ∨
      op.eval (s.reg rcx) (s.reg r) = s.reg r ∧
        op.eval (s.reg rcx) (s.reg (swapped r)) = s.reg (swapped r) := by
  rw [bytes_eq e _ hop hb hs hroom, breg_setWidth, computes_insn_iff hop, swapped_eq_iff]

/-- An emitter over an empty buffer of 16 bytes. -/
def scratch : X86_64Emitter := .set_buffer 0x1000#64 16 fun _ => 0#8

/-- `neg r9` with 5 in R9 and 7 in RDX. -/
theorem computes_iff_neg :
    RegOp.neg_reg.Computes (RegOp.neg_reg.bytes scratch 0x09#8) 9#4
      ((State.cleared.setReg 9#4 5#64).setReg 2#4 7#64) := by
  have hop : RegOp.neg_reg.InRange := trivial
  exact (computes_iff (e := scratch) (by decide) (by decide) (by decide) hop 9#4 _).mpr (.inl (by decide))

/-- `shl rcx, 1` shifts R9. -/
theorem shl_rcx_not_computes :
    ¬ (RegOp.shl_reg_imm 1#8).Computes ((RegOp.shl_reg_imm 1#8).bytes scratch 1#8) rcx
      (State.cleared.setReg rcx 1#64) := by
  have hop : (RegOp.shl_reg_imm 1#8).InRange := ⟨by decide, by decide⟩
  rw [bytes_eq scratch 1#8 hop (by decide) (by decide) (by decide), computes_insn_iff hop]
  decide

end RegOp

end Bbarm64
