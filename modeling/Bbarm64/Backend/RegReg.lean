import Bbarm64.Backend.EmitterFacts
import Bbarm64.Backend.RegOps
import Bbarm64.X86.TwoByte

/-!
# Backend.RegReg — the encoders with two registers

All of them put `dst` in ModRM.rm and `src` in ModRM.reg.  For `mov` and the arithmetic the opcodes are
the ones that write ModRM.rm; `imul`, `cmovcc`, `movzx` and `movsx` write ModRM.reg, and so the register
that was to be the source.
-/

namespace Bbarm64

open X86 X86_64Emitter

inductive RegRegOp where
  | mov
  | add
  | sub
  | and
  | or
  | xor
  | two (op : TwoByte)
  deriving DecidableEq, Repr

namespace RegRegOp

def emit (op : RegRegOp) (e : X86_64Emitter) (dst src : Byte) : X86_64Emitter :=
  match op with
  | .mov => e.emit_mov_reg_reg dst src
  | .add => e.emit_add_reg_reg dst src
  | .sub => e.emit_sub_reg_reg dst src
  | .and => e.emit_and_reg_reg dst src
  | .or => e.emit_or_reg_reg dst src
  | .xor => e.emit_xor_reg_reg dst src
  | .two .imul => e.emit_imul_reg_reg dst src
  | .two (.cmovcc cc) => e.emit_cmovcc_reg_reg (cc.setWidth 8) dst src
  | .two .movzx8 => e.emit_movzx_reg8_reg dst src
  | .two .movzx16 => e.emit_movzx_reg16_reg dst src
  | .two .movsx8 => e.emit_movsx_reg8_reg dst src
  | .two .movsx16 => e.emit_movsx_reg16_reg dst src

/-- The function of the old values `d` of `dst` and `a` of `src`, under the flags `f`. -/
def eval (op : RegRegOp) (f : Flags) (d a : Word) : Word :=
  match op with
  | .mov => a
  | .add => d + a
  | .sub => d - a
  | .and => d &&& a
  | .or => d ||| a
  | .xor => d ^^^ a
  | .two op => op.eval f d a

/-- The opcode writes ModRM.rm. -/
def WritesRm : RegRegOp → Prop
  | .mov | .add | .sub | .and | .or | .xor => True
  | .two _ => False

instance : DecidablePred WritesRm
  | .mov | .add | .sub | .and | .or | .xor => inferInstanceAs (Decidable True)
  | .two _ => inferInstanceAs (Decidable False)

/-- The register written for the arguments `dst` and `src`. -/
def written (op : RegRegOp) (dst src : Reg) : Reg := if op.WritesRm then dst else src

def other (op : RegRegOp) (dst src : Reg) : Reg := if op.WritesRm then src else dst

/-- The instruction that writes `d`. -/
def code (op : RegRegOp) (d r : Reg) : List Byte :=
  match op with
  | .mov => encodeInsn (.base (.movRR d r))
  | .add => encodeInsn (.base (.alu .add d r))
  | .sub => encodeInsn (.base (.alu .sub d r))
  | .and => encodeInsn (.base (.alu .and d r))
  | .or => encodeInsn (.base (.alu .or d r))
  | .xor => encodeInsn (.base (.alu .xor d r))
  | .two op => op.encode d r

/-! ## The bytes -/

/-- **The bytes of a call** are one instruction, which writes `written`. -/
theorem emit_eq (op : RegRegOp) (e : X86_64Emitter) (dst src : Reg) :
    op.emit e (dst.setWidth 8) (src.setWidth 8) =
      e.emit_bytes (op.code (op.written dst src) (op.other dst src)) := by
  have hcc : ∀ cc : BitVec 4, 0x40#8 ||| cc.setWidth 8 = 4#4 ++ cc := by decide
  have hreg := fun o => e.emit_reg_reg_eq o (dst.setWidth 8) (src.setWidth 8)
  have htwo := fun o => e.emit_two_byte_eq o (dst.setWidth 8) (src.setWidth 8)
  simp only [hreg_setWidth] at hreg htwo
  cases op with
  | mov => exact hreg 0x89#8
  | add => exact hreg 0x01#8
  | sub => exact hreg 0x29#8
  | and => exact hreg 0x21#8
  | or => exact hreg 0x09#8
  | xor => exact hreg 0x31#8
  | two op =>
    cases op with
    | imul => exact htwo 0xAF#8
    | cmovcc cc =>
      show e.emit_two_byte (0x40#8 ||| cc.setWidth 8) _ _ = _
      rw [hcc]
      exact htwo (4#4 ++ cc)
    | movzx8 => exact htwo 0xB6#8
    | movzx16 => exact htwo 0xB7#8
    | movsx8 => exact htwo 0xBE#8
    | movsx16 => exact htwo 0xBF#8

/-- The bytes the call adds to the buffer. -/
def bytes (op : RegRegOp) (e : X86_64Emitter) (dst src : Byte) : List Byte :=
  (op.emit e dst src).code.drop e.offset_

theorem length_code_le (op : RegRegOp) (d r : Reg) : (op.code d r).length ≤ 4 := by
  cases op <;> simp [code, encodeInsn, X86.encode, TwoByte.encode]

theorem bytes_eq {e : X86_64Emitter} (hb : e.buf_ ≠ 0#64) (hs : e.size_ ≤ 2 ^ 64)
    (hroom : e.offset_ + 4 ≤ e.size_) (op : RegRegOp) (dst src : Reg) :
    op.bytes e (dst.setWidth 8) (src.setWidth 8) =
      op.code (op.written dst src) (op.other dst src) := by
  have hlen := length_code_le op (op.written dst src) (op.other dst src)
  rw [bytes, emit_eq, e.emit_bytes_drop hb hs (by omega)]

/-! ## The effect -/

/-- What the instruction does. -/
def exec (op : RegRegOp) (d r : Reg) (s : State) : State :=
  match op with
  | .mov => X86.exec (.movRR d r) s
  | .add => X86.exec (.alu .add d r) s
  | .sub => X86.exec (.alu .sub d r) s
  | .and => X86.exec (.alu .and d r) s
  | .or => X86.exec (.alu .or d r) s
  | .xor => X86.exec (.alu .xor d r) s
  | .two op => op.exec d r s

theorem exec_reg (op : RegRegOp) (d r q : Reg) (s : State) : (op.exec d r s).reg q =
    if q = d then op.eval s.flags (s.reg d) (s.reg r) else s.reg q := by
  cases op with
  | mov => rfl
  | add | sub | and | or | xor =>
    simp only [exec, X86.exec]
    rw [RegOp.execAlu_reg_eq (by decide)]
    rfl
  | two op => exact op.exec_reg d r q s

theorem steps_code_iff (op : RegRegOp) (d r : Reg) (s s' : State) :
    TwoByte.machine.Steps (op.code d r) ⟨0, s⟩ ⟨(op.code d r).length, s'⟩ ↔ s' = op.exec d r s := by
  have base : ∀ i : Instr, i.straight = true → (TwoByte.machine.Steps (encodeInsn (.base i)) ⟨0, s⟩
      ⟨(encodeInsn (.base i)).length, s'⟩ ↔ s' = X86.exec i s) :=
    fun i hi => TwoByte.machine.steps_one_iff (i := .base i) hi s s'
  cases op with
  | mov => exact base (.movRR d r) rfl
  | add => exact base (.alu .add d r) rfl
  | sub => exact base (.alu .sub d r) rfl
  | and => exact base (.alu .and d r) rfl
  | or => exact base (.alu .or d r) rfl
  | xor => exact base (.alu .xor d r) rfl
  | two op => exact op.steps_iff d r s s'

/-- Executing the code changes register `dst` only, to the function of the old values. -/
def Computes (op : RegRegOp) (code : List Byte) (dst src : Reg) (s : State) : Prop :=
  ∃ s', TwoByte.machine.Steps code ⟨0, s⟩ ⟨code.length, s'⟩ ∧
    s'.reg dst = op.eval s.flags (s.reg dst) (s.reg src) ∧ ∀ q, q ≠ dst → s'.reg q = s.reg q

theorem computes_code_iff (op : RegRegOp) (d r dst src : Reg) (s : State) :
    op.Computes (op.code d r) dst src s ↔
      d = dst ∧ op.eval s.flags (s.reg d) (s.reg r) = op.eval s.flags (s.reg dst) (s.reg src) ∨
        d ≠ dst ∧ op.eval s.flags (s.reg dst) (s.reg src) = s.reg dst ∧
          op.eval s.flags (s.reg d) (s.reg r) = s.reg d := by
  rw [← write_meets_iff fun q => exec_reg op d r q s]
  unfold Computes
  simp only [steps_code_iff op d r s, exists_eq_left]

/-- **The encoders**: `mov` and the arithmetic do what they are named after.  The others do for one
register twice, and where the operation leaves both registers as they are, whichever it writes. -/
theorem dst_written_iff {e : X86_64Emitter} (hb : e.buf_ ≠ 0#64) (hs : e.size_ ≤ 2 ^ 64)
    (hroom : e.offset_ + 4 ≤ e.size_) (op : RegRegOp) (dst src : Reg) (s : State) :
    op.Computes (op.bytes e (dst.setWidth 8) (src.setWidth 8)) dst src s ↔
      op.WritesRm ∨ dst = src ∨ op.eval s.flags (s.reg dst) (s.reg src) = s.reg dst ∧
        op.eval s.flags (s.reg src) (s.reg dst) = s.reg src := by
  rw [bytes_eq hb hs hroom, computes_code_iff]
  unfold written other
  by_cases hrm : op.WritesRm
  · rw [if_pos hrm, if_pos hrm]
    exact iff_of_true (.inl ⟨rfl, rfl⟩) (.inl hrm)
  · rw [if_neg hrm, if_neg hrm]
    constructor
    · rintro (⟨he, -⟩ | ⟨-, hkeep⟩)
      · exact .inr (.inl he.symm)
      · exact .inr (.inr hkeep)
    · rintro (hc | rfl | hkeep)
      · exact absurd hc hrm
      · exact .inl ⟨rfl, rfl⟩
      · by_cases he : src = dst
        · subst he
          exact .inl ⟨rfl, rfl⟩
        · exact .inr ⟨he, hkeep⟩

/-- 5 and 7. -/
theorem add_rcx_r9_computes : RegRegOp.add.Computes (RegRegOp.add.bytes RegOp.scratch 1#8 9#8)
    rcx r9 ((State.cleared.setReg rcx 5#64).setReg r9 7#64) :=
  (dst_written_iff (e := RegOp.scratch) (by decide) (by decide) (by decide) .add rcx r9
    ((State.cleared.setReg rcx 5#64).setReg r9 7#64)).mpr (.inl trivial)

/-- `imul rax, rcx` multiplies RCX. -/
theorem imul_rax_not_computes : ¬(two .imul).Computes ((two .imul).bytes RegOp.scratch 0#8 1#8) rax rcx
    ((State.cleared.setReg rax 2#64).setReg rcx 3#64) := by
  have hbytes := bytes_eq (e := RegOp.scratch) (by decide) (by decide) (by decide) (two .imul) rax rcx
  intro h
  rw [show (0#8 : Byte) = rax.setWidth 8 from rfl, show (1#8 : Byte) = rcx.setWidth 8 from rfl, hbytes,
    computes_code_iff] at h
  revert h
  decide

end RegRegOp

end Bbarm64
