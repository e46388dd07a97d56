import Bbarm64.X86.Completion

/-!
# X86.TwoByte — `imul`, `cmovcc`, `movzx` and `movsx` between registers

The forms `REX.W 0F op /r` that read a register and write one: the destination is in ModRM.reg and the
source in ModRM.rm.  `TwoByte.machine` is the completion of `stepInsn` with them.
-/

namespace X86

inductive TwoByte where
  | imul
  | cmovcc (cc : BitVec 4)
  | movzx8
  | movzx16
  | movsx8
  | movsx16
  deriving DecidableEq, Repr

namespace TwoByte

def opcode : TwoByte → Byte
  | .imul => 0xAF#8
  | .cmovcc cc => 4#4 ++ cc
  | .movzx8 => 0xB6#8
  | .movzx16 => 0xB7#8
  | .movsx8 => 0xBE#8
  | .movsx16 => 0xBF#8

def ofOpcode (op : Byte) : Option TwoByte :=
  if op = 0xAF#8 then some .imul
  else if op.extractLsb' 4 4 = 4#4 then some (.cmovcc (op.extractLsb' 0 4))
  else if op = 0xB6#8 then some .movzx8
  else if op = 0xB7#8 then some .movzx16
  else if op = 0xBE#8 then some .movsx8
  else if op = 0xBF#8 then some .movsx16
  else none

/-- The result for the old values `d` of the destination and `a` of the source. -/
def eval (op : TwoByte) (f : Flags) (d a : Word) : Word :=
  match op with
  | .imul => d * a
  | .cmovcc cc => if f.cond cc then a else d
  | .movzx8 => (a.setWidth 8).setWidth 64
  | .movzx16 => (a.setWidth 16).setWidth 64
  | .movsx8 => (a.setWidth 8).signExtend 64
  | .movsx16 => (a.setWidth 16).signExtend 64

/-- `imul` says in CF and OF that the product was cut off, and leaves the others undefined. -/
def mulFlags (u : Flags) (a b : Word) : Flags :=
  { u with cf := BitVec.smulOverflow a b, of := BitVec.smulOverflow a b }

def exec (op : TwoByte) (dst src : Reg) (s : State) : State :=
  let v := op.eval s.flags (s.reg dst) (s.reg src)
  if op = .imul then
    ((s.setFlags (mulFlags (s.undef 0) (s.reg dst) (s.reg src))).draw).setReg dst v
  else s.setReg dst v

theorem exec_reg (op : TwoByte) (dst src q : Reg) (s : State) : (op.exec dst src s).reg q =
    if q = dst then op.eval s.flags (s.reg dst) (s.reg src) else s.reg q := by
  unfold exec
  dsimp only
  split_ifs with h <;> simp_all

/-! ## Encoding and decoding -/

def encode (op : TwoByte) (dst src : Reg) : List Byte :=
  [rexW dst.hi src.hi, 0x0F#8, op.opcode, modrm 3#2 dst.lo src.lo]

/-- The operation, the destination and the source. -/
def decode : List Byte → Option (TwoByte × Reg × Reg)
  | p :: e :: op :: m :: _ =>
    let rex := Rex.ofByte p
    if isRex p ∧ rex.w = true ∧ e = 0x0F#8 ∧ m.extractLsb' 6 2 = 3#2 then
      (ofOpcode op).map fun o => (o, rex.r ++ m.extractLsb' 3 3, rex.b ++ m.extractLsb' 0 3)
    else none
  | _ => none

theorem ofOpcode_opcode (op : TwoByte) : ofOpcode op.opcode = some op := by
  cases op with
  | cmovcc cc =>
    revert cc
    decide
  | _ => rfl

theorem decode_encode (op : TwoByte) (dst src : Reg) (rest : List Byte) :
    decode (op.encode dst src ++ rest) = some (op, dst, src) := by
  simp [decode, encode, ofOpcode_opcode, Reg.hi_append_lo]

/-- The page is free in `decodeInsn`, apart from `jcc` and `bswap`. -/
theorem decodeInsn_encode (op : TwoByte) (dst src : Reg) (rest : List Byte) :
    decodeInsn (op.encode dst src ++ rest) = none := by
  have hfree : op.opcode.extractLsb' 4 4 ≠ 8#4 ∧ op.opcode.extractLsb' 3 5 ≠ 0b11001#5 := by
    cases op with
    | cmovcc cc =>
      revert cc
      decide
    | _ => decide
  have h : decodeOp ⟨true, dst.hi, 0#1, src.hi⟩ 0x0F#8
      (op.opcode :: modrm 3#2 dst.lo src.lo :: rest) = none := by
    simp [decodeOp, hfree.1]
  simp [encode, decodeInsn_rexW h, decodeAdded, hfree.2]

/-! ## The machine -/

def step (code : List Byte) (c : Config) : Option Config :=
  match decodeInsn (code.drop c.ip) with
  | some _ => stepInsn code c
  | none => (decode (code.drop c.ip)).map fun p => ⟨c.ip + 4, p.1.exec p.2.1 p.2.2 c.st⟩

def machine : Completion where
  step := step
  step_of_insn := by
    intro code c d h
    unfold step
    cases hd : decodeInsn (code.drop c.ip) with
    | some p => exact h
    | none =>
      unfold stepInsn at h
      rw [hd] at h
      cases h
  halts := by
    intro code c h
    unfold step
    rw [List.drop_of_length_le h]
    rfl

/-- The code of one of these instructions has one run to its end. -/
theorem steps_iff (op : TwoByte) (dst src : Reg) (s s' : State) :
    machine.Steps (op.encode dst src) ⟨0, s⟩ ⟨(op.encode dst src).length, s'⟩ ↔
      s' = op.exec dst src s := by
  have hnone := decodeInsn_encode op dst src []
  have hdec := decode_encode op dst src []
  rw [List.append_nil] at hnone hdec
  have hstep : machine.step (op.encode dst src) ⟨0, s⟩ =
      some ⟨(op.encode dst src).length, op.exec dst src s⟩ := by
    show step _ _ = _
    unfold step
    rw [List.drop_zero, hnone, hdec]
    rfl
  exact machine.steps_iff_of_step hstep s'

/-- `movzx rax, cx` -/
example : decode [0x48#8, 0x0F#8, 0xB7#8, 0xC1#8] = some (.movzx16, rax, rcx) := by decide

end TwoByte

end X86
