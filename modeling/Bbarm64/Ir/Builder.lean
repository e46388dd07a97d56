import Bbarm64.Decoder.Decode

/-!
# Ir.Builder — the intermediate representation and `IRBuilder::build`

An IR register is the number of a guest register, `IR_NONE` or `IR_IMM`; note that `IR_NONE` is the
number of `x0`.  `build_instr` appends the IR of one decoded instruction to the block, and `build`
runs it over the instructions up to the first branch.
-/

namespace Bbarm64

open X86

inductive IROpcode where
  | ADD | SUB | MUL | UDIV | SDIV | NEG
  | AND | OR | XOR | NOT | SHL | SHR | SAR | ROR
  | ZEXT8 | ZEXT16 | ZEXT32
  | SEXT8 | SEXT16 | SEXT32
  | CMP | TST
  | CMOV_EQ | CMOV_NE | CMOV_LT | CMOV_LE
  | CMOV_GT | CMOV_GE | CMOV_LO | CMOV_LS
  | CMOV_HS | CMOV_HI | CMOV_MI | CMOV_PL
  | CMOV_VS | CMOV_VC | CMOV_CS | CMOV_CC
  | LOAD8 | LOAD16 | LOAD32 | LOAD64
  | STORE8 | STORE16 | STORE32 | STORE64
  | LOAD_PAIR | STORE_PAIR
  | JMP | JMP_COND | CALL | RET | SYSCALL
  | GET_REG | SET_REG | MOV_IMM
  | NOP | BSWAP16 | BSWAP32 | BSWAP64
  | CLZ | CTZ
  | FADD | FSUB | FMUL | FDIV | FCMP
  | VEC_ADD8 | VEC_ADD16 | VEC_ADD32 | VEC_ADD64
  | VEC_SUB8 | VEC_SUB16 | VEC_SUB32 | VEC_SUB64
  | VEC_AND | VEC_OR | VEC_XOR
  | VEC_DUP
  | BARRIER
  deriving DecidableEq, Repr

abbrev IRReg := BitVec 16

def IR_NONE : IRReg := 0#16
def IR_IMM : IRReg := 0xFFFF#16

structure IRInst where
  op : IROpcode := .NOP
  dest : IRReg := IR_NONE
  src1 : IRReg := IR_NONE
  src2 : IRReg := IR_NONE
  imm : BitVec 64 := 0#64
  imm2 : BitVec 64 := 0#64
  size : Byte := 8#8
  cond : Byte := 0#8
  flags_set : Bool := false
  flags_used : Bool := false
  deriving DecidableEq, Repr

structure IRBlock where
  instructions : List IRInst := []
  arm_pc_start : Word := 0#64
  arm_pc_end : Word := 0#64
  arm_instr_count : BitVec 32 := 0#32
  is_conditional : Bool := false
  branch_target_taken : Word := 0#64
  branch_target_fallthrough : Word := 0#64
  deriving DecidableEq, Repr

namespace IRBlock

def push_back (block : IRBlock) (ir : IRInst) : IRBlock :=
  { block with instructions := block.instructions ++ [ir] }

@[simp] theorem push_back_instructions (block : IRBlock) (ir : IRInst) :
    (block.push_back ir).instructions = block.instructions ++ [ir] := rfl

end IRBlock

namespace IRBuilder

/-- A register field of the decoded instruction as an IR register. -/
def reg (r : Byte) : IRReg := r.setWidth 16

/-- ADD and SUB: an immediate second operand is marked by `rm = 0xFF`. -/
def arith (ir : IRInst) (instr : DecodedInstr) : IRInst :=
  if instr.rm = 0xFF#8 then
    { ir with dest := reg instr.rd, src1 := reg instr.rn, src2 := IR_IMM, imm := instr.imm,
              flags_set := instr.sets_flags }
  else
    { ir with dest := reg instr.rd, src1 := reg instr.rn, src2 := reg instr.rm,
              flags_set := instr.sets_flags }

def shift_imm (ir : IRInst) (instr : DecodedInstr) : IRInst :=
  { ir with dest := reg instr.rd, src1 := reg instr.rn, src2 := IR_IMM, imm := instr.imm }

def mov_imm (ir : IRInst) (instr : DecodedInstr) (imm : BitVec 64) : IRInst :=
  { ir with op := .MOV_IMM, dest := reg instr.rd, imm := imm }

def compare (ir : IRInst) (instr : DecodedInstr) : IRInst :=
  { ir with src1 := reg instr.rn, src2 := reg instr.rm, flags_set := true }

def load (ir : IRInst) (instr : DecodedInstr) : IRInst :=
  { ir with dest := reg instr.rt, src1 := reg instr.rn, imm := instr.imm }

def store (ir : IRInst) (instr : DecodedInstr) : IRInst :=
  { ir with src1 := reg instr.rn, src2 := reg instr.rt, imm := instr.imm }

def vec (ir : IRInst) (instr : DecodedInstr) : IRInst :=
  { ir with dest := reg instr.rd, src1 := reg instr.rn, src2 := reg instr.rm }

/-- The jump of CBZ (`cond = 0`) and CBNZ (`cond = 1`) behind its compare with zero. -/
def cb_jump (instr : DecodedInstr) (pc : Word) (cond : Byte) : IRInst :=
  { op := .JMP_COND, flags_used := true, imm := pc + instr.branch_offset.setWidth 64, cond := cond }

def cb_compare (ir : IRInst) (instr : DecodedInstr) : IRInst :=
  { ir with op := .CMP, src1 := reg instr.rn, src2 := IR_NONE, imm := 0#64, flags_set := true }

/-- `build_instr` returns true for every opcode: an opcode without a case becomes a NOP. -/
def build_instr (instr : DecodedInstr) (pc : Word) (block : IRBlock) : Option IRBlock :=
  let ir : IRInst := { size := if instr.size ≠ 0#8 then 8#8 else 4#8 }
  let op := instr.opcode
  if op = 0x00#8 then some (block.push_back { arith ir instr with op := .ADD })
  else if op = 0x01#8 then some (block.push_back { arith ir instr with op := .SUB })
  else if op = 0x04#8 then some (block.push_back { shift_imm ir instr with op := .SAR })
  else if op = 0x05#8 then some (block.push_back { shift_imm ir instr with op := .SHR })
  else if op = 0x06#8 then some (block.push_back { shift_imm ir instr with op := .SHL })
  else if op = 0x20#8 then
    some (block.push_back { ir with op := .SET_REG, dest := reg instr.rd, src1 := reg instr.rm })
  else if op = 0x21#8 ∨ op = 0x22#8 ∨ op = 0x23#8 then
    some (block.push_back (mov_imm ir instr instr.imm))
  else if op = 0x24#8 then some (block.push_back (mov_imm ir instr (pc + instr.imm_s)))
  else if op = 0x25#8 then
    some (block.push_back (mov_imm ir instr ((pc &&& ~~~0xFFF#64) + (instr.imm_s <<< 12))))
  else if op = 0x30#8 then some (block.push_back { compare ir instr with op := .CMP })
  else if op = 0x31#8 then some (block.push_back { compare ir instr with op := .TST })
  else if op = 0x50#8 then
    let offset := instr.branch_offset.signExtend 64
    some (block.push_back { ir with op := .JMP, imm := pc + offset })
  else if op = 0x51#8 then
    let save_lr : IRInst := { op := .SET_REG, dest := 30#16, src1 := IR_NONE, imm := pc + 4#64 }
    let offset := instr.branch_offset.signExtend 64
    some ((block.push_back save_lr).push_back { ir with op := .CALL, imm := pc + offset })
  else if op = 0x53#8 then some (block.push_back { ir with op := .RET, src1 := 30#16 })
  else if op = 0x54#8 then
    -- `pc + instr.branch_offset`: the uint32_t offset is zero-extended here and in CBZ, CBNZ
    let target := pc + instr.branch_offset.setWidth 64
    some (IRBlock.push_back
      { block with is_conditional := true, branch_target_taken := target,
                   branch_target_fallthrough := pc + 4#64 }
      { ir with op := .JMP_COND, flags_used := true, imm := target, cond := instr.cond })
  else if op = 0x55#8 then
    some (({ block with is_conditional := true }.push_back (cb_compare ir instr)).push_back
      (cb_jump instr pc 0#8))
  else if op = 0x56#8 then
    some (({ block with is_conditional := true }.push_back (cb_compare ir instr)).push_back
      (cb_jump instr pc 1#8))
  else if op = 0x63#8 then some (block.push_back { load ir instr with op := .LOAD64 })
  else if op = 0x62#8 then some (block.push_back { load ir instr with op := .LOAD32 })
  else if op = 0x73#8 then some (block.push_back { store ir instr with op := .STORE64 })
  else if op = 0x72#8 then some (block.push_back { store ir instr with op := .STORE32 })
  else if op = 0x80#8 then
    some (block.push_back { ir with op := .LOAD_PAIR, dest := reg instr.rt, src1 := reg instr.rn,
                                    src2 := reg instr.rm, imm := instr.imm_s })
  else if op = 0x81#8 then
    some (block.push_back { ir with op := .STORE_PAIR, src1 := reg instr.rn, src2 := reg instr.rt,
                                    imm := instr.imm_s })
  else if op = 0x90#8 then some (block.push_back { ir with op := .NOP })
  else if op = 0x91#8 ∨ op = 0x92#8 ∨ op = 0x93#8 then
    some (block.push_back { ir with op := .BARRIER })
  else if op = 0xFF#8 then some (block.push_back { ir with op := .SYSCALL, imm := instr.imm })
  else if op = 0xA0#8 then
    some (block.push_back { ir with op := .VEC_DUP, dest := reg instr.rd, src1 := reg instr.rm,
                                    imm := instr.size.setWidth 64 })
  else if op = 0xA1#8 then some (block.push_back { vec ir instr with op := .VEC_ADD8 })
  else if op = 0xA2#8 then some (block.push_back { vec ir instr with op := .VEC_SUB8 })
  else if op = 0xA3#8 then some (block.push_back { vec ir instr with op := .VEC_AND })
  else if op = 0xA4#8 then some (block.push_back { vec ir instr with op := .VEC_OR })
  else if op = 0xA5#8 then some (block.push_back { vec ir instr with op := .VEC_XOR })
  else if op = 0xA6#8 then some (block.push_back { vec ir instr with op := .VEC_AND })
  else some (block.push_back { ir with op := .NOP })

/-- The categories behind which `build` stops. -/
def ends_block (c : InstrCategory) : Bool := c == .BRANCH || c == .BRANCH_COND || c == .SYSCALL

/-- The loop of `build` from index `i` on: the block and the number of instructions used. -/
def build_from (start_pc : Word) (count i : ℕ) :
    List DecodedInstr → IRBlock → Option IRBlock
  | [], out => some { out with arm_instr_count := BitVec.ofNat 32 count }
  | instr :: rest, out => do
    let out ← build_instr instr (start_pc + (BitVec.ofNat 32 i * 4#32).setWidth 64) out
    if ends_block instr.category then
      return { out with arm_instr_count := BitVec.ofNat 32 (i + 1) }
    else build_from start_pc count (i + 1) rest out

/-- `IRBuilder::build` on a fresh block. -/
def build (instructions : List DecodedInstr) (start_pc : Word) : Option IRBlock := do
  let out ← build_from start_pc instructions.length 0 instructions { arm_pc_start := start_pc }
  return { out with arm_pc_end := start_pc + (out.arm_instr_count * 4#32).setWidth 64 }

end IRBuilder

end Bbarm64
