import Bbarm64.Backend.Emitter
import Bbarm64.Ir.Builder
import Mathlib.Data.Int.Notation

/-!
# Backend.Lower — `IRLowering`

`lower_instr` emits the host code of one IR instruction and `lower_block` that of a block: the
prologue that keeps the context pointer in R12, the instructions, and the return to the run loop.
Both return true in every case, so the emitter is all they return here.
-/

namespace Bbarm64

open X86

namespace X86_64RegAlloc

/-- `arm_to_x86_static`; `0xFF` is `X86Reg::NONE`. -/
def arm_to_x86_static (arm_reg : Byte) : Byte :=
  if arm_reg < 16#8 then
    [0#8, 1#8, 2#8, 3#8, 6#8, 7#8, 8#8, 9#8, 10#8, 11#8, 13#8, 14#8, 15#8, 6#8, 7#8, 8#8].getD
      arm_reg.toNat 0xFF#8
  else if arm_reg = 29#8 then 9#8
  else if arm_reg = 30#8 then 11#8
  else if arm_reg = 31#8 then 0#8
  else 0xFF#8

end X86_64RegAlloc

namespace IRLowering

open X86_64Emitter

def CTX_PC_OFFSET : BitVec 32 := 256#32

/-- An IR register passed as `uint8_t`. -/
def u8 (r : IRReg) : Byte := r.setWidth 8

def arm_reg_to_x86 (arm_reg : Byte) : Byte := X86_64RegAlloc.arm_to_x86_static arm_reg

/-- The context offset of a guest register. -/
def reg_offset (arm_reg : Byte) : BitVec 32 :=
  if arm_reg = 31#8 then 248#32 else arm_reg.setWidth 32 * 8#32

def load_arm_reg (e : X86_64Emitter) (arm_reg xreg : Byte) : X86_64Emitter :=
  e.emit_mov_reg_mem xreg R12 (reg_offset arm_reg)

def store_arm_reg (e : X86_64Emitter) (xreg arm_reg : Byte) : X86_64Emitter :=
  e.emit_mov_mem_reg R12 (reg_offset arm_reg) xreg

def save_nzcv (e : X86_64Emitter) : X86_64Emitter :=
  e -- Save scratch registers to context memory
    |>.emit_mov_mem_reg R12 512#32 RAX
    |>.emit_mov_mem_reg R12 520#32 RCX
    |>.emit_mov_mem_reg R12 528#32 RDX
    -- Push EFLAGS, pop into RAX
    |>.emit_byte 0x9C#8
    |>.emit_byte 0x58#8
    -- N = SF (bit 7)
    |>.emit_mov_reg_reg RCX RAX
    |>.emit_shr_reg_imm RCX 7#8
    |>.emit_and_reg_imm RCX 1#64
    -- Z = ZF (bit 6) << 1
    |>.emit_mov_reg_reg RDX RAX
    |>.emit_shr_reg_imm RDX 6#8
    |>.emit_and_reg_imm RDX 1#64
    |>.emit_shl_reg_imm RDX 1#8
    |>.emit_or_reg_reg RCX RDX
    -- C = CF (bit 0) << 2
    |>.emit_mov_reg_reg RDX RAX
    |>.emit_and_reg_imm RDX 1#64
    |>.emit_shl_reg_imm RDX 2#8
    |>.emit_or_reg_reg RCX RDX
    -- V = OF (bit 11) << 3
    |>.emit_mov_reg_reg RDX RAX
    |>.emit_shr_reg_imm RDX 11#8
    |>.emit_and_reg_imm RDX 1#64
    |>.emit_shl_reg_imm RDX 3#8
    |>.emit_or_reg_reg RCX RDX
    -- Shift to bits 28-31
    |>.emit_shl_reg_imm RCX 28#8
    -- Store to ctx.nzcv (offset 272)
    |>.emit_mov_mem_reg R12 272#32 RCX
    -- Restore scratch registers
    |>.emit_mov_reg_mem RDX R12 528#32
    |>.emit_mov_reg_mem RCX R12 520#32
    |>.emit_mov_reg_mem RAX R12 512#32

def save_nzcv_if (flags_set : Bool) (e : X86_64Emitter) : X86_64Emitter :=
  if flags_set then save_nzcv e else e

def emit_block_ret (e : X86_64Emitter) (target_pc : Word) : X86_64Emitter :=
  e |>.emit_mov_reg_imm RAX target_pc |>.emit_mov_mem_reg R12 CTX_PC_OFFSET RAX |>.emit_ret

/-- The x86 condition code of an A64 condition. -/
def x86_cc (cond : Byte) : Byte :=
  if cond = 0#8 then CC_Z else if cond = 1#8 then CC_NZ
  else if cond = 2#8 then CC_NB else if cond = 3#8 then CC_B
  else if cond = 4#8 then CC_S else if cond = 5#8 then CC_NS
  else if cond = 6#8 then CC_O else if cond = 7#8 then CC_NO
  else if cond = 8#8 then CC_NBE else if cond = 9#8 then CC_BE
  else if cond = 10#8 then CC_NL else if cond = 11#8 then CC_L
  else if cond = 12#8 then CC_NLE else if cond = 13#8 then CC_LE
  else if cond = 14#8 then CC_NZ else CC_Z

/-- Two-operand forms: the second operand is an immediate or is loaded into RCX. -/
def lower_op (e : X86_64Emitter) (instr : IRInst) (imm_form : X86_64Emitter → X86_64Emitter)
    (reg_form : X86_64Emitter → X86_64Emitter) : X86_64Emitter :=
  let e := load_arm_reg e (u8 instr.src1) RAX
  if instr.src2 = IR_IMM then imm_form e else reg_form (load_arm_reg e (u8 instr.src2) RCX)

def lower_jmp_cond (fallthrough_pc_ : Word) (e : X86_64Emitter) (instr : IRInst) : X86_64Emitter :=
  -- J(!cc) fallthrough; taken: set pc, ret; fallthrough: set pc, ret
  let inv_cc := x86_cc instr.cond ^^^ 1#8
  let e := e |>.emit_byte 0x0F#8 |>.emit_byte (0x80#8 ||| inv_cc)
  let jcc_offset_pos := e.offset
  let e := emit_block_ret (e.emit_dword 0#32) instr.imm
  let fallthrough_pos := e.offset
  let jcc_offset := BitVec.ofInt 32 ((fallthrough_pos : ℤ) - ((jcc_offset_pos : ℤ) + 4))
  emit_block_ret (e.patch_dword_at jcc_offset_pos jcc_offset) fallthrough_pc_

def lower_vec_dup (e : X86_64Emitter) (instr : IRInst) : X86_64Emitter :=
  let gpr := arm_reg_to_x86 (u8 instr.src1)
  let e := load_arm_reg e (u8 instr.src1) gpr
  if instr.imm = 0#64 then
    let vd_reg := u8 instr.dest
    e |>.emit_byte 0xC4#8 |>.emit_byte 0xE2#8 |>.emit_byte 0x79#8 |>.emit_byte 0x78#8
      |>.emit_byte (0xC0#8 ||| ((vd_reg &&& 7#8) <<< 3) ||| (gpr &&& 7#8))
  else
    let vd_reg := u8 instr.dest &&& 7#8
    e |>.emit_byte 0x66#8 |>.emit_byte 0x0F#8 |>.emit_byte 0xEF#8
      |>.emit_byte (0xC0#8 ||| (vd_reg <<< 3) ||| vd_reg)

def lower_instr (fallthrough_pc_ : Word) (e : X86_64Emitter) (instr : IRInst) : X86_64Emitter :=
  let store (e : X86_64Emitter) := store_arm_reg e RAX (u8 instr.dest)
  match instr.op with
  | .ADD =>
    store (save_nzcv_if instr.flags_set
      (lower_op e instr (·.emit_add_reg_imm RAX instr.imm) (·.emit_add_reg_reg RAX RCX)))
  | .SUB =>
    store (save_nzcv_if instr.flags_set
      (lower_op e instr (·.emit_sub_reg_imm RAX instr.imm) (·.emit_sub_reg_reg RAX RCX)))
  | .MUL =>
    let e := load_arm_reg (load_arm_reg e (u8 instr.src1) RAX) (u8 instr.src2) RCX
    store (e.emit_imul_reg_reg RAX RCX)
  | .SAR =>
    store (lower_op e instr (·.emit_sar_reg_imm RAX (instr.imm.setWidth 8)) (·.emit_sar_reg_cl RAX))
  | .SHR =>
    store (lower_op e instr (·.emit_shr_reg_imm RAX (instr.imm.setWidth 8)) (·.emit_shr_reg_cl RAX))
  | .SHL =>
    store (lower_op e instr (·.emit_shl_reg_imm RAX (instr.imm.setWidth 8)) (·.emit_shl_reg_cl RAX))
  | .AND =>
    store (save_nzcv_if instr.flags_set
      (lower_op e instr (·.emit_and_reg_imm RAX instr.imm) (·.emit_and_reg_reg RAX RCX)))
  | .OR => store (lower_op e instr (·.emit_or_reg_imm RAX instr.imm) (·.emit_or_reg_reg RAX RCX))
  | .XOR => store (lower_op e instr (·.emit_xor_reg_imm RAX instr.imm) (·.emit_xor_reg_reg RAX RCX))
  | .CMP =>
    let e := load_arm_reg e (u8 instr.src1) RAX
    save_nzcv_if instr.flags_set
      (if instr.src2 = IR_IMM ∨ instr.src2 = IR_NONE then e.emit_cmp_reg_imm RAX instr.imm
       else (load_arm_reg e (u8 instr.src2) RCX).emit_cmp_reg_reg RAX RCX)
  | .TST =>
    let e := load_arm_reg (load_arm_reg e (u8 instr.src1) RAX) (u8 instr.src2) RCX
    save_nzcv_if instr.flags_set (e.emit_test_reg_reg RAX RCX)
  | .MOV_IMM =>
    let dst := arm_reg_to_x86 (u8 instr.dest)
    store_arm_reg (e.emit_mov_reg_imm dst instr.imm) dst (u8 instr.dest)
  | .SET_REG =>
    if instr.src1 = IR_NONE then store (e.emit_mov_reg_imm RAX instr.imm)
    else
      let src := arm_reg_to_x86 (u8 instr.src1)
      store_arm_reg (load_arm_reg e (u8 instr.src1) src) src (u8 instr.dest)
  | .LOAD64 | .LOAD32 =>
    let e := load_arm_reg e (u8 instr.src1) RAX
    store (e.emit_mov_reg_mem RAX RAX (instr.imm.setWidth 32))
  | .STORE64 | .STORE32 =>
    let e := load_arm_reg (load_arm_reg e (u8 instr.src1) RAX) (u8 instr.src2) RCX
    e.emit_mov_mem_reg RAX (instr.imm.setWidth 32) RCX
  | .JMP | .CALL => emit_block_ret e instr.imm
  | .JMP_COND => lower_jmp_cond fallthrough_pc_ e instr
  | .RET =>
    e |>.emit_mov_reg_mem RAX R12 264#32 |>.emit_mov_mem_reg R12 CTX_PC_OFFSET RAX |>.emit_ret
  | .NOP | .BARRIER => e.emit_nop
  | .SYSCALL => e.emit_int3
  | .LOAD_PAIR =>
    let disp := instr.imm.setWidth 32
    let e := load_arm_reg e (u8 instr.src1) RAX
    let e := e |>.emit_mov_reg_mem RCX RAX disp |>.emit_mov_reg_mem RDX RAX (disp + 8#32)
    store_arm_reg (store_arm_reg e RCX (u8 instr.dest)) RDX (u8 instr.src2)
  | .STORE_PAIR =>
    let disp := instr.imm.setWidth 32
    let e := load_arm_reg (load_arm_reg e (u8 instr.src1) RAX) (u8 instr.src2) RCX
    let e := load_arm_reg e ((instr.imm >>> 32).setWidth 8) RDX
    e |>.emit_mov_mem_reg RAX disp RCX |>.emit_mov_mem_reg RAX (disp + 8#32) RDX
  | .VEC_DUP => lower_vec_dup e instr
  | _ => e.emit_nop

def lower_block (block : IRBlock) (fallthrough_pc : Word) (e : X86_64Emitter) : X86_64Emitter :=
  let e := e.emit_mov_reg_reg R12 RDI
  emit_block_ret (block.instructions.foldl (lower_instr fallthrough_pc) e) fallthrough_pc

end IRLowering

end Bbarm64
