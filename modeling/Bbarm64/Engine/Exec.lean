import Bbarm64.Backend.Lower
import Bbarm64.Cache.TranslationCache
import Bbarm64.Core.CPUContext
import Bbarm64.Core.MemoryManager
import Bbarm64.Ir.Optimizer

/-!
# Engine.Exec — `ExecEngine`: the interpreter and `translate_block`

`execute_decoded` acts on the context and the memory.  `translate_block` reads guest words from the
memory the host code is written to, so it returns the memory along with the cache; the emitter comes
back too, as the record of what was written.
-/

namespace Bbarm64

open X86 ARM64Decoder

namespace ExecEngine

def check_condition (nzcv : Word) (cond : Byte) : Bool :=
  let n := nzcv.getLsbD 31
  let z := nzcv.getLsbD 30
  let c := nzcv.getLsbD 29
  let v := nzcv.getLsbD 28
  if cond = 0#8 then z
  else if cond = 1#8 then !z
  else if cond = 2#8 then c
  else if cond = 3#8 then !c
  else if cond = 4#8 then n
  else if cond = 5#8 then !n
  else if cond = 6#8 then v
  else if cond = 7#8 then !v
  else if cond = 8#8 then c && !z
  else if cond = 9#8 then !c || z
  else if cond = 10#8 then n == v
  else if cond = 11#8 then n != v
  else if cond = 12#8 then !z && n == v
  else if cond = 13#8 then z || n != v
  else if cond = 14#8 then true
  else false

/-! ## The interpreter -/

/-- The guest state of the interpreter. -/
abbrev Guest := CPUContext × MemoryManager

/-- `break` out of the switch: `ctx_.pc += 4`. -/
def next (g : Guest) : Guest := (g.1.set_pc (g.1.pc + 4#64), g.2)

/-- `ctx_.state_flags |= STATE_CRASHED` -/
def crash (ctx : CPUContext) : CPUContext :=
  ctx.set_state_flags (ctx.state_flags ||| CPUContext.STATE_CRASHED)

/-- `(reg == 31) ? ctx_.sp : ctx_.x[reg]` -/
def x_or_sp (ctx : CPUContext) (reg : Byte) : Word := if reg = 31#8 then ctx.sp else ctx.x reg.toNat

/-- `ctx_.x[rd] = v; break;` -/
def set_reg (g : Guest) (rd : Byte) (v : Word) : Guest := next (g.1.set_x rd.toNat v, g.2)

/-- A load into `rt`, which crashes when the read is refused. -/
def load {n : ℕ} (g : Guest) (rt : Byte) (val : Option (BitVec n)) : Guest :=
  match val with
  | some v => set_reg g rt (v.setWidth 64)
  | none => next (crash g.1, g.2)

/-- A store; its result is not looked at. -/
def store (g : Guest) (r : Bool × MemoryManager) : Guest := next (g.1, r.2)

/-- `ctx_.pc += branch_offset; return;` if `taken`, else `break`. -/
def branch_if (g : Guest) (taken : Bool) (branch_offset : BitVec 32) : Guest :=
  if taken then (g.1.set_pc (g.1.pc + branch_offset.setWidth 64), g.2) else next g

def ldr_addr (ctx : CPUContext) (decoded : DecodedInstr) : Word :=
  if decoded.is_pc_relative then ctx.pc + (decoded.imm_s <<< 2)
  else
    let base := x_or_sp ctx decoded.rn
    let offset :=
      if decoded.imm_s ≠ 0#64 ∧ decoded.imm = 0#64 then decoded.imm_s
      else if decoded.rm < 31#8 ∧ decoded.imm = 0#64 ∧ decoded.imm_s = 0#64 ∧ decoded.shift_type < 4#8
      then ctx.x decoded.rm.toNat <<< decoded.shift_type.toNat
      else decoded.imm
    base + offset

def str_addr (ctx : CPUContext) (decoded : DecodedInstr) : Word :=
  let base := x_or_sp ctx decoded.rn
  let offset :=
    if decoded.imm_s ≠ 0#64 ∧ decoded.imm = 0#64 then decoded.imm_s
    else if decoded.rm < 31#8 ∧ decoded.imm = 0#64 ∧ decoded.imm_s = 0#64 then
      ctx.x decoded.rm.toNat <<< decoded.shift_type.toNat
    else decoded.imm
  base + offset

/-- `ctx_.x[rn] & ctx_.x[rm]` and the like. -/
def logical (g : Guest) (decoded : DecodedInstr) (f : Word → Word → Word) : Guest :=
  set_reg g decoded.rd (f (g.1.x decoded.rn.toNat) (g.1.x decoded.rm.toNat))

/-- CBZ and CBNZ compare the register, or its low half, with zero. -/
def cb_zero (ctx : CPUContext) (decoded : DecodedInstr) : Bool :=
  let val := x_or_sp ctx decoded.rn
  if decoded.size ≠ 0#8 then val == 0#64 else val.setWidth 32 == 0#32

def execute_decoded (g : Guest) (decoded : DecodedInstr) : Guest :=
  let ctx := g.1
  let mem := g.2
  let op := decoded.opcode
  let x (r : Byte) : Word := ctx.x r.toNat
  let hw := ((decoded.raw >>> 21) &&& 3#32).toNat * 16
  -- the address of the byte and halfword accesses
  let addr := x_or_sp ctx decoded.rn + decoded.imm
  if op = 0x22#8 then set_reg g decoded.rd decoded.imm
  else if op = 0x23#8 then
    set_reg g decoded.rd ((x decoded.rd &&& ~~~(0xFFFF#64 <<< hw)) ||| (decoded.imm <<< hw))
  else if op = 0x21#8 then set_reg g decoded.rd (~~~(decoded.imm <<< hw))
  else if op = 0x24#8 then set_reg g decoded.rd (ctx.pc + decoded.imm_s)
  else if op = 0x25#8 then
    set_reg g decoded.rd ((ctx.pc &&& ~~~0xFFF#64) + (decoded.imm_s <<< 12))
  else if op = 0x00#8 then set_reg g decoded.rd (x decoded.rn + decoded.imm)
  else if op = 0x01#8 then set_reg g decoded.rd (x decoded.rn - decoded.imm)
  else if op = 0x12#8 then logical g decoded (· ||| ·)
  else if op = 0x10#8 then logical g decoded (· &&& ·)
  else if op = 0x14#8 then logical g decoded (· ^^^ ·)
  else if op = 0x20#8 then set_reg g decoded.rd (x_or_sp ctx decoded.rm)
  else if op = 0x63#8 then load g decoded.rt (mem.read_u64 (ldr_addr ctx decoded))
  else if op = 0x62#8 then load g decoded.rt (mem.read_u32 (ldr_addr ctx decoded))
  else if op = 0x73#8 then store g (mem.write_u64 (str_addr ctx decoded) (x decoded.rt))
  else if op = 0x72#8 then
    store g (mem.write_u32 (str_addr ctx decoded) ((x decoded.rt).setWidth 32))
  else if op = 0x60#8 then load g decoded.rt (mem.read_u8 addr)
  else if op = 0x61#8 then load g decoded.rt (mem.read_u16 addr)
  else if op = 0x70#8 then store g (mem.write_u8 addr ((x decoded.rt).setWidth 8))
  else if op = 0x71#8 then store g (mem.write_u16 addr ((x decoded.rt).setWidth 16))
  else if op = 0x80#8 then
    let addr := x_or_sp ctx decoded.rn + decoded.imm_s
    match mem.read_u64 addr, mem.read_u64 (addr + 8#64) with
    | some val1, some val2 =>
      next ((ctx.set_x decoded.rt.toNat val1).set_x decoded.rm.toNat val2, mem)
    | _, _ => next (crash ctx, mem)
  else if op = 0x81#8 then
    let addr := x_or_sp ctx decoded.rn + decoded.imm_s
    store g ((mem.write_u64 addr (x decoded.rt)).2.write_u64 (addr + 8#64) (x decoded.rm))
  else if op = 0x50#8 then branch_if g true decoded.branch_offset
  else if op = 0x51#8 then
    branch_if (ctx.set_x 30 (ctx.pc + 4#64), mem) true decoded.branch_offset
  else if op = 0x52#8 then (ctx.set_pc (x_or_sp ctx decoded.rn), mem)
  else if op = 0x53#8 then
    (ctx.set_pc (if decoded.rn = 31#8 then ctx.x 30 else x decoded.rn), mem)
  else if op = 0x54#8 then
    branch_if g (check_condition ctx.nzcv decoded.cond) decoded.branch_offset
  else if op = 0x55#8 then branch_if g (cb_zero ctx decoded) decoded.branch_offset
  else if op = 0x56#8 then branch_if g (!cb_zero ctx decoded) decoded.branch_offset
  else if op = 0x57#8 ∨ op = 0x58#8 then
    let bit_set := (x decoded.rn).getLsbD (decoded.imm.setWidth 32).toNat
    branch_if g (bit_set == decide (op = 0x58#8)) decoded.branch_offset
  else if op = 0x30#8 then
    let a := x decoded.rn
    let b := x decoded.rm
    let result := a - b
    let v := result.msb != a.slt b
    next (ctx.set_nzcv result.msb (result == 0#64) (b ≤ a) v, mem)
  else if op = 0x31#8 then
    let result := x decoded.rn &&& x decoded.rm
    next (ctx.set_nzcv result.msb (result == 0#64) false false, mem)
  else if op = 0x40#8 then
    set_reg g decoded.rd
      (if check_condition ctx.nzcv decoded.cond then x decoded.rn else x decoded.rm)
  else if op = 0x90#8 then next g
  else next (crash ctx, mem)

/-! ## The translator -/

/-- `SVC #imm`, which ends a block before it. -/
def is_svc (raw : BitVec 32) : Prop := raw &&& 0xFFE0001F#32 = 0xD4000001#32

instance (raw : BitVec 32) : Decidable (is_svc raw) := inferInstanceAs (Decidable (_ = _))

/-- The decode loop of `translate_block`, with `n` rounds left. -/
def collect (mem : MemoryManager) : ℕ → Word → List DecodedInstr
  | 0, _ => []
  | n + 1, pc =>
    match mem.read_u32 pc with
    | none => []
    | some raw =>
      if is_svc raw then []
      else
        match decode? raw with
        | none => []
        | some instr =>
          if instr.category = .BRANCH ∨ instr.category = .BRANCH_COND then [instr]
          else instr :: collect mem n (pc + 4#64)

def max_instr : ℕ := 64

/-- The size of a code slot. -/
def slot_size : ℕ := 4096

/-- The outcome of a `translate_block` call. -/
structure Translation where
  block : Option BlockInfo
  cache : TranslationCache
  mem : MemoryManager
  /-- The emitter after the lowering, if it was reached. -/
  emitter : Option X86_64Emitter

/-- The lowering of `translate_block`, into the slot at `host_code`. -/
def emit_block (ir_block : IRBlock) (fallthrough_pc host_code : Word) (host : Mem) : X86_64Emitter :=
  IRLowering.lower_block ir_block fallthrough_pc (.set_buffer host_code slot_size host)

def translate_block (cache : TranslationCache) (mem : MemoryManager) (arm_pc : Word) : Translation :=
  let instructions := collect mem max_instr arm_pc
  if instructions.isEmpty then ⟨none, cache, mem, none⟩
  else
    match IRBuilder.build instructions arm_pc with
    | none => ⟨none, cache, mem, none⟩
    | some ir_block =>
      let ir_block := IROptimizer.optimize ir_block
      let (host_code, cache) := cache.alloc_host_code slot_size
      if host_code = 0#64 then ⟨none, cache, mem, none⟩
      else
        let emitter := emit_block ir_block (arm_pc + BitVec.ofNat 64 (instructions.length * 4))
          host_code mem.host
        let size := BitVec.ofNat 32 emitter.code_size
        let block : BlockInfo :=
          { arm_pc, host_code, host_code_size := size, arm_instr_count := ir_block.arm_instr_count }
        ⟨some block, cache.insert arm_pc host_code size ir_block.arm_instr_count,
          { mem with host := emitter.host }.mark_translated_page arm_pc, some emitter⟩

end ExecEngine

end Bbarm64
