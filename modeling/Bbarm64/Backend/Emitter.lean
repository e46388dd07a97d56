import Bbarm64.X86.Memory

/-!
# Backend.Emitter — `X86_64Emitter`

The emitter writes bytes through `buf_` into host memory, up to `size_` of them; `emit_byte` drops
what does not fit.  The `emit_*` functions lay out one instruction each.
-/

namespace Bbarm64

open X86

/-- Register numbers and condition codes of the emitter. -/
def RAX : Byte := 0#8
def RCX : Byte := 1#8
def RDX : Byte := 2#8
def RDI : Byte := 7#8
def R12 : Byte := 12#8

def CC_O : Byte := 0#8
def CC_NO : Byte := 1#8
def CC_B : Byte := 2#8
def CC_NB : Byte := 3#8
def CC_Z : Byte := 4#8
def CC_NZ : Byte := 5#8
def CC_BE : Byte := 6#8
def CC_NBE : Byte := 7#8
def CC_S : Byte := 8#8
def CC_NS : Byte := 9#8
def CC_L : Byte := 12#8
def CC_NL : Byte := 13#8
def CC_LE : Byte := 14#8
def CC_NLE : Byte := 15#8

structure X86_64Emitter where
  /-- The output buffer; address `0` is the null pointer. -/
  buf_ : Word
  size_ : ℕ
  offset_ : ℕ
  /-- The host memory the buffer lies in. -/
  host : Mem
  /-- A ghost: the addresses stored to so far, the latest first. -/
  written : List Word

namespace X86_64Emitter

/-- The emitter after `set_buffer(buf, size)`, over host memory `host`. -/
def set_buffer (buf : Word) (size : ℕ) (host : Mem) : X86_64Emitter :=
  ⟨buf, size, 0, host, []⟩

def offset (e : X86_64Emitter) : ℕ := e.offset_

def code_size (e : X86_64Emitter) : ℕ := e.offset_

/-- The bytes `[0, offset_)` of the buffer. -/
def code (e : X86_64Emitter) : List Byte := (List.range e.offset_).map fun i => e.host (off e.buf_ i)

def emit_byte (e : X86_64Emitter) (b : Byte) : X86_64Emitter :=
  if e.buf_ ≠ 0#64 ∧ e.offset_ < e.size_ then
    { e with host := Function.update e.host (off e.buf_ e.offset_) b
             offset_ := e.offset_ + 1
             written := off e.buf_ e.offset_ :: e.written }
  else e

def emit_dword (e : X86_64Emitter) (d : BitVec 32) : X86_64Emitter :=
  e |>.emit_byte (d &&& 0xFF#32 |>.setWidth 8)
    |>.emit_byte ((d >>> 8) &&& 0xFF#32 |>.setWidth 8)
    |>.emit_byte ((d >>> 16) &&& 0xFF#32 |>.setWidth 8)
    |>.emit_byte ((d >>> 24) &&& 0xFF#32 |>.setWidth 8)

def emit_qword (e : X86_64Emitter) (q : BitVec 64) : X86_64Emitter :=
  e |>.emit_dword (q &&& 0xFFFFFFFF#64 |>.setWidth 32)
    |>.emit_dword ((q >>> 32).setWidth 32)

def emit_rex (e : X86_64Emitter) (w : Bool) (r x b : Byte) : X86_64Emitter :=
  e.emit_byte (0x40#8 ||| (if w then 0x08#8 else 0#8) ||| ((r &&& 1#8) <<< 2) |||
    ((x &&& 1#8) <<< 1) ||| (b &&& 1#8))

def emit_mov_reg_imm (e : X86_64Emitter) (reg : Byte) (imm : BitVec 64) : X86_64Emitter :=
  let e := if reg ≥ 8#8 then e.emit_rex true 0 0 1 else e.emit_rex true 0 0 0
  e |>.emit_byte (0xB8#8 + (reg &&& 7#8)) |>.emit_qword imm

/-- `REX.W op /r` with both operands in registers; the `rm` field holds `dst`. -/
def emit_reg_reg (e : X86_64Emitter) (op : Byte) (dst src : Byte) : X86_64Emitter :=
  e |>.emit_rex true ((src >>> 3) &&& 1#8) 0 ((dst >>> 3) &&& 1#8)
    |>.emit_byte op
    |>.emit_byte (0xC0#8 ||| ((src &&& 7#8) <<< 3) ||| (dst &&& 7#8))

def emit_mov_reg_reg (e : X86_64Emitter) (dst src : Byte) : X86_64Emitter := e.emit_reg_reg 0x89#8 dst src
def emit_add_reg_reg (e : X86_64Emitter) (dst src : Byte) : X86_64Emitter := e.emit_reg_reg 0x01#8 dst src
def emit_sub_reg_reg (e : X86_64Emitter) (dst src : Byte) : X86_64Emitter := e.emit_reg_reg 0x29#8 dst src
def emit_and_reg_reg (e : X86_64Emitter) (dst src : Byte) : X86_64Emitter := e.emit_reg_reg 0x21#8 dst src
def emit_or_reg_reg (e : X86_64Emitter) (dst src : Byte) : X86_64Emitter := e.emit_reg_reg 0x09#8 dst src
def emit_xor_reg_reg (e : X86_64Emitter) (dst src : Byte) : X86_64Emitter := e.emit_reg_reg 0x31#8 dst src
def emit_cmp_reg_reg (e : X86_64Emitter) (dst src : Byte) : X86_64Emitter := e.emit_reg_reg 0x39#8 dst src
def emit_test_reg_reg (e : X86_64Emitter) (dst src : Byte) : X86_64Emitter := e.emit_reg_reg 0x85#8 dst src

def emit_imul_reg_reg (e : X86_64Emitter) (dst src : Byte) : X86_64Emitter :=
  e |>.emit_rex true ((src >>> 3) &&& 1#8) 0 ((dst >>> 3) &&& 1#8)
    |>.emit_byte 0x0F#8
    |>.emit_byte 0xAF#8
    |>.emit_byte (0xC0#8 ||| ((src &&& 7#8) <<< 3) ||| (dst &&& 7#8))

/-- The forms behind `0F` with both operands in registers; as in `emit_reg_reg` the `rm` field holds
`dst`. -/
def emit_two_byte (e : X86_64Emitter) (op : Byte) (dst src : Byte) : X86_64Emitter :=
  e |>.emit_rex true ((src >>> 3) &&& 1#8) 0 ((dst >>> 3) &&& 1#8)
    |>.emit_byte 0x0F#8
    |>.emit_byte op
    |>.emit_byte (0xC0#8 ||| ((src &&& 7#8) <<< 3) ||| (dst &&& 7#8))

def emit_cmovcc_reg_reg (e : X86_64Emitter) (cc dst src : Byte) : X86_64Emitter :=
  e.emit_two_byte (0x40#8 ||| cc) dst src
def emit_movzx_reg8_reg (e : X86_64Emitter) (dst src : Byte) : X86_64Emitter := e.emit_two_byte 0xB6#8 dst src
def emit_movzx_reg16_reg (e : X86_64Emitter) (dst src : Byte) : X86_64Emitter := e.emit_two_byte 0xB7#8 dst src
def emit_movsx_reg8_reg (e : X86_64Emitter) (dst src : Byte) : X86_64Emitter := e.emit_two_byte 0xBE#8 dst src
def emit_movsx_reg16_reg (e : X86_64Emitter) (dst src : Byte) : X86_64Emitter := e.emit_two_byte 0xBF#8 dst src

/-- The `C1` shifts: `ext` is `0xE0`, `0xE8`, `0xF8` or `0xC8`.  The REX bit is the low bit of
`reg`. -/
def emit_shift_imm (e : X86_64Emitter) (ext : Byte) (reg imm : Byte) : X86_64Emitter :=
  e |>.emit_rex true 0 0 (reg &&& 1#8)
    |>.emit_byte 0xC1#8
    |>.emit_byte (ext ||| (reg &&& 7#8))
    |>.emit_byte imm

def emit_shl_reg_imm (e : X86_64Emitter) (reg imm : Byte) : X86_64Emitter := e.emit_shift_imm 0xE0#8 reg imm
def emit_shr_reg_imm (e : X86_64Emitter) (reg imm : Byte) : X86_64Emitter := e.emit_shift_imm 0xE8#8 reg imm
def emit_sar_reg_imm (e : X86_64Emitter) (reg imm : Byte) : X86_64Emitter := e.emit_shift_imm 0xF8#8 reg imm
def emit_ror_reg_imm (e : X86_64Emitter) (reg imm : Byte) : X86_64Emitter := e.emit_shift_imm 0xC8#8 reg imm

/-- The `D3` shifts by CL. -/
def emit_shift_cl (e : X86_64Emitter) (ext : Byte) (reg : Byte) : X86_64Emitter :=
  e |>.emit_rex true 0 0 (reg &&& 1#8) |>.emit_byte 0xD3#8 |>.emit_byte (ext ||| (reg &&& 7#8))

def emit_shl_reg_cl (e : X86_64Emitter) (reg : Byte) : X86_64Emitter := e.emit_shift_cl 0xE0#8 reg
def emit_shr_reg_cl (e : X86_64Emitter) (reg : Byte) : X86_64Emitter := e.emit_shift_cl 0xE8#8 reg
def emit_sar_reg_cl (e : X86_64Emitter) (reg : Byte) : X86_64Emitter := e.emit_shift_cl 0xF8#8 reg

def emit_neg_reg (e : X86_64Emitter) (reg : Byte) : X86_64Emitter :=
  e |>.emit_rex true 0 0 (reg &&& 1#8) |>.emit_byte 0xF7#8 |>.emit_byte (0xD8#8 ||| (reg &&& 7#8))

/-- ModRM, SIB and displacement of `emit_mov_reg_mem` and `emit_mov_mem_reg`. -/
def emit_mem (e : X86_64Emitter) (reg base : Byte) (disp : BitVec 32) : X86_64Emitter :=
  let r := (reg &&& 7#8) <<< 3
  if disp = 0#32 ∧ base &&& 7#8 ≠ 4#8 then e.emit_byte (r ||| (base &&& 7#8))
  else if disp = 0#32 ∧ base &&& 7#8 = 4#8 then
    e |>.emit_byte (r ||| 0x04#8) |>.emit_byte 0x24#8
  else if -128 ≤ disp.toInt ∧ disp.toInt ≤ 127 ∧ base &&& 7#8 ≠ 4#8 then
    e |>.emit_byte (0x40#8 ||| r ||| (base &&& 7#8)) |>.emit_byte (disp &&& 0xFF#32 |>.setWidth 8)
  else if -128 ≤ disp.toInt ∧ disp.toInt ≤ 127 ∧ base &&& 7#8 = 4#8 then
    e |>.emit_byte (0x40#8 ||| r ||| 0x04#8) |>.emit_byte 0x24#8
      |>.emit_byte (disp &&& 0xFF#32 |>.setWidth 8)
  else if base &&& 7#8 ≠ 4#8 then
    e |>.emit_byte (0x80#8 ||| r ||| (base &&& 7#8)) |>.emit_dword disp
  else
    e |>.emit_byte (0x80#8 ||| r ||| 0x04#8) |>.emit_byte 0x24#8 |>.emit_dword disp

def emit_mov_reg_mem (e : X86_64Emitter) (reg base : Byte) (disp : BitVec 32) : X86_64Emitter :=
  (e |>.emit_rex true ((reg >>> 3) &&& 1#8) 0 ((base >>> 3) &&& 1#8) |>.emit_byte 0x8B#8).emit_mem
    reg base disp

def emit_mov_mem_reg (e : X86_64Emitter) (base : Byte) (disp : BitVec 32) (reg : Byte) :
    X86_64Emitter :=
  (e |>.emit_rex true ((reg >>> 3) &&& 1#8) 0 ((base >>> 3) &&& 1#8) |>.emit_byte 0x89#8).emit_mem
    reg base disp

def emit_ret (e : X86_64Emitter) : X86_64Emitter := e.emit_byte 0xC3#8

def emit_bswap (e : X86_64Emitter) (reg : Byte) : X86_64Emitter :=
  e |>.emit_rex true 0 0 (reg &&& 1#8) |>.emit_byte 0x0F#8 |>.emit_byte (0xC8#8 ||| (reg &&& 7#8))

def emit_nop (e : X86_64Emitter) : X86_64Emitter := e.emit_byte 0x90#8

def emit_int3 (e : X86_64Emitter) : X86_64Emitter := e.emit_byte 0xCC#8

/-- The `81` group with a 32-bit immediate. -/
def emit_group_imm (e : X86_64Emitter) (ext : Byte) (reg : Byte) (imm : BitVec 64) : X86_64Emitter :=
  e |>.emit_rex true 0 0 (reg &&& 1#8)
    |>.emit_byte 0x81#8
    |>.emit_byte (ext ||| (reg &&& 7#8))
    |>.emit_dword (imm.setWidth 32)

def emit_add_reg_imm (e : X86_64Emitter) (reg : Byte) (imm : BitVec 64) : X86_64Emitter :=
  if imm ≤ 0xFFFFFFFF#64 then e.emit_group_imm 0xC0#8 reg imm
  else
    e |>.emit_mov_reg_reg RAX reg |>.emit_rex true 0 0 0 |>.emit_byte 0x48#8 |>.emit_byte 0x05#8
      |>.emit_qword imm |>.emit_mov_reg_reg reg RAX

def emit_sub_reg_imm (e : X86_64Emitter) (reg : Byte) (imm : BitVec 64) : X86_64Emitter :=
  if imm ≤ 0xFFFFFFFF#64 then e.emit_group_imm 0xE8#8 reg imm
  else
    e |>.emit_mov_reg_reg RAX reg |>.emit_rex true 0 0 0 |>.emit_byte 0x2D#8
      |>.emit_qword imm |>.emit_mov_reg_reg reg RAX

/-- AND, OR, XOR: an immediate past 32 bits becomes a move. -/
def emit_logic_imm (e : X86_64Emitter) (ext : Byte) (reg : Byte) (imm : BitVec 64) : X86_64Emitter :=
  if imm ≤ 0xFFFFFFFF#64 then e.emit_group_imm ext reg imm else e.emit_mov_reg_imm reg imm

def emit_and_reg_imm (e : X86_64Emitter) (reg : Byte) (imm : BitVec 64) : X86_64Emitter :=
  e.emit_logic_imm 0xE0#8 reg imm
def emit_or_reg_imm (e : X86_64Emitter) (reg : Byte) (imm : BitVec 64) : X86_64Emitter :=
  e.emit_logic_imm 0xC8#8 reg imm
def emit_xor_reg_imm (e : X86_64Emitter) (reg : Byte) (imm : BitVec 64) : X86_64Emitter :=
  e.emit_logic_imm 0xF0#8 reg imm

def emit_cmp_reg_imm (e : X86_64Emitter) (reg : Byte) (imm : BitVec 64) : X86_64Emitter :=
  if imm ≤ 0xFFFFFFFF#64 then e.emit_group_imm 0xF8#8 reg imm
  else
    e |>.emit_mov_reg_reg RAX reg |>.emit_rex true 0 0 0 |>.emit_byte 0x3D#8 |>.emit_qword imm

def patch_dword_at (e : X86_64Emitter) (offset : ℕ) (value : BitVec 32) : X86_64Emitter :=
  if e.buf_ ≠ 0#64 ∧ offset + 4 ≤ e.size_ then
    { e with host := writeN 4 e.host (off e.buf_ offset) value
             written := (List.range 4).map (fun i => off e.buf_ (offset + i)) ++ e.written }
  else e

end X86_64Emitter

end Bbarm64
