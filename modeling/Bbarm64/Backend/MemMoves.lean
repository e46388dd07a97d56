import Bbarm64.Backend.EmitterFacts
import Bbarm64.X86.ModRM

/-!
# Backend.MemMoves — the moves between a register and memory

`emit_mov_reg_mem` and `emit_mov_mem_reg` against the whole ModRM table: the bytes are one move between
the register and `[base + disp]`, except for RBP and R13 without a displacement, where they are the
front of a move to or from `[rip + disp]`.
-/

namespace Bbarm64

open X86 X86_64Emitter

/-- The two directions. -/
inductive MemOp where
  | mov_reg_mem
  | mov_mem_reg
  deriving DecidableEq, Repr

namespace MemOp

def emit (op : MemOp) (e : X86_64Emitter) (reg base : Byte) (disp : BitVec 32) : X86_64Emitter :=
  match op with
  | .mov_reg_mem => e.emit_mov_reg_mem reg base disp
  | .mov_mem_reg => e.emit_mov_mem_reg base disp reg

/-- The bytes the call adds to the buffer. -/
def bytes (op : MemOp) (e : X86_64Emitter) (reg base : Byte) (disp : BitVec 32) : List Byte :=
  (op.emit e reg base disp).code.drop e.offset_

/-- The move between `reg` and an operand. -/
def mov (op : MemOp) (reg : Reg) (o : Operand) : Mov :=
  match op with
  | .mov_reg_mem => .load reg o
  | .mov_mem_reg => .store o reg

def opcode : MemOp → Byte
  | .mov_reg_mem => 0x8B#8
  | .mov_mem_reg => 0x89#8

/-- The code is one move between `reg` and memory at `base + disp`, whatever follows it. -/
def Denotes (op : MemOp) (code rest : List Byte) (reg base : Reg) (disp : BitVec 32) : Prop :=
  ∃ a, decodeMov (code ++ rest) = some (op.mov reg (.mem a), code.length) ∧
    ∀ next s, a.ea next s = s.ea base disp

variable {op : MemOp} {disp : BitVec 32}

theorem low_setWidth : ∀ r : Reg, r.setWidth 8 &&& 7#8 = r.lo.setWidth 8 := by decide

/-- The prefix and the opcode. -/
theorem emit_eq (op : MemOp) (e : X86_64Emitter) (reg base : Reg) (disp : BitVec 32) :
    op.emit e (reg.setWidth 8) (base.setWidth 8) disp =
      (e.emit_bytes [rexW reg.hi base.hi, op.opcode]).emit_mem (reg.setWidth 8) (base.setWidth 8)
        disp := by
  cases op <;> simp only [emit, emit_mov_reg_mem, emit_mov_mem_reg, emit_rex_eq, rex_bit,
    hreg_setWidth, opcode, emit_bytes_cons, emit_bytes_nil]

/-- The bytes of an operand that has its displacement. -/
theorem emit_eq_memBytes {base : Reg} (h : disp = 0#32 → base.lo ≠ 5#3) (op : MemOp)
    (e : X86_64Emitter) (reg : Reg) : op.emit e (reg.setWidth 8) (base.setWidth 8) disp =
      e.emit_bytes ([rexW reg.hi base.hi, op.opcode] ++ memBytes reg.lo base disp) := by
  have h' : disp = 0#32 → (hreg (base.setWidth 8)).lo ≠ 5#3 := by rwa [hreg_setWidth]
  rw [emit_eq, emit_mem_eq _ h', hreg_setWidth, hreg_setWidth, emit_bytes_append]

/-- The source's first branch takes a base numbered `101` along. -/
theorem emit_eq_rip {base : Reg} (h : base.lo = 5#3) (op : MemOp) (e : X86_64Emitter) (reg : Reg) :
    op.emit e (reg.setWidth 8) (base.setWidth 8) 0#32 =
      e.emit_bytes [rexW reg.hi base.hi, op.opcode, modrm 0#2 reg.lo 5#3] := by
  have hm : ∀ a : BitVec 3, (a.setWidth 8 <<< 3) ||| (5#3).setWidth 8 = modrm 0#2 a 5#3 := by decide
  rw [emit_eq]
  unfold emit_mem
  simp only [low_setWidth, h, hm]
  rfl

theorem decodeMov_eq (op : MemOp) (r b : BitVec 1) (m : Byte) (t : List Byte) :
    decodeMov (rexW r b :: op.opcode :: m :: t) = (decodeOperand ⟨true, r, 0#1, b⟩ m t).map
      fun q => (op.mov (r ++ m.extractLsb' 3 3) q.1, q.2 + 2) := by
  cases op <;> simp [decodeMov, opcode, mov]

theorem denotes_memBytes (op : MemOp) (reg base : Reg) (disp : BitVec 32) (rest : List Byte) :
    op.Denotes ([rexW reg.hi base.hi, op.opcode] ++ memBytes reg.lo base disp) rest reg base disp := by
  obtain ⟨m, t, he, hreg, hmod, hdec⟩ := decodeMem_memBytes reg.hi reg.lo base disp rest
  have hop := decodeOperand_of_decodeMem hmod hdec
  refine ⟨.sum (some base) none disp, ?_, fun next s => Addr.ea_base next s base disp⟩
  rw [List.append_assoc, he, List.cons_append, List.cons_append, List.nil_append, decodeMov_eq, hop,
    hreg, Reg.hi_append_lo]
  rw [List.length_append, Nat.add_comm]
  rfl

/-- What is read there is four bytes longer. -/
theorem not_denotes_rip (op : MemOp) (reg base b : Reg) (disp : BitVec 32) (rest : List Byte) :
    ¬op.Denotes [rexW reg.hi b.hi, op.opcode, modrm 0#2 reg.lo 5#3] rest reg base disp := by
  rintro ⟨a, hdec, -⟩
  rw [List.cons_append, List.cons_append, List.cons_append, List.nil_append, decodeMov_eq,
    decodeOperand_rip, Option.map_map] at hdec
  obtain ⟨d, -, hd⟩ := Option.map_eq_some_iff.mp hdec
  cases congrArg Prod.snd hd

theorem lo_eq_five_iff : ∀ r : Reg, r.lo = 5#3 ↔ r = rbp ∨ r = r13 := by decide

theorem bytes_length_le (op : MemOp) (reg base : Reg) (disp : BitVec 32) :
    ([rexW reg.hi base.hi, op.opcode] ++ memBytes reg.lo base disp).length ≤ 8 := by
  rw [List.length_append, memBytes_length]
  simp only [List.length_cons, List.length_nil]
  split_ifs <;> omega

/-- **The moves**: for every register, base and displacement the bytes are the move, but for `[rbp]` and
`[r13]`. -/
theorem denotes_iff {e : X86_64Emitter} (hb : e.buf_ ≠ 0#64) (hs : e.size_ ≤ 2 ^ 64)
    (hroom : e.offset_ + 8 ≤ e.size_) (op : MemOp) (reg base : Reg) (disp : BitVec 32)
    (rest : List Byte) :
    op.Denotes (op.bytes e (reg.setWidth 8) (base.setWidth 8) disp) rest reg base disp ↔
      disp ≠ 0#32 ∨ base ≠ rbp ∧ base ≠ r13 := by
  unfold bytes
  by_cases h : disp = 0#32 ∧ base.lo = 5#3
  · obtain ⟨rfl, h5⟩ := h
    rw [emit_eq_rip h5, e.emit_bytes_drop hb hs (by simpa using Nat.le_trans (by omega) hroom)]
    refine iff_of_false (not_denotes_rip op reg base base 0#32 rest) ?_
    rintro (hne | ⟨hbp, h13⟩)
    · exact hne rfl
    · exact ((lo_eq_five_iff base).mp h5).elim hbp h13
  · have hlen := bytes_length_le op reg base disp
    rw [emit_eq_memBytes (not_and.mp h), e.emit_bytes_drop hb hs (by omega)]
    refine iff_of_true (denotes_memBytes op reg base disp rest) ?_
    by_cases h0 : disp = 0#32
    · exact .inr (not_or.mp ((lo_eq_five_iff base).not.mp fun h5 => h ⟨h0, h5⟩))
    · exact .inl h0

theorem load_r12_denotes : MemOp.mov_reg_mem.Denotes (MemOp.mov_reg_mem.bytes
    (.set_buffer 0x1000#64 16 fun _ => 0#8) 0#8 12#8 8#32) [] rax r12 8#32 :=
  (denotes_iff (by decide) (by decide) (by decide) .mov_reg_mem rax r12 8#32 []).mpr
    (.inl (by decide))

/-- `mov rcx, [rbp]` reads `[rip + disp]`. -/
theorem load_rbp_not_denotes : ¬MemOp.mov_reg_mem.Denotes (MemOp.mov_reg_mem.bytes
    (.set_buffer 0x1000#64 16 fun _ => 0#8) 1#8 5#8 0#32) [] rcx rbp 0#32 := by
  have hbytes : MemOp.mov_reg_mem.bytes (.set_buffer 0x1000#64 16 fun _ => 0#8) 1#8 5#8 0#32 =
      [rexW rcx.hi rbp.hi, 0x8B#8, modrm 0#2 rcx.lo 5#3] := by decide
  rw [hbytes]
  exact not_denotes_rip .mov_reg_mem rcx rbp rbp 0#32 []

end MemOp

end Bbarm64
