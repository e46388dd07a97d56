import Bbarm64.Decoder.Ranges
import Bbarm64.Engine.CalleeSaved

/-!
# Engine.Operands — the constants of the lowered instructions

The bounds on the record carry over to the constants in the host code: the displacements from the
context pointer stay inside of the context, the immediates and displacements that are cut to 32 bits are
sign extended to the same value again, and the shift counts are below 64.
-/

namespace Bbarm64

open X86 X86_64Emitter ARM64Decoder IRBuilder IRLowering

namespace IRBuilder

/-! ## The IR of a record -/

/-- The IR opcodes whose immediate is cut to 32 bits. -/
def imm32_ops : List IROpcode := [.ADD, .SUB, .CMP, .LOAD64, .LOAD32, .STORE64, .STORE32]

def shift_ops : List IROpcode := [.SAR, .SHR, .SHL]

def store_ops : List IROpcode := [.STORE64, .STORE32]

/-- What no decoded word becomes. -/
def absent_ops : List IROpcode := [.TST, .LOAD_PAIR, .STORE_PAIR]

/-- The immediate of an IR instruction is that of its host code. -/
structure ConstIr (ir : IRInst) : Prop where
  imm : ir.op ∈ imm32_ops → Fits32 ir.imm
  shift : ir.op ∈ shift_ops → ir.imm.toNat < 64
  store : ir.op ∈ store_ops → ir.src2 ≠ IR_IMM
  absent : ir.op ∉ absent_ops

theorem ConstIr.of_imm {ir : IRInst} (op : IROpcode) (he : ir.op = op) (hop : op ∈ imm32_ops)
    (h : Fits32 ir.imm) (hs : op ∉ store_ops ∨ ir.src2 ≠ IR_IMM) : ConstIr ir := by
  obtain ⟨hshift, ha⟩ := of_all (P := fun o => o ∉ shift_ops ∧ o ∉ absent_ops) hop (by decide)
  rw [← he] at hs hshift ha
  exact ⟨fun _ => h, fun ho => absurd ho hshift, fun ho => hs.resolve_left (not_not.mpr ho), ha⟩

theorem ConstIr.of_shift {ir : IRInst} (op : IROpcode) (he : ir.op = op) (hop : op ∈ shift_ops)
    (h : ir.imm.toNat < 64) : ConstIr ir := by
  obtain ⟨hi, hs, ha⟩ := of_all (P := fun o => o ∉ imm32_ops ∧ o ∉ store_ops ∧ o ∉ absent_ops) hop
    (by decide)
  rw [← he] at hi hs ha
  exact ⟨fun ho => absurd ho hi, fun _ => h, fun ho => absurd ho hs, ha⟩

/-- Of the other opcodes. -/
theorem ConstIr.of_other {ir : IRInst} (op : IROpcode) (he : ir.op = op)
    (hop : op ∉ imm32_ops ++ shift_ops ++ absent_ops) : ConstIr ir := by
  rw [← he] at hop
  simp only [List.mem_append, not_or] at hop
  have hs : ir.op ∉ store_ops := fun ho =>
    hop.1.1 (of_all (P := (· ∈ imm32_ops)) ho (by decide))
  exact ⟨fun ho => absurd ho hop.1.1, fun ho => absurd ho hop.1.2, fun ho => absurd ho hs, hop.2⟩

/-- Each constant is a field of the record, or zero. -/
theorem builds_constIr {d : DecodedInstr} (hd : InRange d) (hop : d.opcode ∉ unreached_opcodes)
    (pc : Word) : Builds (fun l => ∀ ir ∈ l, ConstIr ir) (build_instr d pc) := by
  have hone : ∀ {ir : IRInst}, ConstIr ir → ∀ a ∈ [ir], ConstIr a := by
    intro ir h a ha
    obtain rfl := List.mem_singleton.mp ha
    exact h
  have htwo : ∀ {a b : IRInst}, ConstIr a → ConstIr b → ∀ i ∈ [a, b], ConstIr i := by
    intro a b ha hb
    exact List.forall_mem_cons.mpr ⟨ha, hone hb⟩
  have harith : ∀ ir : IRInst, ir.imm = 0#64 → Fits32 (arith ir d).imm := by
    intro ir h
    unfold arith
    split_ifs
    · exact hd.imm
    · exact h ▸ (by decide : Fits32 0#64)
  have hcb : ∀ ir : IRInst, ConstIr (cb_compare ir d) := fun ir =>
    .of_imm .CMP rfl (by decide) (by decide : Fits32 0#64) (.inl (by decide))
  have hshift : d.opcode ∈ shift_opcodes → d.imm.toNat < 64 := fun ho => (hd.shift ho).2
  unfold build_instr
  dsimp only
  refine .ite (fun _ => .one (hone (.of_imm .ADD rfl (by decide) (harith _ rfl) (.inl (by decide))))) ?_
  refine .ite (fun _ => .one (hone (.of_imm .SUB rfl (by decide) (harith _ rfl) (.inl (by decide))))) ?_
  refine .ite (fun ho => .one (hone (.of_shift .SAR rfl (by decide) (hshift (ho ▸ by decide))))) ?_
  refine .ite (fun ho => .one (hone (.of_shift .SHR rfl (by decide) (hshift (ho ▸ by decide))))) ?_
  refine .ite (fun ho => .one (hone (.of_shift .SHL rfl (by decide) (hshift (ho ▸ by decide))))) ?_
  refine .ite (fun _ => .one (hone (.of_other .SET_REG rfl (by decide)))) ?_
  refine .ite (fun _ => .one (hone (.of_other .MOV_IMM rfl (by decide)))) ?_
  refine .ite (fun _ => .one (hone (.of_other .MOV_IMM rfl (by decide)))) ?_
  refine .ite (fun _ => .one (hone (.of_other .MOV_IMM rfl (by decide)))) ?_
  refine .ite (fun _ => .one (hone (.of_imm .CMP rfl (by decide) (by decide : Fits32 0#64)
    (.inl (by decide))))) ?_
  refine .ite (fun ho => absurd (ho ▸ (by decide : 0x31#8 ∈ unreached_opcodes)) hop) ?_
  -- the branches
  refine .ite (fun _ => .one (hone (.of_other .JMP rfl (by decide)))) ?_
  refine .ite (fun _ => .two (htwo (.of_other .SET_REG rfl (by decide))
    (.of_other .CALL rfl (by decide))) id fun _ => rfl) ?_
  refine .ite (fun _ => .one (hone (.of_other .RET rfl (by decide)))) ?_
  refine .ite (fun _ => ⟨[_], hone (.of_other .JMP_COND rfl (by decide)), fun _ => ⟨_, rfl, rfl⟩⟩) ?_
  refine .ite (fun _ => .two (htwo (hcb _) (.of_other .JMP_COND rfl (by decide)))
    (fun b => { b with is_conditional := true }) fun _ => rfl) ?_
  refine .ite (fun _ => .two (htwo (hcb _) (.of_other .JMP_COND rfl (by decide)))
    (fun b => { b with is_conditional := true }) fun _ => rfl) ?_
  -- loads and stores
  refine .ite (fun _ => .one (hone (.of_imm .LOAD64 rfl (by decide) hd.imm (.inl (by decide))))) ?_
  refine .ite (fun _ => .one (hone (.of_imm .LOAD32 rfl (by decide) hd.imm (.inl (by decide))))) ?_
  refine .ite (fun _ => .one (hone (.of_imm .STORE64 rfl (by decide) hd.imm (.inr (reg_ne_imm _))))) ?_
  refine .ite (fun _ => .one (hone (.of_imm .STORE32 rfl (by decide) hd.imm (.inr (reg_ne_imm _))))) ?_
  refine .ite (fun ho => absurd (ho ▸ (by decide : 0x80#8 ∈ unreached_opcodes)) hop) ?_
  refine .ite (fun ho => absurd (ho ▸ (by decide : 0x81#8 ∈ unreached_opcodes)) hop) ?_
  -- the rest has no constant
  refine .ite (fun _ => .one (hone (.of_other .NOP rfl (by decide)))) ?_
  refine .ite (fun _ => .one (hone (.of_other .BARRIER rfl (by decide)))) ?_
  refine .ite (fun _ => .one (hone (.of_other .SYSCALL rfl (by decide)))) ?_
  refine .ite (fun _ => .one (hone (.of_other .VEC_DUP rfl (by decide)))) ?_
  refine .ite (fun _ => .one (hone (.of_other .VEC_ADD8 rfl (by decide)))) ?_
  refine .ite (fun _ => .one (hone (.of_other .VEC_SUB8 rfl (by decide)))) ?_
  refine .ite (fun _ => .one (hone (.of_other .VEC_AND rfl (by decide)))) ?_
  refine .ite (fun _ => .one (hone (.of_other .VEC_OR rfl (by decide)))) ?_
  refine .ite (fun _ => .one (hone (.of_other .VEC_XOR rfl (by decide)))) ?_
  refine .ite (fun _ => .one (hone (.of_other .VEC_AND rfl (by decide)))) ?_
  exact .one (hone (.of_other .NOP rfl (by decide)))

end IRBuilder

namespace IRLowering

/-! ## The host code -/

/-- A displacement from the context pointer stays inside of the context, and a shift count is below
64. -/
def ConstFits : Instr → Prop
  | .load _ base disp | .store base disp _ => base = r12 → disp.toNat + 8 ≤ 8 * CPUContext.words
  | .shift _ _ count => count.toNat < 64
  | _ => True

section ConstFits

variable {r : Byte} {x : Reg} {ir : IRInst}

theorem reg_offset_le (h : IsArm r) : (reg_offset r).toNat + 8 ≤ 8 * CPUContext.words := by
  have hlt : r.toNat < 32 := h
  rw [reg_offset_toNat r h, CPUContext.words]
  omega

theorem constFits_ldArm (h : IsArm r) : ConstFits (ldArm r x) := fun _ => reg_offset_le h

theorem constFits_stArm (h : IsArm r) : ConstFits (stArm x r) := fun _ => reg_offset_le h

theorem constFits_saveNzcvIf (set : Bool) : ∀ i ∈ saveNzcvIf set, ConstFits i := by
  have h : ∀ i ∈ saveNzcv, ConstFits i := by
    simp [saveNzcv, ConstFits, CPUContext.words]
  exact fun i hi => h i (mem_saveNzcvIf hi)

theorem constFits_aluAsm (op : AluOp) {c : Prop} [Decidable c] (h : ¬ c → IsArm (u8 ir.src2)) :
    ∀ i ∈ aluAsm op c ir, ConstFits i := by
  unfold aluAsm
  split_ifs with hc
  · exact List.forall_mem_singleton.mpr trivial
  · exact List.forall_mem_cons.mpr ⟨constFits_ldArm (h hc), List.forall_mem_singleton.mpr trivial⟩

theorem constFits_blockRet (pc : Word) : ∀ i ∈ blockRet pc, ConstFits i := by
  simp [blockRet, ConstFits, CPUContext.words]

theorem constFits_shiftAsm (hg : GoodIr ir) (h : ir.imm.toNat < 64) (op : ShiftOp) :
    ∀ i ∈ shiftAsm op ir, ConstFits i := by
  have hcount : ConstFits (.shift op rax (ir.imm.setWidth 8)) := by
    show (ir.imm.setWidth 8).toNat < 64
    rw [BitVec.toNat_setWidth]
    omega
  simp only [shiftAsm, List.forall_mem_cons]
  exact ⟨constFits_ldArm hg.src1, hcount, constFits_stArm hg.dest, by simp⟩

theorem lowerAsm_constFits (hg : GoodIr ir) (hc : ConstIr ir) (ft : Word) :
    ∀ i ∈ lowerAsm ft ir, ConstFits i := by
  have hsave := constFits_saveNzcvIf ir.flags_set
  have h1 : ∀ x, ConstFits (ldArm (u8 ir.src1) x) := fun _ => constFits_ldArm hg.src1
  have hst : ∀ x, ConstFits (stArm x (u8 ir.dest)) := fun _ => constFits_stArm hg.dest
  have hax : ∀ (x : Reg) (disp : BitVec 32), ConstFits (.load x rax disp) ∧
      ConstFits (.store rax disp x) := fun _ _ => ⟨fun h => absurd h (by decide), fun h => absurd h (by decide)⟩
  unfold lowerAsm
  dsimp only
  split
  case h_1 | h_2 =>
    have halu : ∀ op, ∀ i ∈ aluAsm op (ir.src2 = IR_IMM) ir, ConstFits i :=
      fun op => constFits_aluAsm op hg.src2
    simp only [List.cons_append, List.forall_mem_cons, List.forall_mem_append]
    exact ⟨h1 _, ⟨halu _, hsave⟩, hst _, by simp⟩
  case h_3 h | h_4 h | h_5 h => exact constFits_shiftAsm hg (hc.shift (h ▸ by decide)) _
  case h_6 =>
    simp only [List.cons_append, List.forall_mem_cons, List.forall_mem_append]
    exact ⟨h1 _, constFits_aluAsm _ fun h => hg.src2 fun hi => h (.inl hi), hsave⟩
  case h_7 h => exact absurd (h ▸ (by decide : IROpcode.TST ∈ absent_ops)) hc.absent
  case h_8 =>
    simp only [List.forall_mem_cons]
    exact ⟨trivial, hst _, by simp⟩
  case h_9 =>
    split_ifs
    · simp only [List.forall_mem_cons]
      exact ⟨trivial, hst _, by simp⟩
    · simp only [List.forall_mem_cons]
      exact ⟨h1 _, hst _, by simp⟩
  case h_10 | h_11 =>
    simp only [List.forall_mem_cons]
    exact ⟨h1 _, (hax _ _).1, hst _, by simp⟩
  case h_12 h | h_13 h =>
    simp only [List.forall_mem_cons]
    exact ⟨h1 _, constFits_ldArm (hg.src2 (hc.store (h ▸ by decide))), (hax _ _).2, by simp⟩
  case h_14 | h_15 => exact constFits_blockRet _
  case h_16 =>
    simp only [List.forall_mem_cons, List.forall_mem_append]
    exact ⟨trivial, constFits_blockRet _, constFits_blockRet _⟩
  case h_17 => simp [ConstFits, CPUContext.words]
  case h_18 h => exact absurd (h ▸ (by decide : IROpcode.LOAD_PAIR ∈ absent_ops)) hc.absent
  case h_19 h => exact absurd (h ▸ (by decide : IROpcode.STORE_PAIR ∈ absent_ops)) hc.absent
  case h_20 => exact List.forall_mem_singleton.mpr trivial

end ConstFits

/-- What the lowering makes of a record: for the IR of it, the host code that is written, with the
constants of `ConstIr` and `ConstFits`. -/
def LowersInRange (d : DecodedInstr) : Prop :=
  ∀ pc, ∀ ir ∈ instrIr d pc, ConstIr ir ∧ ∀ ft e,
    Appends e (lower_instr ft e ir) (encodeAll (lowerAsm ft ir)) ∧ ∀ i ∈ lowerAsm ft ir, ConstFits i

theorem decode?_lowersInRange {w : BitVec 32} {d : DecodedInstr} (h : decode? w = some d) :
    LowersInRange d := by
  intro pc ir hir
  obtain ⟨out, hout, hf⟩ := decode?_found h
  have hg := instrIr_goodIr (decode?_wellDecoded h) pc ir hir
  have hc := (builds_constIr (decode?_inRange h) (hf.opcode_notMem hout.blank) pc).instrIr.1 ir hir
  exact ⟨hc, fun ft e => ⟨lower_instr_appends e ft hg.lowerable, lowerAsm_constFits hg hc ft⟩⟩

/-- **The decoder's answer**: false with the category UNKNOWN, or a record in range, whose lowering
stays in range as well. -/
theorem decode_ranges (w : BitVec 32) :
    ((decode w).1 = false ↔ (decode w).2.category = .UNKNOWN) ∧
      ∀ d, decode? w = some d → InRange d ∧ LowersInRange d :=
  ⟨decode_refused_iff w, fun _ h => ⟨decode?_inRange h, decode?_lowersInRange h⟩⟩

/-- `sub x0, x1, #1, lsl #12` -/
theorem decode_ranges_sub : decode? 0xD1400420#32 = some (decode 0xD1400420#32).2 ∧
    InRange (decode 0xD1400420#32).2 ∧ LowersInRange (decode 0xD1400420#32).2 :=
  ⟨by decide, (decode_ranges 0xD1400420#32).2 _ (by decide)⟩

end IRLowering

end Bbarm64
