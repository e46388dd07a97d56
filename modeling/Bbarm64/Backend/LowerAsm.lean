import Bbarm64.Backend.EmitterFacts
import Bbarm64.Backend.Lower
import Bbarm64.X86.Machine

/-!
# Backend.LowerAsm — the instructions a lowering emits

`lowerAsm` lists the host instructions `lower_instr` emits for an IR instruction that satisfies
`Lowerable`, and `blockAsm` those of `lower_block`.  `lower_block_appends` connects them to the byte
level: the emitter ends up with their encodings, with the displacement of each `jcc` patched in.
-/

namespace Bbarm64

open X86

/-! ## Instruction lists -/

namespace IRLowering

/-- `load_arm_reg` -/
def ldArm (r : Byte) (x : Reg) : Instr := .load x r12 (reg_offset r)

/-- `store_arm_reg` -/
def stArm (x : Reg) (r : Byte) : Instr := .store r12 (reg_offset r) x

/-- `emit_block_ret` -/
def blockRet (target_pc : Word) : List Instr :=
  [.movRI rax target_pc, .store r12 256#32 rax, .ret]

/-- `save_nzcv`: every shift and mask meant for RCX is encoded for R9. -/
def saveNzcv : List Instr :=
  [.store r12 512#32 rax, .store r12 520#32 rcx, .store r12 528#32 rdx, .pushfq, .pop rax,
    .movRR rcx rax, .shift .shr r9 7#8, .aluI .and r9 1#32,
    .movRR rdx rax, .shift .shr rdx 6#8, .aluI .and rdx 1#32, .shift .shl rdx 1#8, .alu .or rcx rdx,
    .movRR rdx rax, .aluI .and rdx 1#32, .shift .shl rdx 2#8, .alu .or rcx rdx,
    .movRR rdx rax, .shift .shr rdx 11#8, .aluI .and rdx 1#32, .shift .shl rdx 3#8, .alu .or rcx rdx,
    .shift .shl r9 28#8, .store r12 272#32 rcx,
    .load rdx r12 528#32, .load rcx r12 520#32, .load rax r12 512#32]

def saveNzcvIf (flags_set : Bool) : List Instr := if flags_set then saveNzcv else []

/-- RAX and the second operand of ADD, SUB and CMP: an immediate, or the register in RCX. -/
def aluAsm (op : AluOp) (imm_form : Prop) [Decidable imm_form] (ir : IRInst) : List Instr :=
  if imm_form then [.aluI op rax (ir.imm.setWidth 32)]
  else [ldArm (u8 ir.src2) rcx, .alu op rax rcx]

def shiftAsm (op : ShiftOp) (ir : IRInst) : List Instr :=
  [ldArm (u8 ir.src1) rax, .shift op rax (ir.imm.setWidth 8), stArm rax (u8 ir.dest)]

/-- The host register of a guest register, as the emitter encodes it. -/
def hostReg (r : IRReg) : Reg := hreg (arm_reg_to_x86 (u8 r))

/-- The instructions of `lower_instr`. -/
def lowerAsm (fallthrough_pc_ : Word) (ir : IRInst) : List Instr :=
  let ld1 := ldArm (u8 ir.src1) rax
  let ld2 := ldArm (u8 ir.src2) rcx
  let st := stArm rax (u8 ir.dest)
  let disp := ir.imm.setWidth 32
  match ir.op with
  | .ADD => ld1 :: aluAsm .add (ir.src2 = IR_IMM) ir ++ saveNzcvIf ir.flags_set ++ [st]
  | .SUB => ld1 :: aluAsm .sub (ir.src2 = IR_IMM) ir ++ saveNzcvIf ir.flags_set ++ [st]
  | .SAR => shiftAsm .sar ir
  | .SHR => shiftAsm .shr ir
  | .SHL => shiftAsm .shl ir
  | .CMP =>
    ld1 :: aluAsm .cmp (ir.src2 = IR_IMM ∨ ir.src2 = IR_NONE) ir ++ saveNzcvIf ir.flags_set
  | .TST => ld1 :: ld2 :: .test rax rcx :: saveNzcvIf ir.flags_set
  | .MOV_IMM => [.movRI (hostReg ir.dest) ir.imm, stArm (hostReg ir.dest) (u8 ir.dest)]
  | .SET_REG =>
    if ir.src1 = IR_NONE then [.movRI rax ir.imm, st]
    else [ldArm (u8 ir.src1) (hostReg ir.src1), stArm (hostReg ir.src1) (u8 ir.dest)]
  | .LOAD64 | .LOAD32 => [ld1, .load rax rax disp, st]
  | .STORE64 | .STORE32 => [ld1, ld2, .store rax disp rcx]
  | .JMP | .CALL => blockRet ir.imm
  | .JMP_COND =>
    .jcc ((x86_cc ir.cond ^^^ 1#8).setWidth 4) 19#32 :: (blockRet ir.imm ++ blockRet fallthrough_pc_)
  | .RET => [.load rax r12 264#32, .store r12 256#32 rax, .ret]
  | .LOAD_PAIR =>
    [ld1, .load rcx rax disp, .load rdx rax (disp + 8#32), stArm rcx (u8 ir.dest),
      stArm rdx (u8 ir.src2)]
  | .STORE_PAIR =>
    [ld1, ld2, ldArm ((ir.imm >>> 32).setWidth 8) rdx, .store rax disp rcx,
      .store rax (disp + 8#32) rdx]
  | _ => [.nop]

/-- The instructions of `lower_block`. -/
def blockAsm (block : List IRInst) (fallthrough_pc : Word) : List Instr :=
  .movRR r12 rdi :: block.flatMap (lowerAsm fallthrough_pc) ++ blockRet fallthrough_pc

/-- The IR that the builder makes of decoded words: no opcode outside the instruction subset, no
immediate of more than 32 bits in an arithmetic form, no shift by a register. -/
def Lowerable (ir : IRInst) : Prop :=
  match ir.op with
  | .ADD | .SUB => ir.src2 = IR_IMM → ir.imm ≤ 0xFFFFFFFF#64
  | .CMP => ir.src2 = IR_IMM ∨ ir.src2 = IR_NONE → ir.imm ≤ 0xFFFFFFFF#64
  | .SAR | .SHR | .SHL => ir.src2 = IR_IMM
  | .TST | .MOV_IMM | .SET_REG | .LOAD64 | .LOAD32 | .STORE64 | .STORE32 | .LOAD_PAIR | .STORE_PAIR
  | .JMP | .CALL | .JMP_COND | .RET | .NOP | .BARRIER => True
  | _ => False

/-! ## The bytes of the lists -/

section Bytes

open X86_64Emitter

variable (e : X86_64Emitter)

@[simp] theorem hreg_RAX : hreg RAX = rax := rfl
@[simp] theorem hreg_RCX : hreg RCX = rcx := rfl
@[simp] theorem hreg_RDX : hreg RDX = rdx := rfl
@[simp] theorem hreg_R12 : hreg R12 = r12 := rfl
@[simp] theorem hreg_RDI : hreg RDI = rdi := rfl
@[simp] theorem breg_RAX : breg RAX = rax := rfl
/-- RCX has bit 0 set, which the short forms take for bit 3. -/
@[simp] theorem breg_RCX : breg RCX = r9 := rfl
@[simp] theorem breg_RDX : breg RDX = rdx := rfl

theorem isReg_arm_reg_to_x86 : ∀ r : Byte, IsReg (arm_reg_to_x86 r) := by decide

theorem load_arm_reg_eq (r x : Byte) :
    load_arm_reg e r x = e.emit_bytes (encode (ldArm r (hreg x))) :=
  e.emit_mov_reg_mem_eq (fun _ => by decide) x

theorem store_arm_reg_eq (x r : Byte) :
    store_arm_reg e x r = e.emit_bytes (encode (stArm (hreg x) r)) :=
  e.emit_mov_mem_reg_eq (fun _ => by decide) x

theorem emit_all_cons (i : Instr) (is : List Instr) : e.emit_bytes (encodeAll (i :: is)) =
    (e.emit_bytes (encode i)).emit_bytes (encodeAll is) := by
  rw [encodeAll_cons, emit_bytes_append]

theorem emit_all_append (is js : List Instr) : e.emit_bytes (encodeAll (is ++ js)) =
    (e.emit_bytes (encodeAll is)).emit_bytes (encodeAll js) := by
  rw [encodeAll_append, emit_bytes_append]

theorem emit_all_nil : e.emit_bytes (encodeAll []) = e := rfl

theorem emit_load_ctx (reg : Byte) (disp : BitVec 32) :
    e.emit_mov_reg_mem reg R12 disp = e.emit_bytes (encode (.load (hreg reg) r12 disp)) :=
  e.emit_mov_reg_mem_eq (fun _ => by decide) reg

theorem emit_store_ctx (reg : Byte) (disp : BitVec 32) :
    e.emit_mov_mem_reg R12 disp reg = e.emit_bytes (encode (.store r12 disp (hreg reg))) :=
  e.emit_mov_mem_reg_eq (fun _ => by decide) reg

theorem emit_load_rax (reg : Byte) (disp : BitVec 32) :
    e.emit_mov_reg_mem reg RAX disp = e.emit_bytes (encode (.load (hreg reg) rax disp)) :=
  e.emit_mov_reg_mem_eq (fun _ => by decide) reg

theorem emit_store_rax (reg : Byte) (disp : BitVec 32) :
    e.emit_mov_mem_reg RAX disp reg = e.emit_bytes (encode (.store rax disp (hreg reg))) :=
  e.emit_mov_mem_reg_eq (fun _ => by decide) reg

theorem emit_mov_rax (imm : BitVec 64) :
    e.emit_mov_reg_imm RAX imm = e.emit_bytes (encode (.movRI rax imm)) :=
  e.emit_mov_reg_imm_eq (by decide : IsReg RAX) imm

theorem emit_block_ret_eq (pc : Word) :
    emit_block_ret e pc = e.emit_bytes (encodeAll (blockRet pc)) := by
  simp only [emit_block_ret, emit_mov_rax, emit_store_ctx, hreg_RAX, emit_ret_eq, CTX_PC_OFFSET,
    blockRet, emit_all_cons, emit_all_nil]

theorem save_nzcv_eq : save_nzcv e = e.emit_bytes (encodeAll saveNzcv) := by
  have h1 : 1#64 ≤ 0xFFFFFFFF#64 := by decide
  have h2 : (1#64).setWidth 32 = 1#32 := by decide
  simp only [save_nzcv, emit_load_ctx, emit_store_ctx, emit_mov_reg_reg_eq, emit_shr_reg_imm_eq,
    emit_shl_reg_imm_eq, emit_or_reg_reg_eq, emit_and_reg_imm_eq _ h1, emit_pushfq_eq,
    emit_pop_rax_eq, hreg_RAX, hreg_RCX, hreg_RDX, breg_RCX, breg_RDX, h2, saveNzcv, emit_all_cons,
    emit_all_nil]

theorem save_nzcv_if_eq (b : Bool) :
    save_nzcv_if b e = e.emit_bytes (encodeAll (saveNzcvIf b)) := by
  unfold save_nzcv_if saveNzcvIf
  split_ifs
  · exact save_nzcv_eq e
  · rfl

theorem lower_op_eq (ir : IRInst) {imm_form reg_form : X86_64Emitter → X86_64Emitter}
    {op : AluOp} (himm : ir.src2 = IR_IMM →
      ∀ e, imm_form e = e.emit_bytes (encode (.aluI op rax (ir.imm.setWidth 32))))
    (hr : ∀ e, reg_form e = e.emit_bytes (encode (.alu op rax rcx))) :
    lower_op e ir imm_form reg_form =
      e.emit_bytes (encodeAll (ldArm (u8 ir.src1) rax :: aluAsm op (ir.src2 = IR_IMM) ir)) := by
  unfold lower_op aluAsm
  rw [emit_all_cons, load_arm_reg_eq, hreg_RAX]
  by_cases h : ir.src2 = IR_IMM
  · simp only [if_pos h, himm h, emit_all_cons, emit_all_nil]
  · simp only [if_neg h, hr, load_arm_reg_eq, hreg_RCX, emit_all_cons, emit_all_nil]

theorem lower_shift_eq (ir : IRInst) (himm : ir.src2 = IR_IMM)
    {imm_form reg_form : X86_64Emitter → X86_64Emitter} {op : ShiftOp}
    (h : ∀ e, imm_form e = e.emit_bytes (encode (.shift op rax (ir.imm.setWidth 8)))) :
    store_arm_reg (lower_op e ir imm_form reg_form) RAX (u8 ir.dest) =
      e.emit_bytes (encodeAll (shiftAsm op ir)) := by
  simp only [lower_op, if_pos himm, h, load_arm_reg_eq, store_arm_reg_eq, hreg_RAX, shiftAsm,
    emit_all_cons, emit_all_nil]

/-- Every lowering but that of JMP_COND writes plain bytes. -/
theorem lower_instr_eq (ft : Word) {ir : IRInst} (h : Lowerable ir) (hj : ir.op ≠ .JMP_COND) :
    lower_instr ft e ir = e.emit_bytes (encodeAll (lowerAsm ft ir)) := by
  obtain ⟨op, dest, src1, src2, imm, imm2, size, cond, flags_set, flags_used⟩ := ir
  cases op with
  | ADD =>
    simp only [lower_instr, lowerAsm, store_arm_reg_eq, save_nzcv_if_eq,
      lower_op_eq _ _ (fun hi e => e.emit_add_reg_imm_eq (h hi) RAX)
        (fun e => e.emit_add_reg_reg_eq RAX RCX)]
    simp only [hreg_RAX, emit_all_append, emit_all_cons, emit_all_nil]
  | SUB =>
    simp only [lower_instr, lowerAsm, store_arm_reg_eq, save_nzcv_if_eq,
      lower_op_eq _ _ (fun hi e => e.emit_sub_reg_imm_eq (h hi) RAX)
        (fun e => e.emit_sub_reg_reg_eq RAX RCX)]
    simp only [hreg_RAX, emit_all_append, emit_all_cons, emit_all_nil]
  | SAR => exact lower_shift_eq e _ h fun e => e.emit_sar_reg_imm_eq RAX _
  | SHR => exact lower_shift_eq e _ h fun e => e.emit_shr_reg_imm_eq RAX _
  | SHL => exact lower_shift_eq e _ h fun e => e.emit_shl_reg_imm_eq RAX _
  | CMP =>
    simp only [lower_instr, lowerAsm, save_nzcv_if_eq, aluAsm]
    by_cases hi : src2 = IR_IMM ∨ src2 = IR_NONE
    · simp only [if_pos hi, emit_cmp_reg_imm_eq _ (h hi), load_arm_reg_eq, hreg_RAX, breg_RAX,
        emit_all_append, emit_all_cons, emit_all_nil]
    · simp only [if_neg hi, emit_cmp_reg_reg_eq, load_arm_reg_eq, hreg_RAX, hreg_RCX,
        emit_all_append, emit_all_cons, emit_all_nil]
  | TST =>
    simp only [lower_instr, lowerAsm, save_nzcv_if_eq, load_arm_reg_eq, emit_test_reg_reg_eq,
      hreg_RAX, hreg_RCX, emit_all_cons]
  | MOV_IMM =>
    simp only [lower_instr, lowerAsm, emit_mov_reg_imm_eq _ (isReg_arm_reg_to_x86 _),
      store_arm_reg_eq, hostReg, emit_all_cons, emit_all_nil]
  | SET_REG =>
    simp only [lower_instr, lowerAsm]
    by_cases hs : src1 = IR_NONE
    · simp only [if_pos hs, emit_mov_rax, store_arm_reg_eq, hreg_RAX, emit_all_cons, emit_all_nil]
    · simp only [if_neg hs, load_arm_reg_eq, store_arm_reg_eq, hostReg, emit_all_cons, emit_all_nil]
  | LOAD64 | LOAD32 =>
    simp only [lower_instr, lowerAsm, load_arm_reg_eq, store_arm_reg_eq, emit_load_rax, hreg_RAX,
      emit_all_cons, emit_all_nil]
  | STORE64 | STORE32 =>
    simp only [lower_instr, lowerAsm, load_arm_reg_eq, emit_store_rax, hreg_RAX, hreg_RCX,
      emit_all_cons, emit_all_nil]
  | JMP | CALL => simp only [lower_instr, lowerAsm, emit_block_ret_eq]
  | JMP_COND => exact absurd rfl hj
  | RET =>
    simp only [lower_instr, lowerAsm, emit_load_ctx, emit_store_ctx, emit_ret_eq, CTX_PC_OFFSET,
      hreg_RAX, emit_all_cons, emit_all_nil]
  | LOAD_PAIR =>
    simp only [lower_instr, lowerAsm, load_arm_reg_eq, store_arm_reg_eq, emit_load_rax, hreg_RAX,
      hreg_RCX, hreg_RDX, emit_all_cons, emit_all_nil]
  | STORE_PAIR =>
    simp only [lower_instr, lowerAsm, load_arm_reg_eq, emit_store_rax, hreg_RAX, hreg_RCX,
      hreg_RDX, emit_all_cons, emit_all_nil]
  | NOP | BARRIER => simp only [lower_instr, lowerAsm, emit_nop_eq, emit_all_cons, emit_all_nil]
  | _ => exact absurd h not_false

@[simp] theorem patch_offset (pos : ℕ) (v : BitVec 32) :
    (e.patch_dword_at pos v).offset_ = e.offset_ := by
  unfold patch_dword_at
  split_ifs <;> rfl

/-- JMP_COND: the placeholder is patched with the length of the taken path. -/
theorem lower_jmp_cond_appends (ft : Word) (ir : IRInst) :
    Appends e (lower_jmp_cond ft e ir)
      (encodeAll (.jcc ((x86_cc ir.cond ^^^ 1#8).setWidth 4) 19#32 ::
        (blockRet ir.imm ++ blockRet ft))) := by
  have hcc : ∀ c : Byte, 0x80#8 ||| (x86_cc c ^^^ 1#8) = 8#4 ++ (x86_cc c ^^^ 1#8).setWidth 4 := by
    decide
  let head : List Byte := [0x0F#8, 8#4 ++ (x86_cc ir.cond ^^^ 1#8).setWidth 4]
  let taken := encodeAll (blockRet ir.imm)
  let e₁ := e.emit_bytes head
  let e₂ := (e₁.emit_bytes (le32 0#32)).emit_bytes taken
  let rel := BitVec.ofInt 32 ((e₂.offset_ : ℤ) - ((e₁.offset_ : ℤ) + 4))
  have hlow : lower_jmp_cond ft e ir =
      (e₂.patch_dword_at e₁.offset_ rel).emit_bytes (encodeAll (blockRet ft)) := by
    simp only [lower_jmp_cond, emit_dword_eq, emit_block_ret_eq, hcc, offset]
    rfl
  have h₁ : Appends e e₁ head := appends_bytes e head
  have h₂ : Appends e e₂ (head ++ le32 0#32 ++ taken) :=
    (h₁.trans (appends_bytes e₁ _)).trans (appends_bytes _ taken)
  have hlen : head.length = 2 ∧ (le32 0#32).length = 4 ∧ taken.length = 19 := ⟨rfl, rfl, rfl⟩
  have h₃ : Appends e (e₂.patch_dword_at e₁.offset_ rel) (head ++ le32 19#32 ++ taken) := by
    refine ⟨h₂.ext.trans (extends_patch _ _ _), fun hb ho => ?_, fun hb hs hl => ?_⟩
    · rw [patch_offset, h₂.offset hb ho]
      simp
    · simp only [List.length_append, le32_length, hlen] at hl
      have o₁ := h₁.offset hb (by omega)
      have o₂ := h₂.offset hb (by omega)
      simp only [List.length_append, hlen] at o₁ o₂
      have hrel : rel = 19#32 := by
        have : (e₂.offset_ : ℤ) - ((e₁.offset_ : ℤ) + 4) = 19 := by omega
        simp only [rel, this]
        rfl
      have hpre : e₁.offset_ = (e.code ++ head).length := by
        simp only [List.length_append, code_length, hlen]
        omega
      have hcode := h₂.code hb hs (by simp only [List.length_append, hlen]; omega)
      have hsplit : e₂.code = (e.code ++ head) ++ le32 0#32 ++ taken := by
        rw [hcode]
        simp
      rw [hrel, hpre, e₂.patch_code (by rwa [h₂.ext.buf]) (by rwa [h₂.ext.size])
        (by rw [h₂.ext.size]; omega) rfl hsplit]
      simp
  rw [hlow]
  have h := h₃.trans (appends_bytes _ (encodeAll (blockRet ft)))
  simpa [encode, head, taken] using h

theorem lower_instr_appends (ft : Word) {ir : IRInst} (h : Lowerable ir) :
    Appends e (lower_instr ft e ir) (encodeAll (lowerAsm ft ir)) := by
  by_cases hj : ir.op = .JMP_COND
  · have := lower_jmp_cond_appends e ft ir
    simpa only [lower_instr, lowerAsm, hj] using this
  · rw [lower_instr_eq e ft h hj]
    exact appends_bytes e _

theorem lower_all_appends (ft : Word) {l : List IRInst} (h : ∀ ir ∈ l, Lowerable ir) :
    Appends e (l.foldl (lower_instr ft) e) (encodeAll (l.flatMap (lowerAsm ft))) := by
  induction l generalizing e with
  | nil => exact appends_bytes e []
  | cons ir l ih =>
    rw [List.foldl_cons, List.flatMap_cons, encodeAll_append]
    exact (lower_instr_appends e ft (h ir (by simp))).trans (ih _ fun i hi => h i (by simp [hi]))

/-- **Lowering a block** writes the encodings of its instruction list. -/
theorem lower_block_appends {block : IRBlock} (h : ∀ ir ∈ block.instructions, Lowerable ir)
    (ft : Word) :
    Appends e (lower_block block ft e) (encodeAll (blockAsm block.instructions ft)) := by
  unfold lower_block blockAsm
  rw [emit_mov_reg_reg_eq, emit_block_ret_eq, List.cons_append, encodeAll_cons, encodeAll_append,
    hreg_R12, hreg_RDI]
  exact (appends_bytes e _).trans
    ((lower_all_appends _ ft h).trans (appends_bytes _ _))

/-- Without the final return the code is there also where that does not fit. -/
theorem lower_block_front {block : IRBlock} (h : ∀ ir ∈ block.instructions, Lowerable ir) (ft : Word)
    (hb : e.buf_ ≠ 0#64) (hs : e.size_ ≤ 2 ^ 64)
    (hroom : e.offset_ + size (.movRR r12 rdi :: block.instructions.flatMap (lowerAsm ft)) ≤ e.size_) :
    ∃ t, (lower_block block ft e).code =
      e.code ++ encodeAll (.movRR r12 rdi :: block.instructions.flatMap (lowerAsm ft)) ++ t := by
  have happ : Appends e
      (block.instructions.foldl (lower_instr ft) (e.emit_bytes (encode (.movRR r12 rdi))))
      (encodeAll (.movRR r12 rdi :: block.instructions.flatMap (lowerAsm ft))) :=
    (appends_bytes e _).trans (lower_all_appends _ ft h)
  have ho := happ.offset hb (by omega)
  obtain ⟨t, ht⟩ := emit_bytes_prefix _ (by rwa [happ.ext.buf]) (by rw [ho, happ.ext.size]; omega)
    (by rwa [happ.ext.size]) (encodeAll (blockRet ft))
  refine ⟨t, ?_⟩
  rw [← happ.code hb hs hroom, ← ht]
  unfold lower_block
  rw [emit_mov_reg_reg_eq, emit_block_ret_eq, hreg_R12, hreg_RDI]

end Bytes

/-! ## Lengths -/

/-- ADD and SUB that set flags have the longest lowering. -/
theorem lowerAsm_length_le (ft : Word) (ir : IRInst) : (lowerAsm ft ir).length ≤ 31 := by
  have halu : ∀ op c [Decidable c], (aluAsm op c ir).length ≤ 2 := by
    intro op c _
    unfold aluAsm
    split_ifs <;> simp
  have hsave : (saveNzcvIf ir.flags_set).length ≤ 27 := by
    unfold saveNzcvIf
    split_ifs <;> decide
  have hadd := halu .add (ir.src2 = IR_IMM)
  have hsub := halu .sub (ir.src2 = IR_IMM)
  have hcmp := halu .cmp (ir.src2 = IR_IMM ∨ ir.src2 = IR_NONE)
  unfold lowerAsm
  dsimp only
  split
  all_goals try split_ifs
  all_goals
    simp only [List.length_append, List.length_cons, List.length_nil, shiftAsm, blockRet]
    omega

theorem blockAsm_length_le (ft : Word) (irs : List IRInst) :
    (blockAsm irs ft).length ≤ 31 * irs.length + 4 := by
  have hall : (irs.flatMap (lowerAsm ft)).length ≤ 31 * irs.length := by
    induction irs with
    | nil => exact Nat.le_refl 0
    | cons ir irs ih =>
      have := lowerAsm_length_le ft ir
      rw [List.flatMap_cons, List.length_append, List.length_cons]
      omega
  simp only [blockAsm, List.length_cons, List.length_append, blockRet, List.length_nil]
  omega

end IRLowering

end Bbarm64
