import Bbarm64.Engine.FlagFrame
import Bbarm64.Ir.FlagMerging

/-!
# Engine.IrSim — lowered code computes what the IR says

For the IR of the fragment (`Plain`): ADD and SUB, shifts by a constant, CMP, TST, MOV_IMM, SET_REG, the
64-bit LOAD and STORE, LOAD_PAIR, JMP, CALL, NOP and BARRIER, on registers below 32, with a constant of
ADD and SUB below 2^31, one of CMP below 2^32, and displacements that 32 bits sign-extend to.  Every other
opcode is outside.

`IrSim` relates a state of the IR semantics to the machine state in front of a lowered instruction: the
guest registers are in the context, and guest memory is the memory of the process without the bytes the
block uses for itself.  One instruction keeps it (`IrSim.exec`), so a block of them whose code fits the
buffer leaves what the IR semantics gives, for every guest state whose accesses stay off those bytes
(`lower_block_simulates`).
-/

namespace Bbarm64

open X86 ARM64Decoder IRBuilder IROptimizer IRLowering

namespace ExecEngine

/-! ## The fragment -/

/-- The number of a guest register, SP included. -/
def IsGuest (r : IRReg) : Prop := r.toNat < 32

instance (r : IRReg) : Decidable (IsGuest r) := inferInstanceAs (Decidable (_ < _))

/-- The displacement fits the 32 bits of the host instruction. -/
def Disp (v : Word) : Prop := (v.setWidth 32).signExtend 64 = v

instance (v : Word) : Decidable (Disp v) := inferInstanceAs (Decidable (_ = _))

/-- The lowering computes what the IR says, as far as `Lowerable` goes (constants of 32 bits, no shifts
by a register).  What it does not, of the IR of decoded words, is RET, which takes the address in `lr`,
JMP_COND, which tests the host flags, a 32-bit access, which is made with 64 bits, and STORE_PAIR, whose
second register is not in the IR.  The other opcodes (MUL, AND, OR, XOR, CMOV, the extensions, the 8 and
16-bit accesses, vectors, SYSCALL) come from no decoded word and are left out as well. -/
def Exact (ir : IRInst) : Prop :=
  match ir.op with
  | .ADD | .SUB => ir.src2 = IR_IMM → Disp ir.imm
  | .LOAD64 => Disp ir.imm
  | .STORE64 => ir.src2 ≠ IR_IMM ∧ Disp ir.imm
  | .LOAD_PAIR => ir.src2 ≠ IR_IMM ∧ Disp ir.imm ∧ Disp (ir.imm + 8#64)
  | .SAR | .SHR | .SHL | .CMP | .TST | .MOV_IMM | .SET_REG | .NOP | .BARRIER | .JMP | .CALL => True
  | _ => False

/-- An instruction of the fragment that the lowering accepts. -/
structure Plain (ir : IRInst) : Prop where
  lowerable : Lowerable ir
  dest : IsGuest ir.dest
  src1 : IsGuest ir.src1
  src2 : ir.src2 ≠ IR_IMM → IsGuest ir.src2
  exact : Exact ir

theorem u8_toNat {r : IRReg} (h : IsGuest r) : (u8 r).toNat = r.toNat := by
  have h : r.toNat < 32 := h
  rw [u8, BitVec.toNat_setWidth]
  omega

theorem isArm_of_isGuest {r : IRReg} (h : IsGuest r) : IsArm (u8 r) := by
  show (u8 r).toNat < 32
  rw [u8_toNat h]
  exact h

/-! ## The bytes of the block -/

/-- The context object, and the stack slot of `pushfq`. -/
def Private (c sp a : Word) : Prop :=
  (a - c).toNat < 8 * CPUContext.words ∨ (a - (sp - 8#64)).toNat < 8

/-- The `k` bytes at `a` are none of those. -/
def Public (c sp a : Word) (k : ℕ) : Prop := ∀ i < k, ¬ Private c sp (a + BitVec.ofNat 64 i)

/-- The accesses of the instruction are to guest memory. -/
def AccessesPublic (c sp : Word) (ir : IRInst) (g : IRState) : Prop :=
  let a := g.reg ir.src1 + ir.imm
  match ir.op with
  | .LOAD64 | .STORE64 => Public c sp a 8
  | .LOAD_PAIR => Public c sp a 8 ∧ Public c sp (a + 8#64) 8
  | _ => True

/-- So are those of the whole run. -/
def RunsPublic (c sp : Word) (other : IRInst → IRState → IRState) : List IRInst → IRState → Prop
  | [], _ => True
  | ir :: rest, g => AccessesPublic c sp ir g ∧
      (ir.exit? g = none → RunsPublic c sp other rest (ir.exec other g))

/-! ## The relation -/

/-- The words of the context that the block leaves alone: those but for the registers and `pc`, the
flags, and the scratch space of `save_nzcv`. -/
def Retained (i : ℕ) : Prop := i = 33 ∨ 34 < i ∧ i < 64 ∨ 66 < i ∧ i < CPUContext.words

/-- The memory `m` stands for the IR state `g`: the context at `c` holds the registers, its other words
are those of `ctx`, and guest memory is that of `g`. -/
structure Represents (c sp : Word) (ctx : CPUContext) (g : IRState) (m : Mem) : Prop where
  reg : ∀ r, IsGuest r → X86.word m c (8 * r.toNat) = g.reg r
  rest : ∀ i, Retained i → X86.word m c (8 * i) = ctx.word i
  mem : ∀ a, ¬ Private c sp a → m a = g.mem a

/-- The IR state that the memory stands for. -/
def guestIr (c : Word) (f : A64.Nzcv) (m : Mem) : IRState := ⟨fun r => X86.word m c (8 * r.toNat), f, m⟩

theorem represents_guestIr (c sp : Word) (f : A64.Nzcv) (m : Mem) :
    Represents c sp ⟨fun i => X86.word m c (8 * i)⟩ (guestIr c f m) m :=
  ⟨fun _ _ => rfl, fun _ _ => rfl, fun _ _ => rfl⟩

/-- Inside a block. -/
structure IrSim (c sp : Word) (ctx : CPUContext) (g : IRState) (s : State) : Prop
    extends Represents c sp ctx g s.mem where
  r12 : s.reg r12 = c
  rsp : s.reg rsp = sp

section Relation

variable {c sp : Word} {ctx : CPUContext} {g g' : IRState} {s s' : State}

/-- The flags of the IR state do not matter, nor do the registers of the host but for two. -/
theorem IrSim.congr (h : IrSim c sp ctx g s) (hr12 : s'.reg X86.r12 = s.reg X86.r12)
    (hrsp : s'.reg X86.rsp = s.reg X86.rsp) (hm : s'.mem = s.mem) (hg : SameButFlags g' g) :
    IrSim c sp ctx g' s' := by
  obtain ⟨hreg, hmem⟩ := hg
  refine ⟨⟨?_, ?_, ?_⟩, hr12.trans h.r12, hrsp.trans h.rsp⟩
  · rw [hm, hreg]
    exact h.reg
  · rw [hm]
    exact h.rest
  · rw [hm, hmem]
    exact h.mem

theorem IrSim.setReg (h : IrSim c sp ctx g s) {x : Reg} (hx : Free x) (v : Word) :
    IrSim c sp ctx g (s.setReg x v) :=
  h.congr (by rw [setReg_reg, if_neg hx.1.symm]) (by rw [setReg_reg, if_neg hx.2.symm]) rfl ⟨rfl, rfl⟩

/-- A load of a guest register. -/
theorem IrSim.ldArm (h : IrSim c sp ctx g s) {r : IRReg} (hr : IsGuest r) (x : Reg) :
    exec (ldArm (u8 r) x) s = s.setReg x (g.reg r) := by
  rw [exec_ldArm h.r12 (isArm_of_isGuest hr), u8_toNat hr, h.reg r hr]

/-- A store to one. -/
theorem IrSim.stArm (h : IrSim c sp ctx g s) {r : IRReg} (hr : IsGuest r) {x : Reg} {v : Word}
    (hv : s.reg x = v) : IrSim c sp ctx (g.setReg r v) (exec (stArm x (u8 r)) s) := by
  have hw : CPUContext.words = 104 := rfl
  have hlt : r.toNat < 32 := hr
  have hmem := exec_stArm_mem h.r12 (isArm_of_isGuest hr) x
  rw [u8_toNat hr, hv] at hmem
  refine ⟨⟨fun q hq => ?_, fun i hi => ?_, fun a ha => ?_⟩, h.r12, h.rsp⟩
  · have hq' : q.toNat < 32 := hq
    rw [hmem, IRState.setReg]
    dsimp only
    split_ifs with he
    · rw [he, word_write_same]
    · have hne : q.toNat ≠ r.toNat := fun hn => he (BitVec.eq_of_toNat_eq hn)
      rw [word_write_ne (by omega) (by omega) (by omega), h.reg q hq]
  · have hi' : 33 ≤ i ∧ i < 104 := by
      unfold Retained at hi
      omega
    rw [hmem, word_write_ne (by omega) (by omega) (by omega), h.rest i hi]
  · rw [hmem, ctxOutside_write s.mem c (by omega) v a (Nat.le_of_not_lt fun hc => ha (.inl hc))]
    exact h.mem a ha

theorem Public.clear {a : Word} {k : ℕ} (h : Public c sp a k) : Clear c a k :=
  fun i hi => Nat.le_of_not_lt fun hc => h i hi (.inl hc)

theorem IrSim.read64 (h : IrSim c sp ctx g s) {a : Word} (ha : Public c sp a 8) :
    X86.read64 s.mem a = g.load64 a := read64_congr fun i hi => h.mem _ (ha i hi)

/-- A load from guest memory, at the address in RAX. -/
theorem IrSim.loadGuest (h : IrSim c sp ctx g s) {v d : Word} (hv : s.reg rax = v) (hd : Disp d)
    (ha : Public c sp (v + d) 8) (x : Reg) :
    exec (.load x rax (d.setWidth 32)) s = s.setReg x (g.load64 (v + d)) := by
  rw [exec, State.ea, hv, hd, h.read64 ha]

/-- A store to guest memory. -/
theorem IrSim.write64 (h : IrSim c sp ctx g s) {a : Word} (ha : Public c sp a 8) (v : Word) :
    IrSim c sp ctx (g.store 8 a v) (s.setMem (writeN 8 s.mem a v)) := by
  have hw : CPUContext.words = 104 := rfl
  refine ⟨⟨fun q hq => ?_, fun i hi => ?_, fun b hb => ?_⟩, h.r12, h.rsp⟩
  · have hq' : q.toNat < 32 := hq
    rw [setMem_mem, ha.clear.word _ _ (by omega)]
    exact h.reg q hq
  · have hi' : i < 104 := by
      unfold Retained at hi
      omega
    rw [setMem_mem, ha.clear.word _ _ (by omega)]
    exact h.rest i hi
  · show writeN 8 s.mem a v b = writeN 8 g.mem a v b
    unfold writeN
    rw [h.mem b hb]

/-- Saving the flags. -/
theorem IrSim.saveNzcvIf (h : IrSim c sp ctx g s) (hstack : Clear c (sp - 8#64) 8) (set : Bool) :
    IrSim c sp ctx g (execAll (saveNzcvIf set) s) ∧
      (execAll (IRLowering.saveNzcvIf set) s).reg rax = s.reg rax := by
  cases set with
  | false => exact ⟨h, rfl⟩
  | true =>
    have hw : CPUContext.words = 104 := rfl
    have hclear : StackClear s c := by
      rw [StackClear, h.rsp]
      exact hstack
    have hreg := saveNzcv_reg h.r12 hclear
    have hmem := saveNzcv_mem h.r12
    have hword : ∀ i < CPUContext.words, X86.word (execAll saveNzcv s).mem c (8 * i) = _ :=
      fun i hi => (congrArg (X86.word · _ _) hmem).trans (savedMem_word hclear hi)
    refine ⟨⟨⟨fun q hq => ?_, fun i hi => ?_, fun a ha => ?_⟩, (hreg _).trans h.r12,
      (hreg _).trans h.rsp⟩, hreg rax⟩
    · have hq' : q.toNat < 32 := hq
      have hq := hword q.toNat (by omega)
      rw [if_neg (by omega), if_neg (by omega), if_neg (by omega), if_neg (by omega)] at hq
      exact hq.trans (h.reg q ‹_›)
    · have hi' : (i = 33 ∨ 34 < i ∧ i < 64 ∨ 66 < i) ∧ i < 104 := by
        unfold Retained at hi
        omega
      have hq := hword i (by omega)
      rw [if_neg (by omega), if_neg (by omega), if_neg (by omega), if_neg (by omega)] at hq
      exact hq.trans (h.rest i hi)
    · have hctx : 8 * CPUContext.words ≤ (a - c).toNat := Nat.le_of_not_lt fun hc => ha (.inl hc)
      have hslot : 8 ≤ (a - (sp - 8#64)).toNat := Nat.le_of_not_lt fun hc => ha (.inr hc)
      have hout : ∀ (m : Mem) (k : ℕ) (v : Word), k < CPUContext.words →
          writeN 8 m (off c (8 * k)) v a = m a := fun m k v hk => ctxOutside_write m c hk v a hctx
      rw [show (execAll (IRLowering.saveNzcvIf true) s).mem = savedMem s c from hmem, savedMem, headMem,
        hout _ 34 _ (by decide), h.rsp, writeN_of_le hslot, hout _ 66 _ (by decide),
        hout _ 65 _ (by decide), hout _ 64 _ (by decide)]
      exact h.mem a ha

end Relation

/-! ## One instruction -/

section Instructions

variable {c sp : Word} {ctx : CPUContext} {g : IRState} {s : State} {ir : IRInst}
variable (other : IRInst → IRState → IRState)

/-- The instruction writes neither memory nor R12 nor RSP. -/
def Scratch (i : Instr) : Prop := i.stores = false ∧ ∀ q ∈ i.writes, IRLowering.Free q

theorem scratch_ldArm (r : Byte) {x : Reg} (hx : IRLowering.Free x) :
    Scratch (IRLowering.ldArm r x) :=
  ⟨rfl, List.forall_mem_singleton.mpr hx⟩

theorem scratch_aluI (op : AluOp) (v : BitVec 32) : Scratch (.aluI op rax v) :=
  ⟨rfl, List.forall_mem_singleton.mpr free_rax⟩

theorem scratch_alu (op : AluOp) : Scratch (.alu op rax rcx) :=
  ⟨rfl, List.forall_mem_singleton.mpr free_rax⟩

theorem scratch_test : Scratch (.test rax rcx) := ⟨rfl, List.forall_mem_nil _⟩

theorem scratch_nop : Scratch .nop := ⟨rfl, nofun⟩

theorem scratch_aluAsm (op : AluOp) (p : Prop) [Decidable p] : ∀ i ∈ aluAsm op p ir, Scratch i := by
  unfold aluAsm
  split_ifs
  · simpa using scratch_aluI op _
  · simpa using ⟨scratch_ldArm _ free_rcx, scratch_alu op⟩

theorem IrSim.frame (h : IrSim c sp ctx g s) {is : List Instr} (his : ∀ i ∈ is, Scratch i) :
    IrSim c sp ctx g (execAll is s) := by
  have hmem : ∀ s, (execAll is s).mem = s.mem := by
    induction is with
    | nil => exact fun _ => rfl
    | cons i is ih =>
      intro s
      rw [execAll_cons, ih fun j hj => his j (by simp [hj]), exec_mem (his i (by simp)).1]
  exact h.congr (execAll_reg_of_notMem (fun i hi hq => ((his i hi).2 _ hq).1 rfl) s)
    (execAll_reg_of_notMem (fun i hi hq => ((his i hi).2 _ hq).2 rfl) s) (hmem s) ⟨rfl, rfl⟩

/-- The operands of ADD and SUB, and the operation. -/
theorem IrSim.alu (h : IrSim c sp ctx g s) (hp : Plain ir) (op : AluOp) (hop : op ≠ .cmp)
    (himm : ir.src2 = IR_IMM → Disp ir.imm) :
    let s' := execAll (IRLowering.ldArm (u8 ir.src1) rax :: aluAsm op (ir.src2 = IR_IMM) ir) s
    IrSim c sp ctx g s' ∧ s'.reg rax = op.eval (g.reg ir.src1) (g.operand ir) := by
  have hne : rax ≠ rcx := by decide
  have h₁ := h.setReg free_rax (g.reg ir.src1)
  dsimp only
  rw [execAll_cons, h.ldArm hp.src1]
  unfold aluAsm IRState.operand
  by_cases hi : ir.src2 = IR_IMM
  · rw [if_pos hi, if_pos hi]
    refine ⟨h₁.frame (by simpa using scratch_aluI op _), ?_⟩
    have he : (ir.imm.setWidth 32).signExtend 64 = ir.imm := himm hi
    simp only [execAll_cons, execAll_nil, exec, execAlu, if_neg hop, he, setReg_reg, if_true]
  · rw [if_neg hi, if_neg hi]
    refine ⟨h₁.frame (by simpa using ⟨scratch_ldArm _ free_rcx, scratch_alu op⟩), ?_⟩
    rw [execAll_cons, h₁.ldArm (hp.src2 hi)]
    simp only [execAll_cons, execAll_nil, exec, execAlu, if_neg hop, setReg_reg, if_true, if_neg hne]

/-- ADD and SUB. -/
theorem IrSim.arith (h : IrSim c sp ctx g s) (hstack : Clear c (sp - 8#64) 8) (hp : Plain ir)
    (op : AluOp) (hop : op ≠ .cmp) (himm : ir.src2 = IR_IMM → Disp ir.imm) (f : A64.Nzcv) :
    IrSim c sp ctx ((g.setFlags ir.flags_set f).setReg ir.dest
        (op.eval (g.reg ir.src1) (g.operand ir)))
      (execAll (IRLowering.ldArm (u8 ir.src1) rax :: aluAsm op (ir.src2 = IR_IMM) ir ++
        IRLowering.saveNzcvIf ir.flags_set ++ [IRLowering.stArm rax (u8 ir.dest)]) s) := by
  obtain ⟨h₁, hrax⟩ := h.alu hp op hop himm
  rw [execAll_append, execAll_append]
  generalize execAll (IRLowering.ldArm (u8 ir.src1) rax :: aluAsm op (ir.src2 = IR_IMM) ir) s = s₁
    at h₁ hrax ⊢
  obtain ⟨h₂, hrax₂⟩ := h₁.saveNzcvIf hstack ir.flags_set
  have h₃ := h₂.congr rfl rfl rfl (setFlags_sameButFlags g ir.flags_set f)
  exact h₃.stArm hp.dest (hrax₂.trans hrax)

/-- CMP and TST. -/
theorem IrSim.compare (h : IrSim c sp ctx g s) (hstack : Clear c (sp - 8#64) 8) {is : List Instr}
    (his : ∀ i ∈ is, Scratch i) (set : Bool) (f : A64.Nzcv) :
    IrSim c sp ctx (g.setFlags set f) (execAll (is ++ IRLowering.saveNzcvIf set) s) := by
  rw [execAll_append]
  exact ((h.frame his).saveNzcvIf hstack set).1.congr rfl rfl rfl (setFlags_sameButFlags g _ f)

/-- The shifts. -/
theorem IrSim.shift (h : IrSim c sp ctx g s) (hp : Plain ir) (himm : ir.src2 = IR_IMM)
    (op : ShiftOp) :
    IrSim c sp ctx (g.setReg ir.dest (op.eval (g.reg ir.src1) ((g.operand ir).toNat % 64)))
      (execAll (shiftAsm op ir) s) := by
  have hb : g.operand ir = ir.imm := if_pos himm
  have hmod : (ir.imm.setWidth 8).toNat % 64 = ir.imm.toNat % 64 := by
    rw [BitVec.toNat_setWidth]
    omega
  have h₁ := h.setReg free_rax (g.reg ir.src1)
  have hfree : Scratch (.shift op rax (ir.imm.setWidth 8)) :=
    ⟨rfl, List.forall_mem_singleton.mpr free_rax⟩
  have h₂ := h₁.frame (List.forall_mem_singleton.mpr hfree)
  rw [shiftAsm, execAll_cons, h.ldArm hp.src1, hb]
  refine h₂.stArm hp.dest ?_
  show (execShift op rax _ _).reg rax = _
  rw [execShift, hmod]
  split_ifs with h0
  · rw [h0]
    cases op <;> simp [ShiftOp.eval]
  · simp

/-- SET_REG moves a register by way of the host register that the emitter gives it. -/
theorem IrSim.move (h : IrSim c sp ctx g s) (hp : Plain ir) {x : Reg} (hx : Free x) :
    IrSim c sp ctx (g.setReg ir.dest (g.reg ir.src1))
      (execAll [IRLowering.ldArm (u8 ir.src1) x, IRLowering.stArm x (u8 ir.dest)] s) := by
  rw [execAll_cons, h.ldArm hp.src1]
  exact (h.setReg hx _).stArm hp.dest (by simp)

/-- MOV_IMM, and SET_REG without a source. -/
theorem IrSim.movImm (h : IrSim c sp ctx g s) (hp : Plain ir) {x : Reg} (hx : Free x) :
    IrSim c sp ctx (g.setReg ir.dest ir.imm)
      (execAll [.movRI x ir.imm, IRLowering.stArm x (u8 ir.dest)] s) := by
  rw [execAll_cons]
  exact (h.setReg hx ir.imm).stArm hp.dest (by simp)

theorem IrSim.load (h : IrSim c sp ctx g s) (hp : Plain ir) (hd : Disp ir.imm)
    (ha : Public c sp (g.reg ir.src1 + ir.imm) 8) :
    IrSim c sp ctx (g.setReg ir.dest (g.load64 (g.reg ir.src1 + ir.imm)))
      (execAll [IRLowering.ldArm (u8 ir.src1) rax, .load rax rax (ir.imm.setWidth 32),
        IRLowering.stArm rax (u8 ir.dest)] s) := by
  have h₁ := h.setReg free_rax (g.reg ir.src1)
  have h₂ := h₁.setReg free_rax (g.load64 (g.reg ir.src1 + ir.imm))
  rw [execAll_cons, h.ldArm hp.src1, execAll_cons, h₁.loadGuest (by simp) hd ha]
  exact h₂.stArm hp.dest (by simp)

theorem IrSim.store (h : IrSim c sp ctx g s) (hp : Plain ir) (hi : ir.src2 ≠ IR_IMM)
    (hd : Disp ir.imm) (ha : Public c sp (g.reg ir.src1 + ir.imm) 8) :
    IrSim c sp ctx (g.store 8 (g.reg ir.src1 + ir.imm) (g.reg ir.src2))
      (execAll [IRLowering.ldArm (u8 ir.src1) rax, IRLowering.ldArm (u8 ir.src2) rcx,
        .store rax (ir.imm.setWidth 32) rcx] s) := by
  have h₁ := h.setReg free_rax (g.reg ir.src1)
  have h₂ := h₁.setReg free_rcx (g.reg ir.src2)
  have hea : ((s.setReg rax (g.reg ir.src1)).setReg rcx (g.reg ir.src2)).ea rax
      (ir.imm.setWidth 32) = g.reg ir.src1 + ir.imm := by
    rw [State.ea, hd]
    rfl
  rw [execAll_cons, h.ldArm hp.src1, execAll_cons, h₁.ldArm (hp.src2 hi), execAll_cons, exec, hea]
  exact h₂.write64 ha _

/-- Both words are read before the first register is written. -/
theorem IrSim.loadPair (h : IrSim c sp ctx g s) (hp : Plain ir) (hi : ir.src2 ≠ IR_IMM)
    (hd : Disp ir.imm) (hd8 : Disp (ir.imm + 8#64)) (ha : Public c sp (g.reg ir.src1 + ir.imm) 8)
    (ha8 : Public c sp (g.reg ir.src1 + ir.imm + 8#64) 8) :
    IrSim c sp ctx ((g.setReg ir.dest (g.load64 (g.reg ir.src1 + ir.imm))).setReg ir.src2
        (g.load64 (g.reg ir.src1 + ir.imm + 8#64)))
      (execAll [IRLowering.ldArm (u8 ir.src1) rax, .load rcx rax (ir.imm.setWidth 32),
        .load rdx rax (ir.imm.setWidth 32 + 8#32), IRLowering.stArm rcx (u8 ir.dest),
        IRLowering.stArm rdx (u8 ir.src2)] s) := by
  have h₁ := h.setReg free_rax (g.reg ir.src1)
  have h₂ := h₁.setReg free_rcx (g.load64 (g.reg ir.src1 + ir.imm))
  have h₃ := h₂.setReg free_rdx (g.load64 (g.reg ir.src1 + ir.imm + 8#64))
  have hdisp : ir.imm.setWidth 32 + 8#32 = (ir.imm + 8#64).setWidth 32 := by
    rw [BitVec.setWidth_add _ _ (by decide)]
    rfl
  rw [BitVec.add_assoc] at ha8 h₃ ⊢
  rw [execAll_cons, h.ldArm hp.src1, execAll_cons, h₁.loadGuest (by simp) hd ha, execAll_cons, hdisp,
    h₂.loadGuest (by rfl) hd8 ha8]
  have h₄ := h₃.stArm hp.dest (x := rcx) (v := g.load64 (g.reg ir.src1 + ir.imm)) (by rfl)
  exact h₄.stArm (hp.src2 hi) (by rfl)

/-- **One instruction** keeps the relation, case by case over the opcodes. -/
theorem IrSim.exec (h : IrSim c sp ctx g s) (hstack : Clear c (sp - 8#64) 8) (hp : Plain ir)
    (hr : ¬ Returning ir.op) (ha : AccessesPublic c sp ir g) (ft : Word) :
    IrSim c sp ctx (ir.exec other g) (execAll (lowerAsm ft ir) s) := by
  have hl := hp.lowerable
  have he := hp.exact
  unfold Lowerable at hl
  unfold Exact at he
  unfold AccessesPublic at ha
  unfold IRInst.exec lowerAsm
  cases ho : ir.op <;> simp only [ho] at hl he ha ⊢ <;> try exact he.elim
  case ADD => exact h.arith hstack hp .add (by decide) he _
  case SUB => exact h.arith hstack hp .sub (by decide) he _
  case SAR => exact h.shift hp hl .sar
  case SHR => exact h.shift hp hl .shr
  case SHL => exact h.shift hp hl .shl
  case CMP =>
    refine h.compare hstack (fun i hi => ?_) _ _
    rcases List.mem_cons.mp hi with rfl | hi
    · exact scratch_ldArm _ free_rax
    · exact scratch_aluAsm .cmp _ i hi
  case TST =>
    have his : ∀ i ∈ [IRLowering.ldArm (u8 ir.src1) rax, IRLowering.ldArm (u8 ir.src2) rcx,
        .test rax rcx], Scratch i := by
      simpa using ⟨scratch_ldArm _ free_rax, scratch_ldArm _ free_rcx, scratch_test⟩
    exact h.compare hstack his _ _
  case MOV_IMM => exact h.movImm hp (free_hostReg _)
  case SET_REG =>
    split_ifs with hs
    · exact h.movImm hp free_rax
    · exact h.move hp (free_hostReg _)
  case LOAD64 => exact h.load hp he ha
  case STORE64 => exact h.store hp he.1 he.2 ha
  case LOAD_PAIR => exact h.loadPair hp he.1 he.2.1 he.2.2 ha.1 ha.2
  case NOP => exact h.frame (List.forall_mem_singleton.mpr scratch_nop)
  case BARRIER => exact h.frame (List.forall_mem_singleton.mpr scratch_nop)
  all_goals exact absurd (by simp [Returning, ho]) hr

end Instructions

/-! ## A block -/

/-- The address a block leaves for. -/
def target (ft : Word) : Exit → Word
  | .fallthrough => ft
  | .jump t | .call t | .ret t => t
  | .cond taken t => if taken then t else ft

section Blocks

variable {c sp : Word} {ctx : CPUContext} {g : IRState} {s : State} {irs : List IRInst}
variable {other : IRInst → IRState → IRState}

theorem exit?_none {ir : IRInst} (hr : ¬ Returning ir.op) (g : IRState) : ir.exit? g = none := by
  unfold Returning at hr
  unfold IRInst.exit?
  cases ho : ir.op <;> simp [ho] at hr ⊢

/-- The way out writes word 32, which neither holds a guest register nor is kept. -/
theorem IrSim.leave (h : IrSim c sp ctx g s) (pc : Word) :
    Represents c sp ctx g (setPc pc s).mem ∧ X86.word (setPc pc s).mem c 256 = pc := by
  have hw : CPUContext.words = 104 := rfl
  refine ⟨⟨fun r hr => ?_, fun i hi => ?_, fun a ha => ?_⟩, setPc_pc h.r12 pc⟩
  · have hr' : r.toNat < 32 := hr
    rw [setPc_word h.r12 pc (by omega) (by omega), h.reg r hr]
  · have hi' : 33 ≤ i ∧ i < 104 := by
      unfold Retained at hi
      omega
    rw [setPc_word h.r12 pc (by omega) (by omega), h.rest i hi]
  · rw [setPc_mem h.r12, ctxOutside_write s.mem c (by omega) pc a
      (Nat.le_of_not_lt fun hc => ha (.inl hc))]
    exact h.mem a ha

/-- **A run**, by induction over the IR: each instruction keeps the relation, and the one that leaves
the block leaves it for the target of the IR. -/
theorem IrSim.run (h : IrSim c sp ctx g s) (hstack : Clear c (sp - 8#64) 8)
    (hp : ∀ ir ∈ irs, Plain ir) (ha : RunsPublic c sp other irs g) (ft : Word) :
    Represents c sp ctx (IRBlock.execFrom other irs g).1 (runIr ft irs s).mem ∧
      X86.word (runIr ft irs s).mem c 256 = target ft (IRBlock.execFrom other irs g).2 := by
  induction irs generalizing g s with
  | nil => exact h.leave ft
  | cons ir rest ih =>
    have hir := hp ir (by simp)
    obtain ⟨hacc, hrest⟩ := ha
    unfold runIr IRBlock.execFrom
    by_cases hr : Returning ir.op
    · rw [if_pos hr]
      have he := hir.exact
      rcases hr with ho | ho | ho | ho
      · rw [exitIr_jump (.inl ho), show ir.exit? g = some (.jump ir.imm) by simp [IRInst.exit?, ho]]
        exact h.leave ir.imm
      · rw [exitIr_jump (.inr ho), show ir.exit? g = some (.call ir.imm) by simp [IRInst.exit?, ho]]
        exact h.leave ir.imm
      · simp [Exact, ho] at he
      · simp [Exact, ho] at he
    · have hnone := exit?_none hr g
      rw [if_neg hr, hnone]
      exact ih (h.exec other hstack hir hr hacc ft) (fun i hi => hp i (by simp [hi])) (hrest hnone)

/-- **Lowering keeps the meaning of a block**: the code of `lower_block` in a fresh buffer returns, and
the context and guest memory are what the IR semantics makes of them, with `pc` at the target. -/
theorem lower_block_simulates {block : IRBlock} (hp : ∀ ir ∈ block.instructions, Plain ir) (ft : Word)
    {host_code : Word} (hb : host_code ≠ 0#64) {n : ℕ} (hn : n ≤ 2 ^ 64)
    (hsize : size (blockAsm block.instructions ft) ≤ n) (host : Mem)
    (hstack : Clear (s.reg rdi) (s.reg X86.rsp - 8#64) 8)
    (h : Represents (s.reg rdi) (s.reg X86.rsp) ctx g s.mem)
    (ha : RunsPublic (s.reg rdi) (s.reg X86.rsp) other block.instructions g) :
    ∃ s', Returns (lower_block block ft (.set_buffer host_code n host)).code s s' ∧
      Represents (s.reg rdi) (s.reg X86.rsp) ctx (block.exec other g).1 s'.mem ∧
      X86.word s'.mem (s.reg rdi) 256 = target ft (block.exec other g).2 := by
  have happ := lower_block_appends (.set_buffer host_code n host)
    (fun ir hir => (hp ir hir).lowerable) ft
  have henter : IrSim (s.reg rdi) (s.reg X86.rsp) ctx g (enter s) := ⟨h, enter_r12 s, enter_rsp s⟩
  rw [happ.code_fresh hb hn hsize]
  exact ⟨_, blockAsm_returns ft _ s, henter.run hstack hp ha ft⟩

/-- `x1 := x2 + 5`, with the flags, `[x1 + 0x100] := x2`, and a jump. -/
def add_store_jump : IRBlock where
  instructions := [
    { op := .ADD, dest := 1#16, src1 := 2#16, src2 := IR_IMM, imm := 5#64, flags_set := true },
    { op := .STORE64, src1 := 1#16, src2 := 2#16, imm := 0x100#64 },
    { op := .JMP, imm := 0x5000#64 }]

/-- The context at 0x8000, with 7 in `x2`, and the stack at 0x4008. -/
def seven_in_x2 : State :=
  { (State.cleared.setReg rdi 0x8000#64).setReg X86.rsp 0x4008#64 with
    mem := writeN 8 (fun _ => 0#8) (off 0x8000#64 16) 7#64 }

/-- The IR state that it represents, without flags. -/
def seven_ir : IRState := guestIr 0x8000#64 (.ofWord 0#64) seven_in_x2.mem

theorem seven_in_x2_clear : Clear (seven_in_x2.reg rdi) (seven_in_x2.reg X86.rsp - 8#64) 8 := by
  unfold Clear
  decide

/-- The low addresses are neither in the context nor on the stack. -/
theorem public_low : Public 0x8000#64 0x4008#64 12#64 8 ∧ Public 0x8000#64 0x4008#64 0x10C#64 8 := by
  unfold Public Private
  decide

theorem lower_block_simulates_add_store_jump :
    ∃ s', Returns (lower_block add_store_jump 0x100C#64
        (.set_buffer 0x20000#64 4096 fun _ => 0#8)).code seven_in_x2 s' ∧
      Represents 0x8000#64 0x4008#64 ⟨fun i => X86.word seven_in_x2.mem 0x8000#64 (8 * i)⟩
        (add_store_jump.exec (fun _ g => g) seven_ir).1 s'.mem ∧
      X86.word s'.mem 0x8000#64 256 =
        target 0x100C#64 (add_store_jump.exec (fun _ g => g) seven_ir).2 := by
  obtain ⟨h0, h1, h2⟩ : IsGuest 0#16 ∧ IsGuest 1#16 ∧ IsGuest 2#16 := by decide
  have hplain : ∀ ir ∈ add_store_jump.instructions, Plain ir := by
    simp only [add_store_jump, List.forall_mem_cons]
    have hadd : Disp 5#64 := by decide
    have hstore : Disp 0x100#64 := by decide
    exact ⟨⟨fun _ => by decide, h1, h2, fun h => absurd rfl h, fun _ => hadd⟩,
      ⟨trivial, h0, h1, fun _ => h2, by decide, hstore⟩,
      ⟨trivial, h0, h0, fun _ => h0, trivial⟩, List.forall_mem_nil _⟩
  have hsize : size (blockAsm add_store_jump.instructions 0x100C#64) ≤ 4096 := by
    decide +kernel
  have hpublic :
      RunsPublic 0x8000#64 0x4008#64 (fun _ g => g) add_store_jump.instructions seven_ir := by
    refine ⟨trivial, fun _ => ⟨?_, fun _ => ⟨trivial, fun _ => trivial⟩⟩⟩
    have haddr : seven_ir.reg 2#16 + 5#64 + 0x100#64 = 0x10C#64 := by decide
    show Public _ _ (seven_ir.reg 2#16 + 5#64 + 0x100#64) 8
    rw [haddr]
    exact public_low.2
  exact lower_block_simulates hplain 0x100C#64 (by decide) (by decide) hsize _ seven_in_x2_clear
    (represents_guestIr _ _ _ _) hpublic

end Blocks

end ExecEngine

end Bbarm64
