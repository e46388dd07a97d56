import Bbarm64.Engine.Compare

/-!
# Engine.Sources — the source registers of MOV and CMP

An IR operand 0 is both `x0` and `IR_NONE`.  The lowering of SET_REG takes it for an immediate in
its first source, and that of CMP in its second one, so with `rm = 0` the block moves or compares the
immediate of the IR, which is zero.
-/

namespace Bbarm64

open X86 ARM64Decoder IRBuilder IRLowering

namespace ExecEngine

/-! ## The code -/

def movIrReg (d : DecodedInstr) : IRInst where
  op := .SET_REG
  dest := reg d.rd
  src1 := reg d.rm
  size := if d.size ≠ 0#8 then 8#8 else 4#8

def cmpIr (d : DecodedInstr) : IRInst where
  op := .CMP
  src1 := reg d.rn
  src2 := reg d.rm
  size := if d.size ≠ 0#8 then 8#8 else 4#8
  flags_set := true

section Code

variable {d : DecodedInstr} {s : State} {c : Word} {ctx : CPUContext}

theorem instrIr_mov (hop : d.opcode = 0x20#8) (pc : Word) : instrIr d pc = [movIrReg d] := by
  simp [instrIr, build_instr, hop, movIrReg, IRBlock.push_back]

theorem instrIr_cmp (hop : d.opcode = 0x30#8) (pc : Word) : instrIr d pc = [cmpIr d] := by
  simp [instrIr, build_instr, hop, IRBuilder.compare, cmpIr, IRBlock.push_back]

theorem reg_eq_none : ∀ r : Byte, reg r = IR_NONE ↔ r = 0#8 := by decide

theorem lowerAsm_mov (d : DecodedInstr) (ft : Word) : lowerAsm ft (movIrReg d) =
    if d.rm = 0#8 then [.movRI rax 0#64, stArm rax d.rd]
    else [ldArm d.rm (hostReg (reg d.rm)), stArm (hostReg (reg d.rm)) d.rd] := by
  simp only [lowerAsm, movIrReg, reg_eq_none, u8_reg]

/-- The compare: the second operand is an immediate, or in RCX. -/
def cmpInstr (d : DecodedInstr) : Instr :=
  if d.rm = 0#8 then .aluI .cmp rax 0#32 else .alu .cmp rax rcx

def cmpLoads (d : DecodedInstr) : List Instr :=
  ldArm d.rn rax :: if d.rm = 0#8 then [] else [ldArm d.rm rcx]

theorem lowerAsm_cmp (d : DecodedInstr) (ft : Word) :
    lowerAsm ft (cmpIr d) = cmpLoads d ++ cmpInstr d :: saveNzcv := by
  have himm : reg d.rm = IR_IMM ∨ reg d.rm = IR_NONE ↔ d.rm = 0#8 := by
    rw [reg_eq_none]
    exact or_iff_right (reg_ne_imm d.rm)
  simp only [lowerAsm, cmpIr, aluAsm, himm, u8_reg, saveNzcvIf, if_true, cmpLoads, cmpInstr]
  split_ifs <;> rfl

/-- The move leaves the register of number `rm` in `rd`, but zero for number 0. -/
theorem run_mov (hrd : IsArm d.rd) (hrm : IsArm d.rm) (hc : s.reg r12 = c) (hctx : CtxAt s.mem c ctx)
    (ft : Word) : X86.word (execAll (lowerAsm ft (movIrReg d)) s).mem c (8 * d.rd.toNat) =
      if d.rm = 0#8 then 0#64 else ctx.x d.rm.toNat := by
  rw [lowerAsm_mov]
  split_ifs with hz
  · have hr12 : (exec (.movRI rax 0#64) s).reg r12 = c := hc
    rw [execAll_cons, execAll_cons, execAll_nil, exec_stArm_mem hr12 hrd, word_write_same]
    rfl
  · have hne : r12 ≠ hostReg (reg d.rm) := (free_hostReg _).1.symm
    have hx : X86.word s.mem c (8 * d.rm.toNat) = ctx.x d.rm.toNat :=
      hctx _ (Nat.lt_of_lt_of_le hrm (by decide))
    have hr12 : (s.setReg (hostReg (reg d.rm)) (ctx.x d.rm.toNat)).reg r12 = c := by
      rw [setReg_reg, if_neg hne, hc]
    rw [execAll_cons, execAll_cons, execAll_nil, exec_ldArm hc hrm, hx, exec_stArm_mem hr12 hrd,
      word_write_same, setReg_reg, if_pos rfl]

/-- The registers in front of the compare. -/
theorem run_cmpLoads (hrn : IsArm d.rn) (hrm : IsArm d.rm) (hc : s.reg r12 = c)
    (hctx : CtxAt s.mem c ctx) : let s₁ := execAll (cmpLoads d) s
    s₁.reg rax = ctx.x d.rn.toNat ∧ (d.rm ≠ 0#8 → s₁.reg rcx = ctx.x d.rm.toNat) := by
  have hx : ∀ {r : Byte}, IsArm r → X86.word s.mem c (8 * r.toNat) = ctx.x r.toNat :=
    fun hr => hctx _ (Nat.lt_of_lt_of_le hr (by decide))
  have h₁ : exec (ldArm d.rn rax) s = s.setReg rax (ctx.x d.rn.toNat) := by
    rw [exec_ldArm hc hrn, hx hrn]
  have hne : rax ≠ rcx := by decide
  by_cases hz : d.rm = 0#8
  · simp [cmpLoads, hz, h₁]
  · have hc₁ : (s.setReg rax (ctx.x d.rn.toNat)).reg r12 = c := hc
    have h₂ := exec_ldArm hc₁ hrm rcx
    simp [cmpLoads, hz, h₁, h₂, hx hrm, hne]

end Code

/-! ## What is compared -/

/-- The operands of a compare. -/
def cmpOperands : Instr → State → Option (Word × Word)
  | .alu .cmp x y, t => some (t.reg x, t.reg y)
  | .aluI .cmp x imm, t => some (t.reg x, imm.signExtend 64)
  | _, _ => none

/-- The block of the lone MOV or CMP, entered in state `s`, returns and moves the register of the number
`rm`, or has its one comparison between those of `rn` and `rm`, as the interpreter has. -/
def ReadsSources (d : DecodedInstr) (g : Guest) (host_code : Word) (host : Mem) (s : State) : Prop :=
  let code := block_code [d] g.1.pc host_code host
  let g' := execute_decoded g d
  ∃ s', Returns code s s' ∧
    if d.opcode = 0x20#8 then
      X86.word s'.mem (s.reg rdi) (8 * d.rd.toNat) = g.1.x d.rm.toNat ∧
        g'.1.x d.rd.toNat = g.1.x d.rm.toNat
    else
      Observes cmpOperands code s (g.1.x d.rn.toNat, g.1.x d.rm.toNat) ∧
        g'.1.nzcv = nzcv_word (.ofSub (g.1.x d.rn.toNat) (g.1.x d.rm.toNat))

section Sources

variable {d : DecodedInstr} {g : Guest} {host_code : Word} {s : State}

theorem lowerable_cmp (d : DecodedInstr) : Lowerable (cmpIr d) :=
  fun _ => (by decide : (0#64 : Word) ≤ 0xFFFFFFFF#64)

/-- The compare of the block is its only one. -/
theorem observes_cmp (hop : d.opcode = 0x30#8) (hrn : IsArm d.rn) (hrm : IsArm d.rm)
    (hb : host_code ≠ 0#64) (host : Mem) (hctx : CtxAt s.mem (s.reg rdi) g.1) :
    Observes cmpOperands (block_code [d] g.1.pc host_code host) s
        (g.1.x d.rn.toNat, g.1.x d.rm.toNat) ↔
      (if d.rm = 0#8 then 0#64 else g.1.x d.rm.toNat) = g.1.x d.rm.toNat := by
  let ft := g.1.pc + 4#64
  let pre := .movRR r12 rdi :: cmpLoads d
  let suf := saveNzcv ++ [.movRI rax ft, .store r12 256#32 rax]
  have hr : ¬ Returning (cmpIr d).op := (by decide : ¬ Returning .CMP)
  have hbody : loneBody g.1.pc (cmpIr d) = pre ++ cmpInstr d :: suf := by
    simp [loneBody, lowerAsm_cmp, pre, suf, ft]
  have hrun : ∀ i t, i ≠ .ret → (Performs (block_code [d] g.1.pc host_code host) s i t ↔
      (i, t) ∈ trace (pre ++ cmpInstr d :: suf) s) := by
    intro i t hne
    rw [performs_lone (instrIr_cmp hop _) (lowerable_cmp d) hr hb host hne, hbody]
  have hpre : ∀ j ∈ pre, ∀ t, cmpOperands j t = none := by
    simp only [pre, cmpLoads]
    split_ifs <;> simp [cmpOperands, ldArm]
  have hsuf : ∀ j ∈ suf, ∀ t, cmpOperands j t = none := by
    simp [suf, saveNzcv, cmpOperands]
  have hret : cmpInstr d ≠ .ret := by
    unfold cmpInstr
    split_ifs <;> simp
  -- the operands in front of it
  obtain ⟨hrax, hrcx⟩ := run_cmpLoads hrn hrm (enter_r12 s) hctx
  have hops : cmpOperands (cmpInstr d) (execAll pre s) =
      some (g.1.x d.rn.toNat, if d.rm = 0#8 then 0#64 else g.1.x d.rm.toNat) := by
    show cmpOperands (cmpInstr d) (execAll (cmpLoads d) (enter s)) = _
    unfold cmpInstr
    split_ifs with hz
    · simp [cmpOperands, hrax]
    · simp [cmpOperands, hrax, hrcx hz]
  rw [observes_iff hrun (fun _ => rfl) hpre hsuf hret hops, Prod.mk.injEq]
  exact and_iff_right rfl

theorem returns_mov (hop : d.opcode = 0x20#8) (hrd : IsArm d.rd) (hrm : IsArm d.rm)
    (hb : host_code ≠ 0#64) (host : Mem) (hctx : CtxAt s.mem (s.reg rdi) g.1) {s' : State}
    (h : Returns (block_code [d] g.1.pc host_code host) s s') :
    X86.word s'.mem (s.reg rdi) (8 * d.rd.toNat) =
      if d.rm = 0#8 then 0#64 else g.1.x d.rm.toNat := by
  have hr : ¬ Returning (movIrReg d).op := (by decide : ¬ Returning .SET_REG)
  have hlt : d.rd.toNat < 32 := hrd
  rw [(returns_lone (instrIr_mov hop _) trivial hr hb host).mp h, lone_mem hr,
    word_write_ne (by omega) (by omega) (by omega), run_mov hrd hrm (enter_r12 s) hctx]

theorem execute_mov_x (hop : d.opcode = 0x20#8) (hrd : d.rd ≤ 30#8) (hrm : d.rm ≤ 30#8) :
    (execute_decoded g d).1.x d.rd.toNat = g.1.x d.rm.toNat := by
  have hlt : d.rd.toNat ≤ 30 := hrd
  rw [execute_mov hop, CPUContext.x, set_reg_word (isArm_of_le hrd), if_neg (by omega), if_pos rfl,
    x_or_sp_of_le hrm]

theorem readsSources_mov (hop : d.opcode = 0x20#8) (hrd : d.rd ≤ 30#8) (hrm : d.rm ≤ 30#8)
    (hb : host_code ≠ 0#64) (host : Mem) (hctx : CtxAt s.mem (s.reg rdi) g.1) :
    ReadsSources d g host_code host s ↔
      (if d.rm = 0#8 then 0#64 else g.1.x d.rm.toNat) = g.1.x d.rm.toNat := by
  have hword : ∀ s', Returns (block_code [d] g.1.pc host_code host) s s' → _ :=
    fun _ => returns_mov hop (isArm_of_le hrd) (isArm_of_le hrm) hb host hctx
  unfold ReadsSources
  simp only [if_pos hop]
  constructor
  · rintro ⟨s', hs, hw, -⟩
    exact (hword s' hs).symm.trans hw
  · intro he
    have hret := (returns_lone (instrIr_mov hop g.1.pc) trivial
      (by decide : ¬ Returning .SET_REG) hb host (s := s)).mpr rfl
    exact ⟨_, hret, (hword _ hret).trans he, execute_mov_x hop hrd hrm⟩

theorem readsSources_cmp (hop : d.opcode = 0x30#8) (hrn : d.rn ≤ 30#8) (hrm : d.rm ≤ 30#8)
    (hb : host_code ≠ 0#64) (host : Mem) (hctx : CtxAt s.mem (s.reg rdi) g.1) :
    ReadsSources d g host_code host s ↔
      (if d.rm = 0#8 then 0#64 else g.1.x d.rm.toNat) = g.1.x d.rm.toNat := by
  have hne : ¬ d.opcode = 0x20#8 := by
    rw [hop]
    decide
  have hret := (returns_lone (instrIr_cmp hop g.1.pc) (lowerable_cmp d)
    (by decide : ¬ Returning .CMP) hb host (s := s)).mpr rfl
  rw [← observes_cmp hop (isArm_of_le hrn) (isArm_of_le hrm) hb host hctx]
  unfold ReadsSources
  simp only [if_neg hne]
  exact ⟨fun h => h.choose_spec.2.1, fun hc => ⟨_, hret, hc, execute_cmp_nzcv hop⟩⟩

/-- **Source registers of MOV and CMP**: the block reads those of the record unless the second one is
`x0`, which it takes for zero. -/
theorem readsSources_iff
    (hop : d.opcode = 0x20#8 ∧ d.rd ≤ 30#8 ∨ d.opcode = 0x30#8 ∧ d.rn ≤ 30#8) (hrm : d.rm ≤ 30#8)
    (hb : host_code ≠ 0#64) (host : Mem) (hctx : CtxAt s.mem (s.reg rdi) g.1) :
    ReadsSources d g host_code host s ↔ d.rm ≠ 0#8 ∨ g.1.x 0 = 0#64 := by
  have hzero : (if d.rm = 0#8 then 0#64 else g.1.x d.rm.toNat) = g.1.x d.rm.toNat ↔
      d.rm ≠ 0#8 ∨ g.1.x 0 = 0#64 := by
    by_cases hz : d.rm = 0#8
    · simp [hz, eq_comm]
    · simp [hz]
  rw [← hzero]
  rcases hop with ⟨hop, hrd⟩ | ⟨hop, hrn⟩
  · exact readsSources_mov hop hrd hrm hb host hctx
  · exact readsSources_cmp hop hrn hrm hb host hctx

end Sources

/-- `cmp x1, x2` of 12 and 7. -/
theorem readsSources_iff_cmp :
    ReadsSources cmp_x1_x2 (twelve_in_x1, .new (ctx_mem twelve_in_x1)) 0x8000#64 (fun _ => 0#8)
      (holding twelve_in_x1) := by
  have hop : cmp_x1_x2.opcode = 0x30#8 ∧ cmp_x1_x2.rn ≤ 30#8 := ⟨by decide, by decide⟩
  have hrm : cmp_x1_x2.rm ≠ 0#8 := by decide
  exact (readsSources_iff (.inr hop) (by decide) (by decide) _ (ctxAt_holding _)).mpr (.inl hrm)

/-- `mov x1, x0` -/
def mov_x1_x0 : DecodedInstr :=
  { DecodedInstr.cleared 0xAA0003E1#32 with opcode := 0x20#8, rd := 1#8, rn := 31#8, rm := 0#8 }

/-- A context at 0 whose `x0` is 7. -/
def seven_at_zero : State := { State.cleared with mem := writeN 8 (fun _ => 0#8) (off 0#64 0) 7#64 }

theorem ctxAt_seven : CtxAt seven_at_zero.mem 0#64 (CPUContext.zero.set 0 7#64) :=
  (ctxAt_zero 0#64).write (by decide : 0 < CPUContext.words) 7#64

/-- The block of `mov x1, x0` leaves 0 in `x1` where `x0 = 7`. -/
theorem not_readsSources_mov :
    ¬ ReadsSources mov_x1_x0 (CPUContext.zero.set 0 7#64, .new fun _ => 0#8) 0x8000#64 (fun _ => 0#8)
      seven_at_zero := by
  have hop : mov_x1_x0.opcode = 0x20#8 := by decide
  have h := readsSources_mov hop (by decide) (by decide) (by decide : 0x8000#64 ≠ 0#64)
    (fun _ => 0#8) (g := (CPUContext.zero.set 0 7#64, .new fun _ => 0#8)) ctxAt_seven
  intro hreads
  exact absurd (h.mp hreads) (by decide)

end ExecEngine

end Bbarm64
