import Bbarm64.Engine.Branch
import Bbarm64.Engine.FlagSave

/-!
# Engine.CompareBranch — translated CBZ and CBNZ

The IR of CBZ and CBNZ is a comparison that sets the flags, and a conditional jump.  `save_nzcv`
stands between the two: it overwrites `ctx.nzcv`, and its shifts leave ZF for a bit of R9, so that the
jump is decided by what the host had in that register at block entry.
-/

namespace Bbarm64

open X86 ARM64Decoder IRBuilder IROptimizer IRLowering

namespace ExecEngine

/-! ## The code -/

/-- CBZ and CBNZ. -/
def IsCompareBranch (op : Byte) : Prop := op = 0x55#8 ∨ op = 0x56#8

/-- The comparison. -/
def cbCompareIr (d : DecodedInstr) : IRInst :=
  cb_compare { size := if d.size ≠ 0#8 then 8#8 else 4#8 } d

/-- EQ for CBZ, NE for CBNZ. -/
def cbCond (d : DecodedInstr) : Byte := if d.opcode = 0x55#8 then 0#8 else 1#8

section Code

variable {d : DecodedInstr}

theorem instrIr_cb (h : IsCompareBranch d.opcode) (pc : Word) :
    instrIr d pc = [cbCompareIr d, cb_jump d pc (cbCond d)] := by
  rcases h with h | h <;> simp [instrIr, build_instr, h, cbCompareIr, cbCond, IRBlock.push_back]

theorem blockIr_cb (h : IsCompareBranch d.opcode) (pc : Word) :
    blockIr [d] pc = [cbCompareIr d, cb_jump d pc (cbCond d)] := by
  rw [blockIr, irFrom_one, instrIr_cb h]
  rfl

theorem lowerAsm_cbCompare (d : DecodedInstr) (ft : Word) : lowerAsm ft (cbCompareIr d) =
    [ldArm d.rn rax, .aluI .cmp rax 0#32] ++ saveNzcv := by
  have h : lowerAsm ft (cbCompareIr d) =
    [ldArm (u8 (reg d.rn)) rax, .aluI .cmp rax 0#32] ++ saveNzcv := rfl
  rw [h, u8_reg]

/-- The block of a lone CBZ or CBNZ returns behind its IR. -/
theorem cb_returns_iff (h : IsCompareBranch d.opcode) {host_code : Word} (hb : host_code ≠ 0#64)
    (pc : Word) (host : Mem) {s s' : State} : Returns (block_code [d] pc host_code host) s s' ↔
      s' = (runIr (pc + 4#64) [cbCompareIr d, cb_jump d pc (cbCond d)] (enter s)).popRet := by
  refine returns_short (blockIr_cb h pc) ?_ (by simp) hb host
  simp only [List.forall_mem_cons]
  have hzero : (0#64 : Word) ≤ 0xFFFFFFFF#64 := by decide
  exact ⟨fun _ => hzero, trivial, List.forall_mem_nil _⟩

end Code

/-! ## The decision and the flags -/

section Decision

variable {d : DecodedInstr} {s : State} {ctx : CPUContext}

/-- The state behind the comparison and `save_nzcv`. -/
theorem run_cbCompare (hn : d.rn ≤ 30#8) (hctx : CtxAt s.mem (s.reg rdi) ctx) (ft : Word) :
    let s₁ := execAll (lowerAsm ft (cbCompareIr d)) (enter s)
    s₁.reg r12 = s.reg rdi ∧ s₁.flags.zf = !(s.reg r9).getLsbD 7 ∧
      X86.word s₁.mem (s.reg rdi) 272 =
        savedWord ((subFlags (ctx.x d.rn.toNat) 0#64).image s.sys) := by
  intro s₁
  have harm : IsArm d.rn := Nat.lt_of_le_of_lt hn (by decide)
  have hx : X86.word s.mem (s.reg rdi) (8 * d.rn.toNat) = ctx.x d.rn.toNat :=
    hctx _ (Nat.lt_of_lt_of_le harm (by decide))
  let s₀ := execAll [ldArm d.rn rax, .aluI .cmp rax 0#32] (enter s)
  have hs₁ : s₁ = execAll saveNzcv s₀ := by
    rw [← execAll_append, ← lowerAsm_cbCompare d ft]
  have hs₀ : s₀ = execAlu .cmp rax 0#64 ((enter s).setReg rax (ctx.x d.rn.toNat)) := by
    show execAll [.aluI .cmp rax 0#32] (exec (ldArm d.rn rax) (enter s)) = _
    rw [exec_ldArm (enter_r12 s) harm, enter_mem, hx]
    rfl
  have hr12 : s₀.reg r12 = s.reg rdi := by
    rw [hs₀, execAlu_reg (by decide), setReg_reg, if_neg (by decide), enter_r12]
  have hr9 : s₀.reg r9 = s.reg r9 := by
    rw [hs₀, execAlu_reg (by decide), setReg_reg, if_neg (by decide), enter, setReg_reg,
      if_neg (by decide)]
  have hflags : s₀.flags = subFlags (ctx.x d.rn.toNat) 0#64 := by
    rw [hs₀]
    rfl
  have hsys : s₀.sys = s.sys := by
    rw [hs₀]
    rfl
  obtain ⟨hword, hzf⟩ := saveNzcv_spec hr12
  rw [hs₁]
  refine ⟨?_, by rw [hzf, hr9], by rw [hword, hflags, hsys]⟩
  rw [execAll_reg_of_notMem saveNzcv_r12, hr12]

/-- A comparison with zero has no carry and no overflow, and Z goes to a bit that is always set. -/
theorem savedWord_zero (x sys : Word) :
    savedWord ((subFlags x 0#64).image sys) = (subFlags x 0#64).image sys := by
  obtain ⟨hc, ho⟩ := image_cf_of (subFlags x 0#64) sys
  have hone := image_one (subFlags x 0#64) sys
  have hcf : (subFlags x 0#64).cf = false := by simp [subFlags, BitVec.usubOverflow]
  have hof : (subFlags x 0#64).of = false := by
    have h1 := BitVec.toInt_lt (x := x)
    have h2 := BitVec.le_toInt (x := x)
    simp only [subFlags, BitVec.ssubOverflow, BitVec.toInt_zero, Int.sub_zero, Bool.or_eq_false_iff,
      decide_eq_false_iff_not]
    omega
  generalize (subFlags x 0#64).image sys = img at *
  have h0 : img &&& 1#64 = (BitVec.ofBool (img.getLsbD 0)).setWidth 64 := shiftRight_and_one img 0
  rw [savedWord, shiftRight_and_one, shiftRight_and_one, h0, hc, ho, hcf, hof, or_bit_one hone]
  simp

/-- EQ and NE on the host flags. -/
theorem host_condition_zf (f : Flags) :
    host_condition f 0#8 = f.zf ∧ host_condition f 1#8 = !f.zf := by
  obtain ⟨-, hz, -, -⟩ := nzcv_of_bits f.sf f.zf (!f.cf) f.of
  constructor
  · exact hz
  · exact congrArg (!·) hz

/-- The address the jump goes to, with `zf` the zero flag. -/
def cbTarget (d : DecodedInstr) (pc : Word) (zf : Bool) : Word :=
  if zf = decide (d.opcode = 0x55#8) then pc + d.branch_offset.setWidth 64 else pc + 4#64

/-- **What the block does**: the jump goes by bit 7 of R9, and the RFLAGS image of the comparison goes
to `ctx.nzcv`. -/
theorem cb_run (h : IsCompareBranch d.opcode) (hn : d.rn ≤ 30#8)
    (hctx : CtxAt s.mem (s.reg rdi) ctx) (pc : Word) :
    let s' := (runIr (pc + 4#64) [cbCompareIr d, cb_jump d pc (cbCond d)] (enter s)).popRet
    X86.word s'.mem (s.reg rdi) 256 = cbTarget d pc (!(s.reg r9).getLsbD 7) ∧
      X86.word s'.mem (s.reg rdi) 272 = (subFlags (ctx.x d.rn.toNat) 0#64).image s.sys := by
  intro s'
  obtain ⟨hr12, hzf, hword⟩ := run_cbCompare hn hctx (pc + 4#64)
  have hnot : ¬ Returning (cbCompareIr d).op := (by decide : ¬ Returning .CMP)
  have hret : Returning (cb_jump d pc (cbCond d)).op := .inr (.inr (.inr rfl))
  have hs' : s'.mem = (exitIr (pc + 4#64) (cb_jump d pc (cbCond d))
      (execAll (lowerAsm (pc + 4#64) (cbCompareIr d)) (enter s))).mem := by
    show (runIr _ _ _).popRet.mem = _
    rw [popRet_mem, runIr, if_neg hnot, runIr, if_pos hret]
  rw [hs', exitIr_cond rfl, setPc_pc hr12, setPc_word hr12 _ (.inr (by decide)) (by decide), hword,
    savedWord_zero]
  refine ⟨?_, rfl⟩
  generalize execAll (lowerAsm (pc + 4#64) (cbCompareIr d)) (enter s) = s₁ at hzf
  rw [cbTarget, ← hzf]
  obtain ⟨heq, hne⟩ := host_condition_zf s₁.flags
  rcases h with h | h
  · have hc : (cb_jump d pc (cbCond d)).cond = 0#8 := by simp [cb_jump, cbCond, h]
    rw [hc, cond_invCc s₁.flags (by decide), heq, h]
    cases s₁.flags.zf <;> rfl
  · have hc : (cb_jump d pc (cbCond d)).cond = 1#8 := by simp [cb_jump, cbCond, h]
    rw [hc, cond_invCc s₁.flags (by decide), hne, h]
    cases s₁.flags.zf <;> rfl

/-- The block of a lone CBZ or CBNZ, entered in state `s` with the context `ctx`, returns with `ctx.pc`
at the branch target if the interpreter takes the branch, and at the fallthrough address if not, and
leaves `ctx.nzcv` alone. -/
def CbFollowsReg (d : DecodedInstr) (pc host_code : Word) (host : Mem) (s : State)
    (ctx : CPUContext) : Prop :=
  ∃ target s', jump_target d pc = some target ∧ Returns (block_code [d] pc host_code host) s s' ∧
    X86.word s'.mem (s.reg rdi) 256 = (if taken ctx d then target else pc + 4#64) ∧
    X86.word s'.mem (s.reg rdi) 272 = ctx.nzcv

theorem cbTarget_eq_iff (pc : Word) (a b : Bool) : cbTarget d pc a = cbTarget d pc b ↔
    pc + d.branch_offset.setWidth 64 = pc + 4#64 ∨ a = b := by
  unfold cbTarget
  cases a <;> cases b <;> cases decide (d.opcode = 0x55#8) <;> simp [eq_comm]

/-- The interpreter goes by the register. -/
theorem cbTarget_cb_zero (h : IsCompareBranch d.opcode) (ctx : CPUContext) (pc : Word) :
    (if taken ctx d then pc + d.branch_offset.setWidth 64 else pc + 4#64) =
      cbTarget d pc (cb_zero ctx d) := by
  rcases h with h | h <;> simp +decide only [taken, cbTarget, h, if_true, if_false]
  · rfl
  · cases cb_zero ctx d <;> rfl

theorem jump_target_cb (h : IsCompareBranch d.opcode) (pc : Word) :
    jump_target d pc = some (pc + d.branch_offset.setWidth 64) := by
  rw [jump_target, instrIr_cb h]
  rfl

/-- **Translated CBZ and CBNZ**: the branch follows the register exactly if bit 7 of R9 is clear for a
zero register and set for another one, or the target is the next instruction anyway; and `ctx.nzcv`
stays exactly if it is the RFLAGS image of the comparison already. -/
theorem cbFollowsReg_iff (h : IsCompareBranch d.opcode) (hn : d.rn ≤ 30#8) {host_code : Word}
    (hb : host_code ≠ 0#64) (pc : Word) (host : Mem) (hctx : CtxAt s.mem (s.reg rdi) ctx) :
    CbFollowsReg d pc host_code host s ctx ↔
      (jump_target d pc = some (pc + 4#64) ∨ (s.reg r9).getLsbD 7 = !cb_zero ctx d) ∧
        ctx.nzcv = (subFlags (ctx.x d.rn.toNat) 0#64).image s.sys := by
  obtain ⟨hpc, hnzcv⟩ := cb_run h hn hctx pc
  have htarget := jump_target_cb h pc
  have hbit : (s.reg r9).getLsbD 7 = !cb_zero ctx d ↔ (!(s.reg r9).getLsbD 7) = cb_zero ctx d := by
    cases (s.reg r9).getLsbD 7 <;> cases cb_zero ctx d <;> decide
  rw [htarget, Option.some.injEq, hbit, ← cbTarget_eq_iff, ← cbTarget_cb_zero h, ← hpc, ← hnzcv]
  constructor
  · rintro ⟨target, s', ht, hs, hp, hz⟩
    obtain rfl := Option.some.inj (htarget.symm.trans ht)
    obtain rfl := (cb_returns_iff h hb pc host).mp hs
    exact ⟨hp, hz.symm⟩
  · rintro ⟨hp, hz⟩
    exact ⟨_, _, htarget, (cb_returns_iff h hb pc host).mpr rfl, hp, hz.symm⟩

end Decision

/-- CBZ of `x1`, two words ahead. -/
def cbz_x1 : DecodedInstr :=
  { DecodedInstr.cleared 0xB4000041#32 with
    opcode := 0x55#8, rn := 1#8, size := 1#8, branch_offset := 8#32 }

/-- 12 in `x1`, and the flags of comparing it with 0. -/
def compared : CPUContext :=
  (CPUContext.zero.set_x 1 12#64).set 34 ((subFlags 12#64 0#64).image State.cleared.sys)

/-- 0x80 in R9. -/
def compared_state : State := (holding compared).setReg r9 0x80#64

/-- The branch on `x1 = 12` is not taken. -/
theorem cbFollowsReg_iff_compared :
    CbFollowsReg cbz_x1 0x1000#64 0x8000#64 (fun _ => 0#8) compared_state compared := by
  have hop : IsCompareBranch cbz_x1.opcode := .inl (by decide)
  have hctx : CtxAt compared_state.mem (compared_state.reg rdi) compared := ctxAt_holding _
  have hbit : (compared_state.reg r9).getLsbD 7 = !cb_zero compared cbz_x1 := by decide
  exact (cbFollowsReg_iff hop (by decide) (by decide) _ _ hctx).mpr ⟨.inr hbit, by decide⟩

/-- With 0x80 in R9, the branch on `x1 = 0` is not taken. -/
theorem not_cbFollowsReg : ¬ CbFollowsReg cbz_x1 0x1000#64 0x8000#64 (fun _ => 0#8)
    (State.cleared.setReg r9 0x80#64) .zero := by
  rintro ⟨target, s', ht, hs, hpc, -⟩
  have hop : IsCompareBranch cbz_x1.opcode := .inl (by decide)
  obtain rfl := Option.some.inj ((jump_target_cb hop 0x1000#64).symm.trans ht)
  obtain rfl := (cb_returns_iff hop (by decide) _ _).mp hs
  have hctx : CtxAt (State.cleared.setReg r9 0x80#64).mem ((State.cleared.setReg r9 0x80#64).reg rdi)
      .zero := ctxAt_zero _
  have hrun := (cb_run hop (by decide) hctx 0x1000#64).1
  rw [hpc] at hrun
  exact absurd hrun (by decide)

end ExecEngine

end Bbarm64
