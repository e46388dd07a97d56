import Bbarm64.Engine.BlockCode

/-!
# Engine.Branch — branch targets and branch decisions of the two engines

The interpreter and the IR of B.cond, CBZ and CBNZ zero-extend the 32-bit branch offset, the IR of B
and BL sign-extends it: they agree on forward branches only.  A translated B.cond decides by the
host flags at its entry, not by `ctx.nzcv`.
-/

namespace Bbarm64

open X86 ARM64Decoder IRBuilder IROptimizer IRLowering

namespace ExecEngine

/-! ## Targets -/

/-- B, BL, B.cond, CBZ and CBNZ. -/
def IsJump (op : Byte) : Prop :=
  op = 0x50#8 ∨ op = 0x51#8 ∨ op = 0x54#8 ∨ op = 0x55#8 ∨ op = 0x56#8

/-- The target in the IR of a branch: the immediate of its last instruction. -/
def jump_target (d : DecodedInstr) (pc : Word) : Option Word :=
  (instrIr d pc).getLast?.map (·.imm)

/-- Does the interpreter take the branch? -/
def taken (ctx : CPUContext) (d : DecodedInstr) : Bool :=
  if d.opcode = 0x54#8 then check_condition ctx.nzcv d.cond
  else if d.opcode = 0x55#8 then cb_zero ctx d
  else if d.opcode = 0x56#8 then !cb_zero ctx d
  else true

/-- The target of the translated branch and that of the interpreted one are both `pc + o`, for the
signed offset `o`. -/
def TargetsAgree (d : DecodedInstr) (pc : Word) : Prop :=
  let target := pc + BitVec.ofInt 64 d.branch_offset.toInt
  jump_target d pc = some target ∧
    ∀ g : Guest, g.1.pc = pc → taken g.1 d = true → (execute_decoded g d).1.pc = target

section Targets

variable {d : DecodedInstr}

theorem jump_target_eq (h : IsJump d.opcode) (pc : Word) :
    jump_target d pc = some (pc + if d.opcode = 0x50#8 ∨ d.opcode = 0x51#8 then
      d.branch_offset.signExtend 64 else d.branch_offset.setWidth 64) := by
  rcases h with h | h | h | h | h <;>
    simp [jump_target, instrIr, build_instr, h, IRBlock.push_back, cb_jump]

/-- The interpreter widens the unsigned field. -/
theorem execute_taken (h : IsJump d.opcode) {g : Guest} (ht : taken g.1 d = true) :
    (execute_decoded g d).1.pc = g.1.pc + d.branch_offset.setWidth 64 := by
  rcases h with h | h | h | h | h <;>
    simp_all [taken, execute_decoded, branch_if, CPUContext.set_pc, CPUContext.pc, CPUContext.set_x]

theorem ofInt_toInt (o : BitVec 32) : BitVec.ofInt 64 o.toInt = o.signExtend 64 := rfl

/-- The two extensions of an offset agree when it is not negative. -/
theorem setWidth_eq_signExtend_iff (o : BitVec 32) :
    o.setWidth 64 = o.signExtend 64 ↔ 0 ≤ o.toInt := by
  rw [BitVec.toInt_eq_toNat_cond]
  constructor
  · intro h
    have h' := congrArg BitVec.toNat h
    rw [BitVec.toNat_signExtend, BitVec.toNat_setWidth] at h'
    have := o.isLt
    cases hm : o.msb with
    | false =>
      rw [BitVec.msb_eq_false_iff_two_mul_lt] at hm
      rw [if_pos hm]
      omega
    | true =>
      simp only [hm, ↓reduceIte, Nat.reducePow] at h'
      omega
  · intro h
    have hm : o.msb = false := by
      rw [BitVec.msb_eq_false_iff_two_mul_lt]
      have := o.isLt
      split_ifs at h <;> omega
    exact (BitVec.signExtend_eq_setWidth_of_msb_false hm).symm

theorem targetsAgree_of_nonneg (hop : IsJump d.opcode) (pc : Word)
    (h : 0 ≤ d.branch_offset.toInt) : TargetsAgree d pc := by
  have he := (setWidth_eq_signExtend_iff _).mpr h
  refine ⟨?_, fun g hg ht => ?_⟩
  · rw [jump_target_eq hop, ofInt_toInt, he, ite_self]
  · rw [execute_taken hop ht, hg, ofInt_toInt, he]

theorem nonneg_of_targetsAgree (hop : IsJump d.opcode) {pc : Word} (h : TargetsAgree d pc) :
    0 ≤ d.branch_offset.toInt := by
  obtain ⟨h₁, h₂⟩ := h
  rw [← setWidth_eq_signExtend_iff, ← ofInt_toInt]
  by_cases hb : d.opcode = 0x50#8 ∨ d.opcode = 0x51#8
  · -- the IR is right, the interpreter decides
    let g : Guest := (CPUContext.zero.set_pc pc, .new fun _ => 0#8)
    have hg : g.1.pc = pc := rfl
    have ht : taken g.1 d = true := by
      rcases hb with hb | hb <;> simp [taken, hb]
    have he := h₂ g hg ht
    rw [execute_taken hop ht, hg] at he
    simpa using he
  · rw [jump_target_eq hop, if_neg hb] at h₁
    simpa using h₁

/-- **Branch targets**: both engines reach `pc + o` exactly for the offsets `o` that are not
negative. -/
theorem targetsAgree_iff (hop : IsJump d.opcode) (pc : Word) :
    TargetsAgree d pc ↔ 0 ≤ d.branch_offset.toInt :=
  ⟨nonneg_of_targetsAgree hop, targetsAgree_of_nonneg hop pc⟩

/-- At `b .+8`. -/
theorem targetsAgree_iff_b : TargetsAgree (decode 0x14000002#32).2 0x1000#64 ↔
    0 ≤ (decode 0x14000002#32).2.branch_offset.toInt :=
  targetsAgree_iff (.inl (by decide)) _

/-- `b .-4` -/
theorem not_targetsAgree_backward : (decode 0x17FFFFFF#32).1 = true ∧
    IsJump (decode 0x17FFFFFF#32).2.opcode ∧
      ¬ TargetsAgree (decode 0x17FFFFFF#32).2 0x1000#64 := by
  have hop : IsJump (decode 0x17FFFFFF#32).2.opcode := .inl (by decide)
  refine ⟨by decide, hop, fun h => ?_⟩
  exact absurd (nonneg_of_targetsAgree hop h) (by decide)

end Targets

/-! ## Decisions -/

/-- The IR of B.cond. -/
def bcondIr (d : DecodedInstr) (pc : Word) : IRInst :=
  { op := .JMP_COND, size := if d.size ≠ 0#8 then 8#8 else 4#8, flags_used := true,
    imm := pc + d.branch_offset.setWidth 64, cond := d.cond }

theorem instrIr_bcond {d : DecodedInstr} (h : d.opcode = 0x54#8) (pc : Word) :
    instrIr d pc = [bcondIr d pc] := by
  simp [instrIr, build_instr, h, bcondIr, IRBlock.push_back]

/-- The condition the lowering of a branch tests: N, Z, C, V are SF, ZF, not CF and OF, and AL is
taken for NE. -/
def host_condition (f : Flags) (cond : Byte) : Bool :=
  if cond = 14#8 then !f.zf else check_condition (CPUContext.nzcv_of f.sf f.zf (!f.cf) f.of) cond

theorem nzcv_of_bits (n z c v : Bool) : (CPUContext.nzcv_of n z c v).getLsbD 31 = n ∧
    (CPUContext.nzcv_of n z c v).getLsbD 30 = z ∧ (CPUContext.nzcv_of n z c v).getLsbD 29 = c ∧
    (CPUContext.nzcv_of n z c v).getLsbD 28 = v := by
  revert n z c v
  decide

theorem cond_cases {cond : Byte} (h : cond ≤ 14#8) : cond = 0#8 ∨ cond = 1#8 ∨ cond = 2#8 ∨
    cond = 3#8 ∨ cond = 4#8 ∨ cond = 5#8 ∨ cond = 6#8 ∨ cond = 7#8 ∨ cond = 8#8 ∨ cond = 9#8 ∨
    cond = 10#8 ∨ cond = 11#8 ∨ cond = 12#8 ∨ cond = 13#8 ∨ cond = 14#8 := by
  revert cond
  decide

/-- `check_condition` is the condition test of A64. -/
theorem check_condition_eq_holds (nzcv : Word) {cond : Byte} (h : cond ≤ 14#8) :
    check_condition nzcv cond = (A64.Nzcv.ofWord nzcv).holds (cond.setWidth 4) := by
  rcases cond_cases h with rfl | rfl | rfl | rfl | rfl | rfl | rfl | rfl | rfl | rfl | rfl | rfl |
    rfl | rfl | rfl
  all_goals simp [check_condition, A64.Nzcv.ofWord, A64.Nzcv.holds, bne, Bool.and_comm]

/-- The `jcc` skips the taken path when the host condition fails. -/
theorem cond_invCc (f : Flags) {cond : Byte} (h : cond ≤ 14#8) :
    f.cond (invCc cond) = !host_condition f cond := by
  obtain ⟨hn, hz, hc, hv⟩ := nzcv_of_bits f.sf f.zf (!f.cf) f.of
  rcases cond_cases h with rfl | rfl | rfl | rfl | rfl | rfl | rfl | rfl | rfl | rfl | rfl | rfl |
    rfl | rfl | rfl
  all_goals simp only [host_condition, check_condition, hn, hz, hc, hv]
  all_goals simp [invCc, x86_cc, Flags.cond, CC_Z, CC_NZ, CC_NB, CC_B, CC_S, CC_NS, CC_O, CC_NO,
    CC_NBE, CC_BE, CC_NL, CC_L, CC_NLE, CC_LE]
  all_goals (cases f.sf <;> cases f.of <;> simp)

/-- The block of a lone B.cond, entered in state `s`, returns with `ctx.pc` at the branch target if
`check_condition` of `ctx.nzcv` holds, and at the fallthrough address if not. -/
def BcondFollowsNzcv (d : DecodedInstr) (pc host_code : Word) (host : Mem) (s : State) : Prop :=
  ∃ target s', jump_target d pc = some target ∧ Returns (block_code [d] pc host_code host) s s' ∧
    X86.word s'.mem (s.reg rdi) 256 =
      if check_condition (X86.word s.mem (s.reg rdi) 272) d.cond then target else pc + 4#64

section Decisions

variable {w : BitVec 32} {d : DecodedInstr} {host_code : Word}

/-- The block goes where the host flags say. -/
theorem bcond_returns (hw : decode? w = some d) (hop : d.opcode = 0x54#8) (hc : d.cond ≤ 14#8)
    (hb : host_code ≠ 0#64) (pc : Word) (host : Mem) {s s' : State}
    (h : Returns (block_code [d] pc host_code host) s s') : X86.word s'.mem (s.reg rdi) 256 =
      if host_condition s.flags d.cond then pc + d.branch_offset.setWidth 64 else pc + 4#64 := by
  rw [returns_one (decode?_wellDecoded hw) (instrIr_bcond hop pc) hb] at h
  have hr : Returning (bcondIr d pc).op := .inr (.inr (.inr rfl))
  rw [h, popRet_mem, runIr, if_pos hr, exitIr_cond rfl, setPc_pc (enter_r12 s), enter_flags]
  simp only [bcondIr, cond_invCc s.flags hc]
  cases host_condition s.flags d.cond <;> rfl

theorem jump_target_bcond (hop : d.opcode = 0x54#8) (pc : Word) :
    jump_target d pc = some (pc + d.branch_offset.setWidth 64) := by
  simp [jump_target, instrIr_bcond hop, bcondIr]

theorem bcond_exists_returns (hw : decode? w = some d) (hop : d.opcode = 0x54#8)
    (hb : host_code ≠ 0#64) (pc : Word) (host : Mem) (s : State) :
    ∃ s', Returns (block_code [d] pc host_code host) s s' :=
  ⟨_, (returns_one (decode?_wellDecoded hw) (instrIr_bcond hop pc) hb host).mpr rfl⟩

theorem bcondFollowsNzcv_iff_target (hw : decode? w = some d) (hop : d.opcode = 0x54#8)
    (hc : d.cond ≤ 14#8) (hb : host_code ≠ 0#64) (pc : Word) (host : Mem) (s : State) :
    BcondFollowsNzcv d pc host_code host s ↔
      (if host_condition s.flags d.cond then pc + d.branch_offset.setWidth 64 else pc + 4#64) =
        if check_condition (X86.word s.mem (s.reg rdi) 272) d.cond then
          pc + d.branch_offset.setWidth 64 else pc + 4#64 := by
  have ht := jump_target_bcond hop pc
  constructor
  · rintro ⟨target, s', ht', hs, hpc⟩
    obtain rfl := Option.some.inj (ht.symm.trans ht')
    exact (bcond_returns hw hop hc hb pc host hs).symm.trans hpc
  · intro h
    obtain ⟨s', hs⟩ := bcond_exists_returns hw hop hb pc host s
    exact ⟨_, s', ht, hs, (bcond_returns hw hop hc hb pc host hs).trans h⟩

/-- **Branch decisions**: a translated B.cond follows `ctx.nzcv` exactly when the flags the host
happens to have at block entry decide alike, or the target is the next instruction anyway. -/
theorem bcondFollowsNzcv_iff (hw : decode? w = some d) (hop : d.opcode = 0x54#8)
    (hc : d.cond ≤ 14#8) (hb : host_code ≠ 0#64) (pc : Word) (host : Mem) (s : State) :
    BcondFollowsNzcv d pc host_code host s ↔ jump_target d pc = some (pc + 4#64) ∨
      host_condition s.flags d.cond = check_condition (X86.word s.mem (s.reg rdi) 272) d.cond := by
  rw [bcondFollowsNzcv_iff_target hw hop hc hb, jump_target_bcond hop, Option.some.injEq]
  generalize X86.word s.mem (s.reg rdi) 272 = nzcv
  cases host_condition s.flags d.cond <;> cases check_condition nzcv d.cond <;> simp [eq_comm]

end Decisions

/-- Z set in `ctx.nzcv`, and ZF at block entry. -/
def both_zero : State :=
  { holding (CPUContext.zero.set_nzcv false true false false) with
    flags := ⟨false, false, false, true, false, false⟩ }

/-- At `b.ne .+8`, which is not taken. -/
theorem bcondFollowsNzcv_iff_ne :
    BcondFollowsNzcv (decode 0x54000041#32).2 0x1000#64 0x8000#64 (fun _ => 0#8) both_zero := by
  have hdec : decode? 0x54000041#32 = some (decode 0x54000041#32).2 := by decide
  have hflags : host_condition both_zero.flags 1#8 =
      check_condition (X86.word both_zero.mem (both_zero.reg rdi) 272) 1#8 := by decide
  exact (bcondFollowsNzcv_iff hdec (by decide) (by decide) (by decide) _ _ _).mpr (.inr hflags)

/-- `b.eq .+8` with ZF set at block entry and Z clear in `ctx.nzcv` -/
theorem not_bcondFollowsNzcv : (decode 0x54000040#32).1 = true ∧
    ¬ BcondFollowsNzcv (decode 0x54000040#32).2 0x1000#64 0x8000#64 (fun _ => 0#8)
      { State.cleared with flags := ⟨false, false, false, true, false, false⟩ } := by
  refine ⟨by decide, ?_⟩
  rw [bcondFollowsNzcv_iff_target (show decode? 0x54000040#32 = some (decode 0x54000040#32).2 by decide)
    (by decide) (by decide) (by decide)]
  decide

end ExecEngine

end Bbarm64
