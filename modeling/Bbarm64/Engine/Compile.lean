import Bbarm64.Decoder.DecodeA64
import Bbarm64.Engine.Capacity
import Mathlib.Data.List.Forall2

/-!
# Engine.Compile — translated blocks compute what A64 says

For blocks of the A64 subset.  `Sim` relates an A64 register file to the machine state between two
lowered instructions, one instruction keeps it (`sim_insn`), and a block of them, closed by a branch
or by its end, leaves the A64 result in the context (`sim_run`).
-/

namespace Bbarm64

open X86 ARM64Decoder IRBuilder IROptimizer IRLowering

namespace ExecEngine

/-! ## The relation -/

/-- The general registers of the context: words 0 to 30, and `sp` behind them. -/
def guest_regs (ctx : CPUContext) : BitVec 5 → Word := fun r => ctx.word r.toNat

/-- Inside a block: R12 points to the context, its registers hold `reg`, its other words those of
`ctx`, and the memory outside of it is that of `m`. -/
structure Sim (c : Word) (ctx : CPUContext) (m : Mem) (reg : BitVec 5 → Word) (s : State) : Prop where
  r12 : s.reg r12 = c
  reg : ∀ r : BitVec 5, X86.word s.mem c (8 * r.toNat) = reg r
  rest : ∀ i, 32 ≤ i → i < CPUContext.words → X86.word s.mem c (8 * i) = ctx.word i
  outside : CtxOutside c m s.mem

/-- Behind a block: the context in memory `m'` holds the A64 state `a`, its words behind `pc` (`lr`,
`nzcv`, `v` and the rest) are those of `ctx`, and the memory outside of it is that of `m`. -/
structure Refines (c : Word) (ctx : CPUContext) (m : Mem) (a : A64.State) (m' : Mem) : Prop where
  reg : ∀ r : BitVec 5, X86.word m' c (8 * r.toNat) = a.reg r
  pc : X86.word m' c 256 = a.pc
  rest : ∀ i, 32 < i → i < CPUContext.words → X86.word m' c (8 * i) = ctx.word i
  outside : CtxOutside c m m'

section Relation

variable {c : Word} {ctx : CPUContext} {m : Mem} {reg : BitVec 5 → Word} {s s' : State}

/-- Entering the block. -/
theorem sim_enter (h : CtxAt s.mem (s.reg rdi) ctx) :
    Sim (s.reg rdi) ctx s.mem (guest_regs ctx) (enter s) := by
  have hw : CPUContext.words = 104 := rfl
  refine ⟨enter_r12 s, fun r => h _ ?_, fun i _ hi => h i hi, .refl _ _ _⟩
  have := r.isLt
  omega

/-- A state with the same context pointer and memory. -/
theorem Sim.congr (h : Sim c ctx m reg s) (hr : s'.reg X86.r12 = s.reg X86.r12)
    (hm : s'.mem = s.mem) : Sim c ctx m reg s' := by
  refine ⟨hr.trans h.r12, ?_, ?_, ?_⟩
  · rw [hm]
    exact h.reg
  · rw [hm]
    exact h.rest
  · rw [hm]
    exact h.outside

/-- A store to a guest register. -/
theorem Sim.store (h : Sim c ctx m reg s) {rd : BitVec 5} {x : Reg} {v : Word} (hv : s.reg x = v) :
    Sim c ctx m (fun q => if q = rd then v else reg q) (exec (stArm x (rd.setWidth 8)) s) := by
  have hw : CPUContext.words = 104 := rfl
  have hlt := rd.isLt
  have hrd := toNat_setWidth_arm rd
  have hmem := exec_stArm_mem h.r12 (isArm_setWidth rd) x
  rw [hrd, hv] at hmem
  refine ⟨h.r12, fun q => ?_, fun i h32 hi => ?_, ?_⟩
  · rw [hmem]
    split_ifs with hq
    · rw [hq, word_write_same]
    · have hne : q.toNat ≠ rd.toNat := fun he => hq (BitVec.eq_of_toNat_eq he)
      have hq' := q.isLt
      rw [word_write_ne (by omega) (by omega) (by omega), h.reg]
  · rw [hmem, word_write_ne (by omega) (by omega) (by omega), h.rest i h32 hi]
  · rw [hmem]
    exact h.outside.trans (ctxOutside_write _ _ (by omega) _)

/-- Leaving the block for `pc`. -/
theorem Sim.setPc (h : Sim c ctx m reg s) (pc : Word) :
    Refines c ctx m ⟨reg, pc⟩ (setPc pc s).mem := by
  have hw : CPUContext.words = 104 := rfl
  refine ⟨fun r => ?_, setPc_pc h.r12 pc, fun i h32 hi => ?_, ?_⟩
  · have := r.isLt
    rw [setPc_word h.r12 pc (by omega) (by omega), h.reg]
  · rw [setPc_word h.r12 pc (by omega) (by omega), h.rest i (by omega) hi]
  · rw [setPc_mem h.r12]
    exact h.outside.trans (ctxOutside_write _ _ (by omega) _)

end Relation

/-! ## One instruction -/

section Instructions

variable {i : A64.Insn} {d : DecodedInstr}

/-- The IR of ADD (immediate). -/
def addIr (rd rn : BitVec 5) (imm : Word) (size : Byte) : IRInst where
  op := .ADD
  dest := reg (rd.setWidth 8)
  src1 := reg (rn.setWidth 8)
  src2 := IR_IMM
  imm := imm
  size := size

/-- The IR of MOVZ, ADR and ADRP. -/
def movIr (rd : BitVec 5) (v : Word) (size : Byte) : IRInst where
  op := .MOV_IMM
  dest := reg (rd.setWidth 8)
  imm := v
  size := size

/-- The link register in the IR of BL. -/
def linkIr (pc : Word) : IRInst where
  op := .SET_REG
  dest := 30#16
  imm := pc + 4#64

/-- The IR of an instruction of the subset, up to the size that the lowering ignores. -/
theorem instrIr_of_decodes (h : Decodes i d) (pc : Word) : ∃ size : Byte, instrIr d pc =
    match i with
    | .addImm rd rn imm => [addIr rd rn imm size]
    | .movz rd imm16 => [movIr rd (imm16.setWidth 64) size]
    | .adr rd imm21 => [movIr rd (pc + imm21.signExtend 64) size]
    | .adrp rd imm21 => [movIr rd ((pc &&& ~~~0xFFF#64) + imm21.signExtend 64 <<< 12) size]
    | .nop => [{ op := .NOP, size := size }]
    | .b imm26 => [{ op := .JMP, imm := pc + imm26.signExtend 64 <<< 2, size := size }]
    | .bl imm26 =>
      [linkIr pc, { op := .CALL, imm := pc + imm26.signExtend 64 <<< 2, size := size }] := by
  refine ⟨if d.size ≠ 0#8 then 8#8 else 4#8, ?_⟩
  cases i with
  | addImm rd rn imm =>
    obtain ⟨hop, hrd, hrn, hrm, himm, hset⟩ := h
    simp [instrIr, build_instr, hop, arith, addIr, hrd, hrn, hrm, himm, hset, IRBlock.push_back]
  | movz rd imm16 =>
    obtain ⟨hop, hrd, himm⟩ := h
    simp [instrIr, build_instr, hop, mov_imm, movIr, hrd, himm, IRBlock.push_back]
  | adr rd imm21 | adrp rd imm21 =>
    obtain ⟨hop, hrd, himm⟩ := h
    simp [instrIr, build_instr, hop, mov_imm, movIr, hrd, himm, IRBlock.push_back]
  | nop =>
    have hop : d.opcode = 0x90#8 := h
    simp [instrIr, build_instr, hop, IRBlock.push_back]
  | b imm26 | bl imm26 =>
    obtain ⟨hop, ho⟩ := h
    simp [instrIr, build_instr, hop, ho, linkIr, signExtend_shiftLeft, IRBlock.push_back]

theorem flags_of_decodes (h : Decodes i d) (pc : Word) :
    ∀ ir ∈ instrIr d pc, ir.flags_set = false := by
  obtain ⟨size, he⟩ := instrIr_of_decodes h pc
  rw [he]
  cases i <;> simp [addIr, movIr, linkIr]

variable {c : Word} {ctx : CPUContext} {m : Mem} {regs : BitVec 5 → Word} {s : State} (ft : Word)

/-- The immediate of ADD survives the 32-bit form of the host instruction. -/
theorem signExtend_imm {imm : Word} (h : imm ≤ 0xFFF000#64) :
    (imm.setWidth 32).signExtend 64 = imm := by
  rw [BitVec.le_def] at h
  have hlt : imm.toNat < 2 ^ 31 := Nat.lt_of_le_of_lt h (by decide)
  have hnat : (imm.setWidth 32).toNat = imm.toNat := by
    rw [BitVec.toNat_setWidth, Nat.mod_eq_of_lt (by omega)]
  have hmsb : (imm.setWidth 32).msb = false := by
    rw [BitVec.msb_eq_false_iff_two_mul_lt]
    omega
  apply BitVec.eq_of_toNat_eq
  rw [BitVec.signExtend_eq_setWidth_of_msb_false hmsb, BitVec.toNat_setWidth, hnat,
    Nat.mod_eq_of_lt (by omega)]

theorem sim_addImm (hs : Sim c ctx m regs s) (rd rn : BitVec 5) {imm : Word}
    (himm : imm ≤ 0xFFF000#64) (size : Byte) :
    Sim c ctx m (fun q => if q = rd then regs rn + imm else regs q)
      (execAll (lowerAsm ft (addIr rd rn imm size)) s) := by
  let s₁ := exec (ldArm (rn.setWidth 8) rax) s
  let s₂ := exec (.aluI .add rax (imm.setWidth 32)) s₁
  have hl : lowerAsm ft (addIr rd rn imm size) =
      [ldArm (rn.setWidth 8) rax, .aluI .add rax (imm.setWidth 32), stArm rax (rd.setWidth 8)] := by
    simp [lowerAsm, addIr, aluAsm, saveNzcvIf]
  have hrn := toNat_setWidth_arm rn
  have h₁ : s₁ = s.setReg rax (regs rn) := by
    rw [← hs.reg rn, ← hrn]
    exact exec_ldArm hs.r12 (isArm_setWidth rn) rax
  have hsum : s₂.reg rax = regs rn + imm := by
    simp [s₂, h₁, exec, execAlu, AluOp.eval, signExtend_imm himm]
  have hne : X86.r12 ≠ rax := by decide
  have h₂ : Sim c ctx m regs s₂ := by
    refine hs.congr ?_ ?_
    · simp [s₂, h₁, exec, execAlu, hne]
    · simp [s₂, h₁, exec, execAlu]
  rw [hl]
  exact h₂.store hsum

theorem sim_movImm (hs : Sim c ctx m regs s) (rd : BitVec 5) (v : Word) (size : Byte) :
    Sim c ctx m (fun q => if q = rd then v else regs q)
      (execAll (lowerAsm ft (movIr rd v size)) s) := by
  let x := hostReg (reg (rd.setWidth 8))
  have hl : lowerAsm ft (movIr rd v size) = [.movRI x v, stArm x (rd.setWidth 8)] := by
    simp [lowerAsm, movIr, x]
  -- whatever register the static map gives, R15 for its sentinel, it is not R12
  have hne : X86.r12 ≠ x := (free_hostReg _).1.symm
  have h₁ : Sim c ctx m regs (exec (.movRI x v) s) := by
    refine hs.congr ?_ rfl
    simp [exec, hne]
  rw [hl]
  exact h₁.store (by simp [exec])

theorem sim_link (hs : Sim c ctx m regs s) (pc : Word) :
    Sim c ctx m (fun q => if q = 30#5 then pc + 4#64 else regs q)
      (execAll (lowerAsm ft (linkIr pc)) s) := by
  have h30 : (30#5).setWidth 8 = u8 30#16 := rfl
  have hl : lowerAsm ft (linkIr pc) = [.movRI rax (pc + 4#64), stArm rax ((30#5).setWidth 8)] := by
    simp [lowerAsm, linkIr, h30]
  have hne : X86.r12 ≠ rax := by decide
  have h₁ : Sim c ctx m regs (exec (.movRI rax (pc + 4#64)) s) := by
    refine hs.congr ?_ rfl
    simp [exec, hne]
  rw [hl]
  exact h₁.store (by simp [exec])

variable {a : A64.State}

/-- **One instruction** that is not a branch keeps the relation. -/
theorem sim_insn (h : Decodes i d) (hw : WellDecoded d) (hb : i.isBranch = false)
    (hs : Sim c ctx m a.reg s) : ∃ ir, instrIr d a.pc = [ir] ∧ ¬ Returning ir.op ∧
      Sim c ctx m (i.exec a).reg (execAll (lowerAsm ft ir) s) := by
  have hadd : ¬ Returning IROpcode.ADD := by decide
  have hmov : ¬ Returning IROpcode.MOV_IMM := by decide
  have hnop : ¬ Returning IROpcode.NOP := by decide
  obtain ⟨size, he⟩ := instrIr_of_decodes h a.pc
  cases i with
  | addImm rd rn imm =>
    obtain ⟨hop, _, _, hrm, himm, _⟩ := h
    have hle : imm ≤ 0xFFF000#64 := himm ▸ hw.imm hrm (.inl hop)
    exact ⟨_, he, hadd, sim_addImm ft hs rd rn hle size⟩
  | movz rd imm16 => exact ⟨_, he, hmov, sim_movImm ft hs rd _ size⟩
  | adr rd imm21 => exact ⟨_, he, hmov, sim_movImm ft hs rd _ size⟩
  | adrp rd imm21 => exact ⟨_, he, hmov, sim_movImm ft hs rd _ size⟩
  | nop => exact ⟨_, he, hnop, hs⟩
  | b imm26 | bl imm26 => cases hb

/-- A branch leaves the block for its target. -/
theorem refines_branch (h : Decodes i d) (hb : i.isBranch = true) (hs : Sim c ctx m a.reg s) :
    Refines c ctx m (i.exec a) (runIr ft (instrIr d a.pc) s).mem := by
  obtain ⟨size, he⟩ := instrIr_of_decodes h a.pc
  rw [he]
  cases i with
  | b imm26 =>
    have hr : Returning IROpcode.JMP := by decide
    dsimp only
    rw [runIr, if_pos hr, exitIr_jump (.inl rfl)]
    exact hs.setPc _
  | bl imm26 =>
    have hl : ¬ Returning IROpcode.SET_REG := by decide
    have hr : Returning IROpcode.CALL := by decide
    dsimp only
    rw [runIr, if_neg (show ¬ Returning (linkIr a.pc).op from hl), runIr, if_pos hr,
      exitIr_jump (.inr rfl)]
    exact (sim_link ft hs a.pc).setPc _
  | _ => cases hb

theorem isBranch_of_decodes (h : Decodes i d) : IsBranch d.opcode ↔ i.isBranch = true := by
  cases i with
  | nop =>
    have hop : d.opcode = 0x90#8 := h
    rw [hop]
    decide
  | _ =>
    rw [h.1]
    simp only [A64.Insn.isBranch]
    decide

end Instructions

/-! ## A block -/

section Block

/-- Consecutive program counters, as long as the 32-bit product does not wrap. -/
theorem pcAt_eq (pc : Word) {i : ℕ} (h : i < 2 ^ 30) : pcAt pc i = pc + BitVec.ofNat 64 (i * 4) := by
  have hprod : (BitVec.ofNat 32 i * 4#32).setWidth 64 = BitVec.ofNat 64 (i * 4) := by
    apply BitVec.eq_of_toNat_eq
    simp only [BitVec.toNat_setWidth, BitVec.toNat_mul, BitVec.toNat_ofNat]
    omega
  rw [pcAt, hprod]

theorem pcAt_succ (pc : Word) {i : ℕ} (h : i + 1 < 2 ^ 30) : pcAt pc (i + 1) = pcAt pc i + 4#64 := by
  rw [pcAt_eq pc h, pcAt_eq pc (by omega), BitVec.add_assoc, Nat.add_mul, BitVec.ofNat_add]

theorem branchLast_tail {i : A64.Insn} {is : List A64.Insn}
    (h : ∀ j ∈ (i :: is).dropLast, j.isBranch = false) : ∀ j ∈ is.dropLast, j.isBranch = false := by
  intro j hj
  refine h j ?_
  cases is with
  | nil => cases hj
  | cons i' is => exact List.mem_cons_of_mem i hj

variable {is : List A64.Insn} {ds : List DecodedInstr}
variable {c : Word} {ctx : CPUContext} {m : Mem} {s : State} {a : A64.State}

/-- **The run of a block**, by induction over the instructions: `Sim` holds in front of each. -/
theorem sim_run (hds : List.Forall₂ (fun i d => Decodes i d ∧ WellDecoded d) is ds)
    (hbr : ∀ i ∈ is.dropLast, i.isBranch = false) (pc : Word) (k : ℕ) (hk : k + is.length < 2 ^ 30)
    (hpc : a.pc = pcAt pc k) (hs : Sim c ctx m a.reg s) :
    Refines c ctx m (A64.run is a) (runIr (pcAt pc (k + is.length)) (irFrom pc k ds) s).mem := by
  induction hds generalizing k a s with
  | nil =>
    have h := hs.setPc (pcAt pc k)
    rw [← hpc] at h
    exact hpc ▸ h
  | @cons i d is ds hd hrest ih =>
    obtain ⟨hi, hw⟩ := hd
    have hends : ends_block d.category = true ↔ i.isBranch = true :=
      (ends_block_iff hw).trans (isBranch_of_decodes hi)
    rw [irFrom, ← hpc, A64.run_cons]
    cases hb : i.isBranch with
    | true =>
      -- nothing follows a branch
      have hnil : is = [] := by
        by_contra hne
        have hmem : i ∈ (i :: is).dropLast := by simp [List.dropLast_cons_of_ne_nil hne]
        rw [hbr i hmem] at hb
        cases hb
      rw [if_pos (hends.mpr hb), List.append_nil, hnil, A64.run_nil]
      exact refines_branch _ hi hb hs
    | false =>
      have hne : ¬ ends_block d.category = true := by rw [hends, hb]; decide
      obtain ⟨ir, hir, hret, hs'⟩ := sim_insn (pcAt pc (k + (i :: is).length)) hi hw hb hs
      have hk' : k + 1 + is.length = k + (i :: is).length := by
        rw [List.length_cons]
        omega
      have hpc' : (i.exec a).pc = pcAt pc (k + 1) := by
        rw [A64.exec_pc hb, hpc, pcAt_succ pc (by omega)]
      rw [if_neg hne, hir, List.cons_append, List.nil_append, runIr, if_neg hret, ← hk']
      rw [← hk'] at hs'
      exact ih (branchLast_tail hbr) (k + 1) (by omega) hpc' hs'

/-- The optimizer has nothing to do where no flags are set. -/
theorem merge_of_flags {l : List IRInst} (h : ∀ ir ∈ l, ir.flags_set = false) : merge l = l := by
  induction l with
  | nil => rfl
  | cons ir l ih =>
    have hir : ir.flags_set = false := h ir (by simp)
    have hhead : mergeHead ir l = ir := by
      cases l with
      | nil => rfl
      | cons b l => simp [mergeHead, hir]
    rw [merge, hhead, ih fun b hb => h b (by simp [hb])]

theorem exists_decodes (hds : List.Forall₂ (fun i d => Decodes i d ∧ WellDecoded d) is ds) :
    ∀ d ∈ ds, ∃ i, Decodes i d ∧ WellDecoded d := by
  induction hds with
  | nil => exact List.forall_mem_nil _
  | cons hd _ ih =>
    intro d hmem
    rcases List.mem_cons.mp hmem with rfl | hmem
    · exact ⟨_, hd⟩
    · exact ih d hmem

theorem blockIr_of_decodes (hds : List.Forall₂ (fun i d => Decodes i d ∧ WellDecoded d) is ds)
    (pc : Word) : blockIr ds pc = irFrom pc 0 ds := by
  refine merge_of_flags fun ir hir => ?_
  obtain ⟨d, hd, pc', hir'⟩ := mem_irFrom hir
  obtain ⟨i, hi, -⟩ := exists_decodes hds d hd
  exact flags_of_decodes hi pc' ir hir'

/-- No instruction of the subset takes more than 37 bytes. -/
theorem cost_of_decodes {i : A64.Insn} {d : DecodedInstr} (h : Decodes i d) :
    (instr_cost d).1 ≤ 37 ∧ (instr_cost d).2 = false := by
  have hreg : ∀ r, reg_bytes r ≤ 8 := by
    intro r
    unfold reg_bytes
    split_ifs <;> decide
  have hrd := hreg d.rd
  have hrn := hreg d.rn
  cases i with
  | addImm rd rn imm =>
    obtain ⟨hop, _, _, hrm, _, hset⟩ := h
    simp [instr_cost, hop, hrm, hset]
    omega
  | movz rd imm16 | adr rd imm21 | adrp rd imm21 =>
    have hop := h.1
    simp [instr_cost, hop]
    omega
  | nop =>
    have hop : d.opcode = 0x90#8 := h
    simp [instr_cost, hop]
  | b imm26 | bl imm26 =>
    have hop := h.1
    simp [instr_cost, hop]

theorem body_bytes_of_decodes
    (hds : List.Forall₂ (fun i d => Decodes i d ∧ WellDecoded d) is ds) :
    body_bytes ds ≤ 37 * is.length := by
  induction hds with
  | nil => exact Nat.le_refl _
  | cons hd _ ih =>
    obtain ⟨hle, hflag⟩ := cost_of_decodes hd.1
    simp only [body_bytes, hflag, Bool.false_and, Bool.false_eq_true, ↓reduceIte, List.length_cons]
    omega

theorem endsLast_of_decodes (hds : List.Forall₂ (fun i d => Decodes i d ∧ WellDecoded d) is ds)
    (hbr : ∀ i ∈ is.dropLast, i.isBranch = false) : EndsLast ds := by
  induction hds with
  | nil => trivial
  | @cons i d is ds hd hrest ih =>
    refine ⟨fun hbranch => ?_, ih (branchLast_tail hbr)⟩
    cases hrest with
    | nil => rfl
    | cons _ _ =>
      have hi := (isBranch_of_decodes hd.1).mp hbranch
      rw [hbr i (by simp)] at hi
      cases hi

/-- Words of the subset decode, one by one. -/
theorem exists_decoded {ws : List (BitVec 32)}
    (hws : List.Forall₂ (fun w i => A64.Insn.ofWord? w = some i) ws is) :
    ∃ ds, List.Forall₂ (fun w d => decode? w = some d) ws ds ∧
      List.Forall₂ (fun i d => Decodes i d ∧ WellDecoded d) is ds := by
  induction hws with
  | nil => exact ⟨[], .nil, .nil⟩
  | cons hw _ ih =>
    obtain ⟨ds, h₁, h₂⟩ := ih
    obtain ⟨d, hd, hi⟩ := decodes_of_ofWord? hw
    exact ⟨d :: ds, .cons hd h₁, .cons ⟨hi, decode?_wellDecoded hd⟩ h₂⟩

end Block

/-- **Translated blocks refine A64**: up to 64 words of the subset, a branch last if at all, decode,
and the code of their block returns from every machine state whose RDI points to a context with the
A64 result in that context and nothing else changed. -/
theorem block_code_refines {ws : List (BitVec 32)} {is : List A64.Insn}
    (hws : List.Forall₂ (fun w i => A64.Insn.ofWord? w = some i) ws is) (hlen : ws.length ≤ 64)
    (hbr : ∀ i ∈ is.dropLast, i.isBranch = false) (pc : Word) {host_code : Word}
    (hb : host_code ≠ 0#64) (host : Mem) {ctx : CPUContext} {s : State}
    (hctx : CtxAt s.mem (s.reg rdi) ctx) :
    ∃ ds s', List.Forall₂ (fun w d => decode? w = some d) ws ds ∧
      Returns (block_code ds pc host_code host) s s' ∧
        Refines (s.reg rdi) ctx s.mem (A64.run is ⟨guest_regs ctx, pc⟩) s'.mem := by
  obtain ⟨ds, hdec, hds⟩ := exists_decoded hws
  have hlen_is : ws.length = is.length := hws.length_eq
  have hlen_ds : is.length = ds.length := hds.length_eq
  have hgood : ∀ d ∈ ds, WellDecoded d := fun d hd => (exists_decodes hds d hd).choose_spec.2
  have hfit : size (blockInstrs ds pc) ≤ slot_size := by
    have hbody := body_bytes_of_decodes hds
    have hslot : slot_size = 4096 := rfl
    rw [size_blockInstrs hgood (endsLast_of_decodes hds hbr), code_bytes]
    omega
  have hft : fallthrough ds pc = pcAt pc (0 + is.length) := by
    rw [pcAt_eq pc (by omega), fallthrough, hlen_ds, Nat.zero_add]
  refine ⟨ds, (runIr (fallthrough ds pc) (blockIr ds pc) (enter s)).popRet, hdec, ?_, ?_⟩
  · rw [block_code_eq hgood hb hfit]
    exact returns_iff.mpr rfl
  · rw [popRet_mem, blockIr_of_decodes hds, hft]
    have hpc : (⟨guest_regs ctx, pc⟩ : A64.State).pc = pcAt pc 0 := (pcAt_zero pc).symm
    exact sim_run hds hbr pc 0 (by omega) hpc (sim_enter hctx)

/-- At `add x1, x2, #1; movz x16, #42; bl .+8`, with 7 in `x2`. -/
theorem block_code_refines_bl :
    ∃ ds s', List.Forall₂ (fun w d => decode? w = some d)
        [0x91000441#32, 0xD2800550#32, 0x94000002#32] ds ∧
      Returns (block_code ds 0x1000#64 0x8000#64 fun _ => 0#8) (holding twelve_in_x1) s' ∧
        Refines 0#64 twelve_in_x1 (ctx_mem twelve_in_x1)
          (A64.run [.addImm 1#5 2#5 1#64, .movz 16#5 42#16, .bl 2#26]
            ⟨guest_regs twelve_in_x1, 0x1000#64⟩) s'.mem := by
  have hctx : CtxAt (holding twelve_in_x1).mem ((holding twelve_in_x1).reg rdi) twelve_in_x1 :=
    ctxAt_holding _
  have hbr : ∀ i ∈ [A64.Insn.addImm 1#5 2#5 1#64, .movz 16#5 42#16, .bl 2#26].dropLast,
      i.isBranch = false := by decide
  exact block_code_refines (.cons (by decide) (.cons (by decide) (.cons (by decide) .nil)))
    (by decide) hbr 0x1000#64 (by decide) (fun _ => 0#8) hctx

end ExecEngine

end Bbarm64
