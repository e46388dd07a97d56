import Bbarm64.Backend.LowerAsm
import Mathlib.Data.Int.Notation

/-!
# Backend.BlockRun — where a lowered block goes

`runIr` is the state in which the code of an IR list reaches its `ret`; `runIr_steps` shows that the
machine gets there, from wherever the list lies in a program, and that the `ret` follows the store
to `ctx.pc`.  `Form` lists the instructions that occur before that, for invariants of whole runs.
-/

namespace Bbarm64

open X86

namespace IRLowering

/-! ## The outcome -/

/-- The state behind `mov rax, pc; mov [r12 + 256], rax`. -/
def setPc (pc : Word) (s : State) : State := execAll [.movRI rax pc, .store r12 256#32 rax] s

/-- The condition code under which the `jcc` of JMP_COND skips the taken path. -/
def invCc (cond : Byte) : BitVec 4 := (x86_cc cond ^^^ 1#8).setWidth 4

/-- The opcodes whose lowering returns. -/
def Returning (op : IROpcode) : Prop := op = .JMP ∨ op = .CALL ∨ op = .RET ∨ op = .JMP_COND

instance (op : IROpcode) : Decidable (Returning op) := inferInstanceAs (Decidable (_ ∨ _))

/-- The state in which the lowering of a returning instruction reaches its `ret`. -/
def exitIr (ft : Word) (ir : IRInst) (s : State) : State :=
  if ir.op = .RET then execAll [.load rax r12 264#32, .store r12 256#32 rax] s
  else if ir.op = .JMP_COND then setPc (if s.flags.cond (invCc ir.cond) then ft else ir.imm) s
  else setPc ir.imm s

/-- The state in which a lowered IR list, closed by the return to `ft`, reaches its `ret`. -/
def runIr (ft : Word) : List IRInst → State → State
  | [], s => setPc ft s
  | ir :: rest, s =>
    if Returning ir.op then exitIr ft ir s else runIr ft rest (execAll (lowerAsm ft ir) s)

/-! ## The forms of straight-line parts -/

/-- A register the lowering may write: neither the context pointer nor the stack pointer. -/
def Free (x : Reg) : Prop := x ≠ r12 ∧ x ≠ rsp

instance (x : Reg) : Decidable (Free x) := inferInstanceAs (Decidable (_ ∧ _))

/-- The instructions in the lowering of an IR instruction that does not return, but for
`save_nzcv`.  It stores to the registers the instruction writes, and to guest memory. -/
inductive Form (ir : IRInst) : Instr → Prop where
  | movRI {x : Reg} (hx : Free x) (imm : BitVec 64) : Form ir (.movRI x imm)
  | alu (op : AluOp) {x : Reg} (hx : Free x) (y : Reg) : Form ir (.alu op x y)
  | aluI (op : AluOp) {x : Reg} (hx : Free x) (imm : BitVec 32) : Form ir (.aluI op x imm)
  | test (x y : Reg) : Form ir (.test x y)
  | shift (op : ShiftOp) {x : Reg} (hx : Free x) (n : Byte) : Form ir (.shift op x n)
  | loadCtx {x : Reg} (hx : Free x) (d : BitVec 32) : Form ir (.load x r12 d)
  | loadGuest {x : Reg} (hx : Free x) (d : BitVec 32) : Form ir (.load x rax d)
  | storeDest (x : Reg) : Form ir (stArm x (u8 ir.dest))
  | storeSrc2 (h : ir.op = .LOAD_PAIR) (x : Reg) : Form ir (stArm x (u8 ir.src2))
  | storeGuest (d : BitVec 32) (x : Reg) : Form ir (.store rax d x)
  | nop : Form ir .nop

theorem free_rax : Free rax := by decide

theorem free_rcx : Free rcx := by decide

theorem free_rdx : Free rdx := by decide

theorem free_hostReg (r : IRReg) : Free (hostReg r) := by
  have h : ∀ b : Byte, Free (hreg (arm_reg_to_x86 b)) := by decide
  exact h _

section Forms

variable {ir : IRInst}

theorem form_ldArm (r : Byte) {x : Reg} (hx : Free x) : Form ir (ldArm r x) := .loadCtx hx _

theorem form_aluAsm (op : AluOp) (c : Prop) [Decidable c] : ∀ i ∈ aluAsm op c ir, Form ir i := by
  unfold aluAsm
  split_ifs
  · simp only [List.forall_mem_cons]
    exact ⟨.aluI _ free_rax _, nofun⟩
  · simp only [List.forall_mem_cons]
    exact ⟨form_ldArm _ free_rcx, .alu _ free_rax _, nofun⟩

theorem form_shiftAsm (op : ShiftOp) : ∀ i ∈ shiftAsm op ir, Form ir i := by
  simp only [shiftAsm, List.forall_mem_cons]
  exact ⟨form_ldArm _ free_rax, .shift _ free_rax _, Form.storeDest _, List.forall_mem_nil _⟩

end Forms

/-- The lowering of an instruction that does not return: plain forms around `save_nzcv`. -/
theorem lowerAsm_split (ft : Word) {ir : IRInst} (h : ¬ Returning ir.op) :
    ∃ before after set, lowerAsm ft ir = before ++ saveNzcvIf set ++ after ∧
      (∀ i ∈ before, Form ir i) ∧ ∀ i ∈ after, Form ir i := by
  have hld1 : Form ir (ldArm (u8 ir.src1) rax) := form_ldArm _ free_rax
  have hld2 : Form ir (ldArm (u8 ir.src2) rcx) := form_ldArm _ free_rcx
  have hst : Form ir (stArm rax (u8 ir.dest)) := .storeDest rax
  -- without flags
  have key : ∀ l : List Instr, (∀ i ∈ l, Form ir i) → ∃ before after set,
      l = before ++ saveNzcvIf set ++ after ∧ (∀ i ∈ before, Form ir i) ∧ ∀ i ∈ after, Form ir i :=
    fun l hl => ⟨l, [], false, by simp [saveNzcvIf], hl, nofun⟩
  unfold lowerAsm
  dsimp only
  split
  case h_1 | h_2 =>
    refine ⟨_, [stArm rax (u8 ir.dest)], ir.flags_set, rfl, ?_, ?_⟩
    · exact List.forall_mem_cons.mpr ⟨hld1, form_aluAsm _ _⟩
    · exact List.forall_mem_cons.mpr ⟨hst, nofun⟩
  case h_3 | h_4 | h_5 => exact key _ (form_shiftAsm _)
  case h_6 =>
    refine ⟨_, [], ir.flags_set, (List.append_nil _).symm, ?_, nofun⟩
    exact List.forall_mem_cons.mpr ⟨hld1, form_aluAsm _ _⟩
  case h_7 =>
    refine ⟨[ldArm (u8 ir.src1) rax, ldArm (u8 ir.src2) rcx, .test rax rcx], [], ir.flags_set,
      (List.append_nil _).symm, ?_, nofun⟩
    simp only [List.forall_mem_cons]
    exact ⟨hld1, hld2, .test _ _, nofun⟩
  case h_8 =>
    refine key _ ?_
    simp only [List.forall_mem_cons]
    exact ⟨.movRI (free_hostReg _) _, .storeDest _, nofun⟩
  case h_9 =>
    refine key _ ?_
    split_ifs
    · simp only [List.forall_mem_cons]
      exact ⟨.movRI free_rax _, hst, nofun⟩
    · simp only [List.forall_mem_cons]
      exact ⟨form_ldArm _ (free_hostReg _), .storeDest _, nofun⟩
  case h_10 | h_11 =>
    refine key _ ?_
    simp only [List.forall_mem_cons]
    exact ⟨hld1, .loadGuest free_rax _, hst, nofun⟩
  case h_12 | h_13 =>
    refine key _ ?_
    simp only [List.forall_mem_cons]
    exact ⟨hld1, hld2, .storeGuest _ _, nofun⟩
  case h_18 hop =>
    refine key _ ?_
    simp only [List.forall_mem_cons]
    exact ⟨hld1, .loadGuest free_rcx _, .loadGuest free_rdx _, .storeDest _, .storeSrc2 hop _, nofun⟩
  case h_19 =>
    refine key _ ?_
    simp only [List.forall_mem_cons]
    exact ⟨hld1, hld2, form_ldArm _ free_rdx, .storeGuest _ _, .storeGuest _ _, nofun⟩
  case h_20 =>
    refine key _ ?_
    simp only [List.forall_mem_cons]
    exact ⟨.nop, nofun⟩
  all_goals exact absurd (by simp [Returning, *]) h

theorem Form.straight {ir : IRInst} {i : Instr} (h : Form ir i) : i.straight = true := by
  cases h <;> rfl

theorem Form.writes {ir : IRInst} {i : Instr} (h : Form ir i) :
    X86.r12 ∉ i.writes ∧ X86.rsp ∉ i.writes := by
  cases h with
  | movRI hx | alu _ hx | aluI _ hx | shift _ hx | loadCtx hx | loadGuest hx =>
    simpa [Instr.writes] using ⟨hx.1.symm, hx.2.symm⟩
  | test | storeDest | storeSrc2 | storeGuest | nop => simp [Instr.writes, stArm]

theorem saveNzcv_straight : ∀ i ∈ saveNzcv, i.straight = true := by
  simp [saveNzcv, Instr.straight]

theorem saveNzcv_r12 : ∀ i ∈ saveNzcv, r12 ∉ i.writes := by
  have h : r12 ∉ saveNzcv.flatMap Instr.writes := by decide
  exact fun i hi hm => h (List.mem_flatMap.mpr ⟨i, hi, hm⟩)

theorem mem_saveNzcvIf {i : Instr} {set : Bool} (h : i ∈ saveNzcvIf set) : i ∈ saveNzcv := by
  unfold saveNzcvIf at h
  split_ifs at h
  · exact h
  · cases h

/-- The lowering of an instruction that does not return, form by form. -/
theorem lowerAsm_form (ft : Word) {ir : IRInst} (h : ¬ Returning ir.op) {i : Instr}
    (hi : i ∈ lowerAsm ft ir) : Form ir i ∨ i ∈ saveNzcv := by
  obtain ⟨before, after, set, he, hb, ha⟩ := lowerAsm_split ft h
  rw [he, List.mem_append, List.mem_append] at hi
  rcases hi with (hi | hi) | hi
  · exact .inl (hb i hi)
  · exact .inr (mem_saveNzcvIf hi)
  · exact .inl (ha i hi)

theorem lowerAsm_straight (ft : Word) {ir : IRInst} (h : ¬ Returning ir.op) :
    ∀ i ∈ lowerAsm ft ir, i.straight = true :=
  fun i hi => (lowerAsm_form ft h hi).elim Form.straight (saveNzcv_straight i)

/-! ## The way to the return -/

/-- The `ret` at offset `ip` of `prog` follows the store to `ctx.pc`. -/
def RetAfterStore (prog : List Instr) (ip : ℕ) : Prop :=
  ∃ pre post, prog = pre ++ [.store r12 256#32 rax] ++ .ret :: post ∧
    ip = size (pre ++ [.store r12 256#32 rax])

theorem RetAfterStore.atRet {prog : List Instr} {c : Config} (h : RetAfterStore prog c.ip) :
    AtRet (encodeAll prog) c := by
  obtain ⟨pre, post, rfl, hip⟩ := h
  unfold AtRet
  rw [hip, decode_at]
  rfl

section Return

variable {prog : List Instr}

/-- Two instructions, the second the store to `ctx.pc`, and the return. -/
theorem storeRet_steps {i : Instr} (hi : i.straight = true) {pre post : List Instr}
    (hp : prog = pre ++ [i, .store r12 256#32 rax, .ret] ++ post) (s : State) :
    ∃ ip, Steps (encodeAll prog) ⟨size pre, s⟩ ⟨ip, execAll [i, .store r12 256#32 rax] s⟩ ∧
      RetAfterStore prog ip := by
  have hp' : prog = pre ++ [i, .store r12 256#32 rax] ++ (.ret :: post) := by simp [hp]
  have e : pre ++ [i] ++ [.store r12 256#32 rax] = pre ++ [i, .store r12 256#32 rax] := by simp
  refine ⟨_, ?_, pre ++ [i], post, by simp [hp], rfl⟩
  have hs : ∀ j ∈ [i, .store r12 256#32 rax], j.straight = true := by
    simp only [List.forall_mem_cons]
    exact ⟨hi, rfl, nofun⟩
  have h := steps_list hs pre (.ret :: post) s
  rw [← hp'] at h
  rw [e]
  exact h

theorem setPc_steps {pre post : List Instr} {pc : Word} (hp : prog = pre ++ blockRet pc ++ post)
    (s : State) : ∃ ip, Steps (encodeAll prog) ⟨size pre, s⟩ ⟨ip, setPc pc s⟩ ∧
      RetAfterStore prog ip := storeRet_steps (i := .movRI rax pc) rfl hp s

theorem exitIr_steps {ft : Word} {ir : IRInst} (hr : Returning ir.op) {pre post : List Instr}
    (hp : prog = pre ++ lowerAsm ft ir ++ post) (s : State) :
    ∃ ip, Steps (encodeAll prog) ⟨size pre, s⟩ ⟨ip, exitIr ft ir s⟩ ∧ RetAfterStore prog ip := by
  unfold exitIr
  rcases hr with h | h | h | h
  · have hp' : prog = pre ++ blockRet ir.imm ++ post := by rw [hp]; simp only [lowerAsm, h]
    simpa [h] using setPc_steps hp' s
  · have hp' : prog = pre ++ blockRet ir.imm ++ post := by rw [hp]; simp only [lowerAsm, h]
    simpa [h] using setPc_steps hp' s
  · have hp' : prog = pre ++ [.load rax r12 264#32, .store r12 256#32 rax, .ret] ++ post := by
      rw [hp]
      simp only [lowerAsm, h]
    rw [if_pos h]
    exact storeRet_steps rfl hp' s
  · -- the `jcc` either falls into the taken path or skips its 19 bytes
    have hp₁ : prog = pre ++ .jcc (invCc ir.cond) 19#32 ::
        (blockRet ir.imm ++ (blockRet ft ++ post)) := by
      rw [hp]
      simp only [lowerAsm, h, invCc]
      simp
    have hp₂ : prog = (pre ++ [.jcc (invCc ir.cond) 19#32]) ++ blockRet ir.imm ++
        (blockRet ft ++ post) := by simp [hp₁]
    have hp₃ : prog = (pre ++ [.jcc (invCc ir.cond) 19#32] ++ blockRet ir.imm) ++ blockRet ft ++
        post := by simp [hp₁]
    have hsz : size (pre ++ [.jcc (invCc ir.cond) 19#32]) = size pre + 6 := by
      simp [encode]
    have hsz' : size (pre ++ [.jcc (invCc ir.cond) 19#32] ++ blockRet ir.imm) =
        size pre + 6 + 19 := by
      rw [size_append, hsz]
      rfl
    rw [if_neg (by simp [h]), if_pos h]
    cases hc : s.flags.cond (invCc ir.cond) with
    | false =>
      obtain ⟨ip, hw, hret⟩ := setPc_steps hp₂ s
      have hstep := step_jcc_false hc 19#32 pre (blockRet ir.imm ++ (blockRet ft ++ post))
      rw [← hp₁, ← hsz] at hstep
      exact ⟨ip, (Steps.single hstep).trans hw, hret⟩
    | true =>
      obtain ⟨ip, hw, hret⟩ := setPc_steps hp₃ s
      have hstep := step_jcc_true hc (by decide : (19#32).toInt = (19 : ℕ)) pre
        (blockRet ir.imm ++ (blockRet ft ++ post))
      rw [← hp₁, ← hsz'] at hstep
      exact ⟨ip, (Steps.single hstep).trans hw, hret⟩

/-- **The run of a lowered IR list**, by induction over it. -/
theorem runIr_steps {ft : Word} (irs : List IRInst) {pre : List Instr}
    (hp : prog = pre ++ irs.flatMap (lowerAsm ft) ++ blockRet ft) (s : State) :
    ∃ ip, Steps (encodeAll prog) ⟨size pre, s⟩ ⟨ip, runIr ft irs s⟩ ∧ RetAfterStore prog ip := by
  induction irs generalizing pre s with
  | nil =>
    have hp' : prog = pre ++ blockRet ft ++ [] := by simp [hp]
    exact setPc_steps hp' s
  | cons ir rest ih =>
    have hp' : prog = pre ++ lowerAsm ft ir ++ (rest.flatMap (lowerAsm ft) ++ blockRet ft) := by
      simp [hp]
    unfold runIr
    by_cases hr : Returning ir.op
    · rw [if_pos hr]
      exact exitIr_steps hr hp' s
    · rw [if_neg hr]
      have h₁ := steps_list (lowerAsm_straight ft hr) pre
        (rest.flatMap (lowerAsm ft) ++ blockRet ft) s
      rw [← hp'] at h₁
      have hp'' : prog = (pre ++ lowerAsm ft ir) ++ rest.flatMap (lowerAsm ft) ++ blockRet ft := by
        simp [hp]
      obtain ⟨ip, hw, hret⟩ := ih hp'' (execAll (lowerAsm ft ir) s)
      exact ⟨ip, h₁.trans hw, hret⟩

end Return

/-- The state behind the prologue, which keeps the context pointer in R12. -/
def enter (s : State) : State := s.setReg r12 (s.reg rdi)

theorem blockAsm_steps (ft : Word) (irs : List IRInst) (s : State) :
    Steps (encodeAll (blockAsm irs ft)) ⟨0, s⟩ ⟨size [.movRR r12 rdi], enter s⟩ ∧
      ∃ ip, Steps (encodeAll (blockAsm irs ft)) ⟨size [.movRR r12 rdi], enter s⟩
        ⟨ip, runIr ft irs (enter s)⟩ ∧ RetAfterStore (blockAsm irs ft) ip := by
  have hp : blockAsm irs ft = [.movRR r12 rdi] ++ irs.flatMap (lowerAsm ft) ++ blockRet ft := rfl
  exact ⟨Steps.single (step_straight (i := .movRR r12 rdi) rfl []
    (irs.flatMap (lowerAsm ft) ++ blockRet ft) s), runIr_steps irs hp (enter s)⟩

/-- **A lowered block returns** in the state `runIr` gives behind its prologue. -/
theorem blockAsm_returns (ft : Word) (irs : List IRInst) (s : State) :
    Returns (encodeAll (blockAsm irs ft)) s (runIr ft irs (enter s)).popRet := by
  obtain ⟨h₀, ip, h₁, hret⟩ := blockAsm_steps ft irs s
  exact ⟨_, h₀.trans h₁, hret.atRet, rfl⟩

theorem returns_iff {ft : Word} {irs : List IRInst} {s s' : State} :
    Returns (encodeAll (blockAsm irs ft)) s s' ↔ s' = (runIr ft irs (enter s)).popRet :=
  ⟨fun h => h.unique (blockAsm_returns ft irs s), fun h => h ▸ blockAsm_returns ft irs s⟩

/-! ## Jumps -/

theorem jumpsForward_blockRet (pc : Word) : JumpsForward (blockRet pc) := by
  rintro pre cc rel post h
  have hm : Instr.jcc cc rel ∈ blockRet pc := by simp [h]
  simp [blockRet] at hm

theorem jumpsForward_lowerAsm (ft : Word) (ir : IRInst) : JumpsForward (lowerAsm ft ir) := by
  by_cases hr : Returning ir.op
  · rcases hr with h | h | h | h
    · simpa only [lowerAsm, h] using jumpsForward_blockRet ir.imm
    · simpa only [lowerAsm, h] using jumpsForward_blockRet ir.imm
    · rintro pre cc rel post he
      have hm : Instr.jcc cc rel ∈ lowerAsm ft ir := by simp [he]
      simp [lowerAsm, h] at hm
    · have hl : lowerAsm ft ir =
          .jcc (invCc ir.cond) 19#32 :: (blockRet ir.imm ++ blockRet ft) := by
        simp only [lowerAsm, h, invCc]
      have htail : ∀ cc rel, Instr.jcc cc rel ∉ blockRet ir.imm ++ blockRet ft := by
        simp [blockRet]
      rintro pre cc rel post he
      rw [hl] at he
      cases pre with
      | nil =>
        obtain ⟨hj, rfl⟩ := List.cons.inj he
        obtain ⟨-, rfl⟩ := Instr.jcc.inj hj
        exact ⟨blockRet ir.imm, blockRet ft, rfl, by simp [blockRet], rfl⟩
      | cons j pre =>
        obtain ⟨-, he⟩ := List.cons.inj he
        exact absurd (by rw [he]; simp) (htail cc rel)
  · exact .of_straight (lowerAsm_straight ft hr)

theorem jumpsForward_blockAsm (irs : List IRInst) (ft : Word) : JumpsForward (blockAsm irs ft) := by
  have hall : JumpsForward (irs.flatMap (lowerAsm ft)) := by
    induction irs with
    | nil => exact .nil
    | cons ir rest ih => exact (jumpsForward_lowerAsm ft ir).append ih
  have h := (JumpsForward.of_straight (l := [.movRR r12 rdi]) (by simp [Instr.straight])).append
    (hall.append (jumpsForward_blockRet ft))
  simpa [blockAsm] using h

/-- The straight-line instructions behind the prologue of a block. -/
theorem mem_blockAsm {irs : List IRInst} {ft : Word} {i : Instr}
    (h : i ∈ irs.flatMap (lowerAsm ft) ++ blockRet ft) (hs : i.straight = true) :
    (∃ ir ∈ irs, Form ir i) ∨ i ∈ saveNzcv ∨ (∃ pc, i = .movRI rax pc) ∨
      i = .load rax r12 264#32 ∨ i = .store r12 256#32 rax := by
  have hret : ∀ pc, i ∈ blockRet pc → (∃ pc, i = .movRI rax pc) ∨ i = .load rax r12 264#32 ∨
      i = .store r12 256#32 rax := by
    intro pc hi
    simp only [blockRet, List.mem_cons, List.not_mem_nil, or_false] at hi
    rcases hi with rfl | rfl | rfl
    · exact .inl ⟨pc, rfl⟩
    · exact .inr (.inr rfl)
    · cases hs
  rcases List.mem_append.mp h with h | h
  · obtain ⟨ir, hir, hi⟩ := List.mem_flatMap.mp h
    by_cases hr : Returning ir.op
    · refine .inr (.inr ?_)
      rcases hr with ho | ho | ho | ho <;> simp only [lowerAsm, ho] at hi
      · exact hret _ hi
      · exact hret _ hi
      · simp only [List.mem_cons, List.not_mem_nil, or_false] at hi
        rcases hi with rfl | rfl | rfl
        · exact .inr (.inl rfl)
        · exact .inr (.inr rfl)
        · cases hs
      · rcases List.mem_cons.mp hi with rfl | hi
        · cases hs
        · exact (List.mem_append.mp hi).elim (hret _) (hret _)
    · exact (lowerAsm_form ft hr hi).imp (fun hf => ⟨ir, hir, hf⟩) .inl
  · exact .inr (.inr (hret _ h))

end IRLowering

end Bbarm64
