import Bbarm64.Engine.BlockCode

/-!
# Engine.CalleeSaved — the registers a block owes its caller

`execute_block` calls a block as `void (*)(CPUContext*)`.  The prologue puts the context pointer
into R12 and nothing brings the caller's value back.  RBX, R13, R14 and R15 are the host registers
of some guest registers, and MOV_IMM loads its immediate there on the way to the context.  All other
lowerings use RAX, RCX, RDX and R9 only, and the stack pointer comes back.
-/

namespace Bbarm64

open X86 ARM64Decoder IRBuilder IROptimizer IRLowering

namespace IRBuilder

/-! ## Register moves -/

/-- A SET_REG loads an immediate. -/
def NoCopy (ir : IRInst) : Prop := ir.op = .SET_REG → ir.src1 = IR_NONE

theorem builds_noCopy {d : DecodedInstr} (hd : d.opcode ≠ 0x20#8) (pc : Word) :
    Builds (fun l => ∀ ir ∈ l, NoCopy ir) (build_instr d pc) := by
  have hone : ∀ {ir : IRInst}, ir.op ≠ .SET_REG → ∀ a ∈ [ir], NoCopy a := by
    intro ir h a ha hop
    obtain rfl := List.mem_singleton.mp ha
    exact absurd hop h
  have htwo : ∀ {a b : IRInst}, NoCopy a → b.op ≠ .SET_REG → ∀ i ∈ [a, b], NoCopy i := by
    intro a b ha hb
    exact List.forall_mem_cons.mpr ⟨ha, hone hb⟩
  unfold build_instr
  dsimp only
  repeat' refine Builds.ite (fun _ => ?_) ?_
  all_goals first
    | exact absurd ‹_› hd
    | exact .one (hone IROpcode.noConfusion)
    | exact .two (htwo (fun _ => rfl) IROpcode.noConfusion) id fun _ => rfl
    | exact ⟨[_], hone IROpcode.noConfusion, fun _ => ⟨_, rfl, rfl⟩⟩
    | exact .two (htwo (fun h => IROpcode.noConfusion h) IROpcode.noConfusion)
        (fun b => { b with is_conditional := true }) fun _ => rfl

/-- Blocks of decoded instructions copy no register. -/
theorem irFrom_noCopy {ds : List DecodedInstr} (hds : ∀ d ∈ ds, ∃ w, decode? w = some d)
    {start_pc : Word} {i : ℕ} : ∀ ir ∈ irFrom start_pc i ds, NoCopy ir := by
  intro ir hir
  obtain ⟨d, hd, pc, hpc⟩ := mem_irFrom hir
  obtain ⟨w, hw⟩ := hds d hd
  exact (builds_noCopy (decode?_opcode_ne_move hw) pc).instrIr.1 ir hpc

end IRBuilder

namespace IRLowering

/-! ## What a lowering writes -/

/-- Registers the caller does not expect back, and RSP, which `pushfq` and `pop` bring back. -/
def scratch : List Reg := [rax, rcx, rdx, r9, rsp]

theorem aluAsm_scratch (op : AluOp) (c : Prop) [Decidable c] (ir : IRInst) :
    ∀ i ∈ aluAsm op c ir, i.writes ⊆ scratch := by
  unfold aluAsm
  split_ifs <;> simp [ldArm, Instr.writes, scratch]

theorem saveNzcvIf_scratch (set : Bool) : ∀ i ∈ saveNzcvIf set, i.writes ⊆ scratch := by
  have h : ∀ i ∈ saveNzcv, i.writes ⊆ scratch := by decide
  exact fun i hi => h i (mem_saveNzcvIf hi)

/-- But for MOV_IMM, the host registers of guest registers stay out of it. -/
theorem lowerAsm_scratch {ir : IRInst} (hm : ir.op ≠ .MOV_IMM) (hc : NoCopy ir) (ft : Word) :
    ∀ i ∈ lowerAsm ft ir, i.writes ⊆ scratch := by
  have hsave := saveNzcvIf_scratch ir.flags_set
  unfold lowerAsm
  dsimp only
  split
  case h_1 | h_2 =>
    simp only [List.cons_append, List.forall_mem_cons, List.forall_mem_append]
    refine ⟨by simp [ldArm, Instr.writes, scratch], ⟨aluAsm_scratch _ _ _, hsave⟩, ?_⟩
    simp [stArm, Instr.writes]
  case h_6 =>
    simp only [List.cons_append, List.forall_mem_cons, List.forall_mem_append]
    exact ⟨by simp [ldArm, Instr.writes, scratch], aluAsm_scratch _ _ _, hsave⟩
  case h_7 =>
    simp only [List.forall_mem_cons]
    exact ⟨by simp [ldArm, Instr.writes, scratch], by simp [ldArm, Instr.writes, scratch],
      by simp [Instr.writes], hsave⟩
  case h_8 h => exact absurd h hm
  case h_9 h =>
    rw [if_pos (hc h)]
    simp [stArm, Instr.writes, scratch]
  all_goals simp [ldArm, stArm, shiftAsm, blockRet, Instr.writes, scratch]

/-! ## What a block leaves -/

/-- The value the MOV_IMMs of a list leave in a host register, up to the first return. -/
def movValue (q : Reg) : List IRInst → Option Word
  | [] => none
  | ir :: rest =>
    if Returning ir.op then none
    else (movValue q rest).or (if ir.op = .MOV_IMM ∧ hostReg ir.dest = q then some ir.imm else none)

section Run

variable {q : Reg}

theorem lowerAsm_reg (hq : q ∉ scratch) {ir : IRInst} (hc : NoCopy ir) (ft : Word) (s : State) :
    (execAll (lowerAsm ft ir) s).reg q =
      (if ir.op = .MOV_IMM ∧ hostReg ir.dest = q then some ir.imm else none).getD (s.reg q) := by
  by_cases hm : ir.op = .MOV_IMM
  · have hl : lowerAsm ft ir =
        [.movRI (hostReg ir.dest) ir.imm, stArm (hostReg ir.dest) (u8 ir.dest)] := by
      simp only [lowerAsm, hm]
    rw [hl]
    simp only [execAll_cons, execAll_nil, exec, stArm, setMem_reg, setReg_reg, hm, true_and]
    by_cases hd : hostReg ir.dest = q
    · rw [if_pos hd.symm, if_pos hd]
      rfl
    · rw [if_neg (Ne.symm hd), if_neg hd]
      rfl
  · rw [if_neg fun h => hm h.1]
    exact execAll_reg_of_notMem (fun i hi h => hq (lowerAsm_scratch hm hc ft i hi h)) s

/-- **The run of a block**, one host register at a time, by induction over the IR. -/
theorem runIr_movValue (hq : q ∉ scratch) (ft : Word) {irs : List IRInst}
    (hc : ∀ ir ∈ irs, NoCopy ir) (s : State) :
    (runIr ft irs s).reg q = (movValue q irs).getD (s.reg q) := by
  have hrax : q ≠ rax := by
    rintro rfl
    exact hq (by decide)
  induction irs generalizing s with
  | nil => exact setPc_reg_ne ft s hrax
  | cons ir rest ih =>
    obtain ⟨hir, hrest⟩ := List.forall_mem_cons.mp hc
    rw [runIr, movValue]
    by_cases hr : Returning ir.op
    · rw [if_pos hr, if_pos hr]
      exact exitIr_reg ft ir s hrax
    · rw [if_neg hr, if_neg hr, ih hrest, lowerAsm_reg hq hir]
      cases movValue q rest <;> rfl

/-- No guest register is kept in RBP. -/
theorem movValue_rbp (irs : List IRInst) : movValue rbp irs = none := by
  have hne : ∀ b : Byte, hreg (arm_reg_to_x86 b) ≠ rbp := by decide
  induction irs with
  | nil => rfl
  | cons ir rest ih =>
    have hir : ¬ (ir.op = .MOV_IMM ∧ hostReg ir.dest = rbp) := fun h => hne _ h.2
    rw [movValue, ih, if_neg hir]
    split_ifs <;> rfl

end Run

end IRLowering

namespace ExecEngine

/-- The registers a System V function gives back, but for RSP. -/
def callee_saved : List Reg := [rbx, rbp, r12, r13, r14, r15]

/-- The state `s'` behind the return has what the caller expects: RSP is above the return address. -/
structure CalleeSaved (s s' : State) : Prop where
  saved : ∀ q ∈ callee_saved, s'.reg q = s.reg q
  rsp : s'.reg rsp = s.reg rsp + 8#64

/-- The code of a block, lowered into `n` bytes at `host_code`. -/
def emitted (ds : List DecodedInstr) (pc host_code : Word) (n : ℕ) (host : Mem) : List Byte :=
  match IRBuilder.build ds pc with
  | none => []
  | some ir_block =>
    (lower_block (optimize ir_block) (fallthrough ds pc) (.set_buffer host_code n host)).code

/-- R12 holds the context pointer already, and what MOV_IMM loads is in the registers already. -/
def Restores (irs : List IRInst) (s : State) : Prop :=
  s.reg r12 = s.reg rdi ∧
    ∀ q ∈ [rbx, r13, r14, r15], ∀ v, movValue q irs = some v → v = s.reg q

section Block

variable {ds : List DecodedInstr} {pc host_code : Word} {n : ℕ}

theorem emitted_eq (hds : ∀ d ∈ ds, WellDecoded d) (hb : host_code ≠ 0#64)
    (hsize : size (blockInstrs ds pc) ≤ n) (hn : n ≤ 2 ^ 64) (host : Mem) :
    emitted ds pc host_code n host = encodeAll (blockInstrs ds pc) := by
  obtain ⟨ir_block, hbuild, happ⟩ := lower_appends hds (.set_buffer host_code n host)
  have hcode := happ.code_fresh hb hn hsize
  simp only [emitted, hbuild, hcode]

theorem blockIr_noCopy (hds : ∀ d ∈ ds, ∃ w, decode? w = some d) :
    ∀ ir ∈ blockIr ds pc, NoCopy ir := by
  intro ir hir
  obtain ⟨a, ha, rfl | rfl⟩ := mem_merge hir
  · exact irFrom_noCopy hds _ ha
  · exact irFrom_noCopy hds a ha

/-- The state behind the `ret` of a block. -/
def left (ds : List DecodedInstr) (pc : Word) (s : State) : State :=
  (runIr (fallthrough ds pc) (blockIr ds pc) (enter s)).popRet

theorem left_r12 (s : State) : (left ds pc s).reg r12 = s.reg rdi := by
  rw [left, State.popRet, setReg_reg, if_neg (by decide), (runIr_reg _ _ _).1, enter_r12]

theorem left_rsp (s : State) : (left ds pc s).reg rsp = s.reg rsp + 8#64 := by
  rw [left, State.popRet, setReg_reg, if_pos rfl, (runIr_reg _ _ _).2, enter_rsp]

theorem left_reg (hds : ∀ d ∈ ds, ∃ w, decode? w = some d) {q : Reg} (hq : q ∉ scratch)
    (hne : q ≠ r12) (s : State) :
    (left ds pc s).reg q = (movValue q (blockIr ds pc)).getD (s.reg q) := by
  have hrsp : q ≠ rsp := by
    rintro rfl
    exact hq (by decide)
  rw [left, State.popRet, setReg_reg, if_neg hrsp, runIr_movValue hq _ (blockIr_noCopy hds), enter,
    setReg_reg, if_neg hne]

theorem returns_emitted_iff (hds : ∀ d ∈ ds, ∃ w, decode? w = some d) (hb : host_code ≠ 0#64)
    (hsize : size (blockInstrs ds pc) ≤ n) (hn : n ≤ 2 ^ 64) (host : Mem) {s s' : State} :
    Returns (emitted ds pc host_code n host) s s' ↔ s' = left ds pc s := by
  rw [emitted_eq (wellDecoded_of_decoded hds) hb hsize hn]
  exact returns_iff

/-- **Callee-saved registers**: the code of a block of decoded instructions, in a buffer that holds
it, gives the caller its registers back exactly if they had the values the block leaves there. -/
theorem calleeSaved_iff (hds : ∀ d ∈ ds, ∃ w, decode? w = some d) (hb : host_code ≠ 0#64)
    (hsize : size (blockInstrs ds pc) ≤ n) (hn : n ≤ 2 ^ 64) (host : Mem) (s : State) :
    (∃ s', Returns (emitted ds pc host_code n host) s s' ∧ CalleeSaved s s') ↔
      Restores (blockIr ds pc) s := by
  have hmov : ∀ q ∈ [rbx, r13, r14, r15], q ∈ callee_saved ∧ q ∉ scratch ∧ q ≠ r12 := by decide
  simp only [returns_emitted_iff hds hb hsize hn, exists_eq_left]
  constructor
  · rintro ⟨hsaved, -⟩
    refine ⟨(hsaved r12 (by decide)).symm.trans (left_r12 s), fun q hq v hv => ?_⟩
    obtain ⟨hmem, hscr, hne⟩ := hmov q hq
    have h := hsaved q hmem
    rwa [left_reg hds hscr hne, hv] at h
  · rintro ⟨h12, hrest⟩
    refine ⟨fun q hq => ?_, left_rsp s⟩
    have hcases : ∀ q ∈ callee_saved, q = r12 ∨ q = rbp ∨ q ∈ [rbx, r13, r14, r15] := by decide
    rcases hcases q hq with rfl | rfl | hq
    · exact (left_r12 s).trans h12.symm
    · rw [left_reg hds (by decide) (by decide), movValue_rbp]
      rfl
    · obtain ⟨-, hscr, hne⟩ := hmov q hq
      rw [left_reg hds hscr hne]
      cases hv : movValue q (blockIr ds pc) with
      | none => rfl
      | some v => exact hrest q hq v hv

/-- 5 in RBX, and the context pointer in R12 as in RDI. -/
def five_in_rbx : State := ((State.cleared.setReg rbx 5#64).setReg rdi 0x8000#64).setReg r12 0x8000#64

/-- At `movz x3, #5` in a buffer of 4096 bytes. -/
theorem calleeSaved_iff_movz :
    ∃ s', Returns (emitted [(decode 0xD28000A3#32).2] 0x1000#64 0x10000#64 slot_size
      fun _ => 0#8) five_in_rbx s' ∧ CalleeSaved five_in_rbx s' := by
  have hds : ∀ d ∈ [(decode 0xD28000A3#32).2], ∃ w, decode? w = some d :=
    List.forall_mem_singleton.mpr ⟨0xD28000A3#32, by decide⟩
  have hsize : size (blockInstrs [(decode 0xD28000A3#32).2] 0x1000#64) ≤ slot_size := by
    decide +kernel
  have hmov : ∀ q ∈ [rbx, r13, r14, r15], movValue q (blockIr [(decode 0xD28000A3#32).2] 0x1000#64) =
      if q = rbx then some 5#64 else none := by decide
  have hrestores : Restores (blockIr [(decode 0xD28000A3#32).2] 0x1000#64) five_in_rbx := by
    refine ⟨by decide, fun q hq v hv => ?_⟩
    rw [hmov q hq] at hv
    split_ifs at hv with he
    obtain rfl := Option.some.inj hv
    rw [he]
    rfl
  exact (calleeSaved_iff hds (by decide) hsize (by decide) (fun _ => 0#8) five_in_rbx).mpr hrestores

/-- The block of a NOP leaves the context pointer in R12. -/
theorem nop_clobbers_r12 :
    let s : State := { State.cleared with reg := fun q => if q = rdi then 0x8000#64 else 0#64 }
    s.reg r12 = 0#64 ∧ ∃ s', Returns (emitted [(decode 0xD503201F#32).2] 0x1000#64 0x10000#64
      slot_size fun _ => 0#8) s s' ∧ s'.reg r12 = 0x8000#64 := by
  intro s
  have hds : ∀ d ∈ [(decode 0xD503201F#32).2], ∃ w, decode? w = some d :=
    List.forall_mem_singleton.mpr ⟨0xD503201F#32, by decide⟩
  have hsize : size (blockInstrs [(decode 0xD503201F#32).2] 0x1000#64) ≤ slot_size := by
    decide +kernel
  refine ⟨rfl, _, (returns_emitted_iff hds (by decide) hsize (by decide) _).mpr rfl, ?_⟩
  exact left_r12 s

end Block

end ExecEngine

end Bbarm64
