import Bbarm64.Engine.Capacity

/-!
# Engine.Exits — where the live code of a block ends

Every block is closed by a return.  A block whose last instruction lowers to a return of its own never
comes to it (`Exits`), so that the code of such a block is live up to `body_bytes` behind its prologue
only.  `LiveFront` says that a run ends at the end of a list of instructions, or at a `ret` in it.
-/

namespace Bbarm64

open X86 ARM64Decoder IRBuilder IROptimizer IRLowering

namespace ExecEngine

/-- B, BL, RET, B.cond, CBZ, CBNZ: the opcodes whose lowering returns. -/
def Exits (op : Byte) : Prop :=
  op = 0x50#8 ∨ op = 0x51#8 ∨ op = 0x53#8 ∨ op = 0x54#8 ∨ op = 0x55#8 ∨ op = 0x56#8

instance (op : Byte) : Decidable (Exits op) := inferInstanceAs (Decidable (_ ∨ _))

/-- The block ends in one of them. -/
def exits (ds : List DecodedInstr) : Prop := ∃ d ∈ ds, Exits d.opcode

instance (ds : List DecodedInstr) : Decidable (exits ds) := inferInstanceAs (Decidable (∃ d ∈ ds, _))

/-- The bytes up to the last `ret` that a run can come to. -/
def live_bytes (ds : List DecodedInstr) : ℕ :=
  if exits ds then 3 + body_bytes ds else code_bytes ds

/-! ## The last opcode -/

/-- No opcode returns but the last one, and that returns exactly if `p`. -/
def EndsIn (p : Prop) (ops : List IROpcode) : Prop :=
  ∃ init last, ops = init ++ last ∧ (∀ op ∈ init, ¬ Returning op) ∧
    (p ∧ (∃ op, last = [op] ∧ Returning op) ∨ ¬ p ∧ last = [])

section EndsIn

variable {p q : Prop} {ops : List IROpcode}

theorem EndsIn.of_iff (h : EndsIn p ops) (hpq : p ↔ q) : EndsIn q ops := by
  rwa [← propext hpq]

theorem EndsIn.append (h : EndsIn p ops) {pre : List IROpcode} (hpre : ∀ op ∈ pre, ¬ Returning op) :
    EndsIn p (pre ++ ops) := by
  obtain ⟨init, last, rfl, hinit, hlast⟩ := h
  exact ⟨pre ++ init, last, (List.append_assoc _ _ _).symm,
    List.forall_mem_append.mpr ⟨hpre, hinit⟩, hlast⟩

theorem EndsIn.not_returning (h : EndsIn p ops) (hp : ¬ p) : ∀ op ∈ ops, ¬ Returning op := by
  obtain ⟨init, last, rfl, hinit, ⟨hp', -⟩ | ⟨-, rfl⟩⟩ := h
  · exact absurd hp' hp
  · rwa [List.append_nil]

variable {d : DecodedInstr} {ir a b : IRInst}

/-- The opcodes of an IR list. -/
abbrev opcodes (l : List IRInst) : List IROpcode := l.map (·.op)

theorem ends_one (hr : decide (Returning ir.op) = false) (hp : ¬ p) : EndsIn p (opcodes [ir]) :=
  ⟨[ir.op], [], rfl, List.forall_mem_singleton.mpr (of_decide_eq_false hr), .inr ⟨hp, rfl⟩⟩

theorem ends_return (hr : decide (Returning ir.op) = true) (hp : p) : EndsIn p (opcodes [ir]) :=
  ⟨[], [ir.op], rfl, List.forall_mem_nil _, .inl ⟨hp, _, rfl, of_decide_eq_true hr⟩⟩

theorem ends_two (ha : decide (Returning a.op) = false) (hb : decide (Returning b.op) = true)
    (hp : p) : EndsIn p (opcodes [a, b]) :=
  ⟨[a.op], [b.op], rfl, List.forall_mem_singleton.mpr (of_decide_eq_false ha),
    .inl ⟨hp, _, rfl, of_decide_eq_true hb⟩⟩

/-- One branch of `build_instr`. -/
theorem ends_ite {Q : List IRInst → Prop} {c : Prop} [Decidable c] {f g : IRBlock → Option IRBlock}
    (hf : c → Builds Q f) (hg : ¬ c → Builds Q g) : Builds Q fun b => if c then f b else g b := by
  by_cases h : c
  · simpa only [if_pos h] using hf h
  · simpa only [if_neg h] using hg h

/-- **One instruction**: the opcodes that `Exits` names are those with a return. -/
theorem builds_endsIn (d : DecodedInstr) (pc : Word) :
    Builds (fun l => EndsIn (Exits d.opcode) (opcodes l)) (build_instr d pc) := by
  have hplain : ∀ {c : Byte} {ir : IRInst}, d.opcode = c → ¬ Exits c →
      decide (Returning ir.op) = false →
      Builds (fun l => EndsIn (Exits d.opcode) (opcodes l)) fun b => some (b.push_back ir) := by
    intro c ir hc hx hr
    rw [hc]
    exact .one (ends_one hr hx)
  have hret : ∀ {c : Byte}, d.opcode = c → Exits c → Exits d.opcode := by
    rintro c rfl h
    exact h
  unfold build_instr
  dsimp only
  refine ends_ite (fun h => hplain h (by decide) rfl) fun h00 => ?_
  refine ends_ite (fun h => hplain h (by decide) rfl) fun h01 => ?_
  refine ends_ite (fun h => hplain h (by decide) rfl) fun h04 => ?_
  refine ends_ite (fun h => hplain h (by decide) rfl) fun h05 => ?_
  refine ends_ite (fun h => hplain h (by decide) rfl) fun h06 => ?_
  refine ends_ite (fun h => hplain h (by decide) rfl) fun h20 => ?_
  refine ends_ite (fun h => ?_) fun h21 => ?_
  · rcases h with h | h | h
    iterate 3 exact hplain h (by decide) rfl
  refine ends_ite (fun h => hplain h (by decide) rfl) fun h24 => ?_
  refine ends_ite (fun h => hplain h (by decide) rfl) fun h25 => ?_
  refine ends_ite (fun h => hplain h (by decide) rfl) fun h30 => ?_
  refine ends_ite (fun h => hplain h (by decide) rfl) fun h31 => ?_
  -- the six opcodes that return
  refine ends_ite (fun h => .one (ends_return rfl (hret h (by decide)))) fun h50 => ?_
  refine ends_ite (fun h => .two (ends_two rfl rfl (hret h (by decide))) id
    fun _ => rfl) fun h51 => ?_
  refine ends_ite (fun h => .one (ends_return rfl (hret h (by decide)))) fun h53 => ?_
  refine ends_ite (fun h => ?_) fun h54 => ?_
  · exact ⟨[_], ends_return rfl (hret h (by decide)), fun _ => ⟨_, rfl, rfl⟩⟩
  refine ends_ite (fun h => .two (ends_two rfl rfl (hret h (by decide)))
    (fun b => { b with is_conditional := true }) fun _ => rfl) fun h55 => ?_
  refine ends_ite (fun h => .two (ends_two rfl rfl (hret h (by decide)))
    (fun b => { b with is_conditional := true }) fun _ => rfl) fun h56 => ?_
  have hno : ¬ Exits d.opcode := by
    rintro (h | h | h | h | h | h)
    · exact h50 h
    · exact h51 h
    · exact h53 h
    · exact h54 h
    · exact h55 h
    · exact h56 h
  have hrest : ∀ {ir : IRInst}, decide (Returning ir.op) = false →
      Builds (fun l => EndsIn (Exits d.opcode) (opcodes l)) fun b => some (b.push_back ir) :=
    fun hr => .one (ends_one hr hno)
  iterate 16 refine .ite (fun _ => hrest rfl) ?_
  exact hrest rfl

/-- **A list of instructions** ends as its last one does. -/
theorem irFrom_endsIn {ds : List DecodedInstr} (hds : ∀ d ∈ ds, WellDecoded d) (he : EndsLast ds)
    (pc : Word) (i : ℕ) : EndsIn (exits ds) (opcodes (irFrom pc i ds)) := by
  induction ds generalizing i with
  | nil => exact ⟨[], [], rfl, List.forall_mem_nil _, .inr ⟨by simp [exits], rfl⟩⟩
  | cons d rest ih =>
    have hd : EndsIn (Exits d.opcode) (opcodes (instrIr d (pcAt pc i))) :=
      (builds_endsIn d (pcAt pc i)).instrIr.1
    have hbranch : ∀ op : Byte, Exits op → IsBranch op := by decide
    rw [irFrom_cons (hds d (by simp)) he, opcodes, List.map_append]
    by_cases hx : Exits d.opcode
    · -- a branch: nothing follows
      obtain rfl := he.1 (hbranch _ hx)
      rw [irFrom, List.map_nil, List.append_nil]
      exact hd.of_iff (by simp [exits])
    · have hrest := ih (fun d hd => hds d (by simp [hd])) he.2 (i + 1)
      exact (hrest.append (hd.not_returning hx)).of_iff (by simp [exits, hx])

theorem opcodes_merge (l : List IRInst) : opcodes (merge l) = opcodes l := by
  have hclear : ∀ l : List IRInst, opcodes (l.map clearFlags) = opcodes l := by
    intro l
    rw [opcodes, List.map_map]
    rfl
  rw [← hclear, merge_map_clearFlags, hclear]

theorem blockIr_endsIn {ds : List DecodedInstr} (hds : ∀ d ∈ ds, WellDecoded d) (he : EndsLast ds)
    (pc : Word) : EndsIn (exits ds) (opcodes (blockIr ds pc)) := by
  rw [blockIr, opcodes_merge]
  exact irFrom_endsIn hds he pc 0

end EndsIn

/-! ## The live code -/

/-- A run ends at the end of the list, or at a `ret` in it. -/
def LiveFront (front : List Instr) : Prop :=
  ∀ s, ∃ c, Steps (encodeAll front) ⟨0, s⟩ c ∧ (c.ip = size front ∨ AtRet (encodeAll front) c)

theorem liveFront_straight {front : List Instr} (h : ∀ i ∈ front, i.straight = true) :
    LiveFront front := by
  intro s
  have hrun := steps_list h [] [] s
  simp only [List.nil_append, List.append_nil] at hrun
  exact ⟨_, hrun, .inl rfl⟩

theorem liveFront_two {pre : List Instr} (hpre : ∀ i ∈ pre, i.straight = true) {i j : Instr}
    (hi : i.straight = true) (hj : j.straight = true) : LiveFront (pre ++ [i, j]) := by
  refine liveFront_straight (List.forall_mem_append.mpr ⟨hpre, ?_⟩)
  rw [List.forall_mem_cons, List.forall_mem_singleton]
  exact ⟨hi, hj⟩

/-- The lowering of an instruction that returns, behind straight-line code. -/
theorem liveFront_exit {ir : IRInst} (hr : Returning ir.op) (ft : Word) {pre : List Instr}
    (hpre : ∀ i ∈ pre, i.straight = true) :
    ∃ body, lowerAsm ft ir = body ++ [.ret] ∧ LiveFront (pre ++ body) := by
  rcases hr with h | h | h | h
  · exact ⟨[.movRI rax ir.imm, .store r12 256#32 rax], by simp [lowerAsm, h, blockRet],
      liveFront_two hpre rfl rfl⟩
  · exact ⟨[.movRI rax ir.imm, .store r12 256#32 rax], by simp [lowerAsm, h, blockRet],
      liveFront_two hpre rfl rfl⟩
  · exact ⟨[.load rax r12 264#32, .store r12 256#32 rax], by simp [lowerAsm, h],
      liveFront_two hpre rfl rfl⟩
  · refine ⟨.jcc (invCc ir.cond) 19#32 :: (blockRet ir.imm ++ [.movRI rax ft, .store r12 256#32 rax]),
      by simp [lowerAsm, h, blockRet, invCc], fun s => ?_⟩
    -- the taken path has a `ret`, the other one goes to the end
    have hrun := steps_list hpre []
      (.jcc (invCc ir.cond) 19#32 :: (blockRet ir.imm ++ [.movRI rax ft, .store r12 256#32 rax])) s
    rw [List.nil_append] at hrun
    cases hc : (execAll pre s).flags.cond (invCc ir.cond) with
    | false =>
      have hstep := step_jcc_false hc 19#32 pre (blockRet ir.imm ++ [.movRI rax ft, .store r12 256#32 rax])
      obtain ⟨ip, hsteps, hret⟩ := @setPc_steps
        (pre ++ .jcc (invCc ir.cond) 19#32 :: (blockRet ir.imm ++ [.movRI rax ft, .store r12 256#32 rax]))
        (pre ++ [.jcc (invCc ir.cond) 19#32]) [.movRI rax ft, .store r12 256#32 rax] ir.imm (by simp)
        (execAll pre s)
      have hsize : size (pre ++ [.jcc (invCc ir.cond) 19#32]) = size pre + 6 := by simp [encode]
      rw [hsize] at hsteps
      exact ⟨_, (hrun.trans (Steps.single hstep)).trans hsteps, .inr hret.atRet⟩
    | true =>
      have hstep := step_jcc_true hc (by decide : (19#32).toInt = (19 : ℕ)) pre
        (blockRet ir.imm ++ [.movRI rax ft, .store r12 256#32 rax])
      have hs : ∀ i ∈ [Instr.movRI rax ft, .store r12 256#32 rax], i.straight = true := by
        rw [List.forall_mem_cons, List.forall_mem_singleton]
        exact ⟨rfl, rfl⟩
      have hend := steps_list hs (pre ++ .jcc (invCc ir.cond) 19#32 :: blockRet ir.imm) []
        (execAll pre s)
      have hlist : pre ++ .jcc (invCc ir.cond) 19#32 :: blockRet ir.imm ++
          [.movRI rax ft, .store r12 256#32 rax] ++ [] = pre ++ .jcc (invCc ir.cond) 19#32 ::
            (blockRet ir.imm ++ [.movRI rax ft, .store r12 256#32 rax]) := by simp
      have hsize : size (pre ++ .jcc (invCc ir.cond) 19#32 :: blockRet ir.imm) =
          size pre + 6 + 19 := by
        rw [size_append, size_cons, size_blockRet_eq]
        rfl
      rw [List.append_nil] at hend hlist
      rw [hlist, hsize] at hend
      exact ⟨_, (hrun.trans (Steps.single hstep)).trans hend, .inl rfl⟩

section Block

variable {ds : List DecodedInstr} {pc : Word}

/-- The prologue and instructions that do not return. -/
theorem straight_body {irs : List IRInst} (h : ∀ ir ∈ irs, ¬ Returning ir.op) (ft : Word) :
    ∀ i ∈ Instr.movRR r12 rdi :: irs.flatMap (lowerAsm ft), i.straight = true := by
  rw [List.forall_mem_cons]
  refine ⟨rfl, fun i hi => ?_⟩
  obtain ⟨ir, hir, hi⟩ := List.mem_flatMap.mp hi
  exact lowerAsm_straight ft (h ir hir) i hi

/-- Without a return before the final one the code is straight. -/
theorem blockInstrs_straight (hds : ∀ d ∈ ds, WellDecoded d) (he : EndsLast ds) (hx : ¬ exits ds) :
    ∃ main, blockInstrs ds pc = main ++ blockRet (fallthrough ds pc) ∧
      ∀ i ∈ main, i.straight = true := by
  have hnr := (blockIr_endsIn hds he pc).not_returning hx
  exact ⟨_, rfl, straight_body (fun ir hir => hnr _ (List.mem_map_of_mem hir)) _⟩

/-- A return before the final one comes last. -/
theorem blockInstrs_exits (hds : ∀ d ∈ ds, WellDecoded d) (he : EndsLast ds) (hx : exits ds) :
    ∃ front, .movRR r12 rdi :: (blockIr ds pc).flatMap (lowerAsm (fallthrough ds pc)) =
      front ++ [.ret] ∧ LiveFront front := by
  obtain ⟨init, last, hops, hinit, ⟨-, op, rfl, hr⟩ | ⟨hno, -⟩⟩ := blockIr_endsIn hds he pc
  · obtain ⟨irs, tl, hirs, rfl, htl⟩ := List.map_eq_append_iff.mp hops
    obtain ⟨ir, rfl, rfl⟩ := List.map_eq_singleton_iff.mp htl
    have hnr : ∀ ir ∈ irs, ¬ Returning ir.op := fun ir hir => hinit _ (List.mem_map_of_mem hir)
    obtain ⟨body, hlow, hlive⟩ := liveFront_exit hr (fallthrough ds pc)
      (straight_body hnr (fallthrough ds pc))
    refine ⟨_, ?_, hlive⟩
    rw [hirs, List.flatMap_append, List.flatMap_singleton, hlow]
    simp
  · exact absurd hx hno

/-- **The live code of a block**: what follows its last `ret` is the final return, if the block has
returned before it, and nothing if not. -/
theorem exists_front (hds : ∀ d ∈ ds, WellDecoded d) (he : EndsLast ds) (pc : Word) :
    ∃ front dead, blockInstrs ds pc = front ++ .ret :: dead ∧ LiveFront front ∧
      size front + 1 = live_bytes ds ∧ (exits ds → front ++ [.ret] =
        .movRR r12 rdi :: (blockIr ds pc).flatMap (lowerAsm (fallthrough ds pc))) := by
  have hsize := size_blockInstrs hds he pc
  have hret : (encode .ret).length = 1 := rfl
  by_cases hx : exits ds
  · obtain ⟨front, hfront, hlive⟩ := @blockInstrs_exits ds pc hds he hx
    have hinstrs : blockInstrs ds pc = front ++ .ret :: blockRet (fallthrough ds pc) := by
      rw [blockInstrs, blockAsm, hfront, List.append_assoc]
      rfl
    refine ⟨front, _, hinstrs, hlive, ?_, fun _ => hfront.symm⟩
    rw [hinstrs, size_append, size_cons, hret, size_blockRet_eq, code_bytes] at hsize
    rw [live_bytes, if_pos hx]
    omega
  · obtain ⟨main, hmain, hs⟩ := @blockInstrs_straight ds pc hds he hx
    have hinstrs : blockInstrs ds pc =
        (main ++ [.movRI rax (fallthrough ds pc), .store r12 256#32 rax]) ++ .ret :: [] := by
      rw [hmain]
      simp [blockRet]
    refine ⟨_, _, hinstrs, liveFront_two hs rfl rfl, ?_, fun h => absurd h hx⟩
    rw [hinstrs, size_append, size_cons, hret, size_nil] at hsize
    rw [live_bytes, if_neg hx]
    omega

end Block

end ExecEngine

end Bbarm64
