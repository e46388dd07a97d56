import Bbarm64.Engine.ControlFlow
import Bbarm64.Engine.IrSim

/-!
# Engine.Pipeline — the code of a block does what the IR of the builder says

The builder leaves eight-bit register fields, the optimizer changes flags only, which the fragment does
not read, and the lowering keeps the meaning (`IrSim.run`).
-/

namespace Bbarm64

open X86 ARM64Decoder IRBuilder IROptimizer IRLowering

namespace ExecEngine

/-! ## The builder -/

/-- Register fields of eight bits. -/
def Narrow (ir : IRInst) : Prop :=
  ir.dest.toNat < 256 ∧ ir.src1.toNat < 256 ∧ (ir.src2 ≠ IR_IMM → ir.src2.toNat < 256)

theorem reg_toNat_lt (r : Byte) : (reg r).toNat < 256 := by
  rw [reg, BitVec.toNat_setWidth]
  omega

theorem none_toNat_lt : IR_NONE.toNat < 256 := by decide

theorem narrow_arith (ir : IRInst) (d : DecodedInstr) (op : IROpcode) :
    Narrow { arith ir d with op := op } := by
  unfold arith
  split_ifs
  · exact ⟨reg_toNat_lt _, reg_toNat_lt _, fun h => absurd rfl h⟩
  · exact ⟨reg_toNat_lt _, reg_toNat_lt _, fun _ => reg_toNat_lt _⟩

/-- The builder widens the byte fields of the decoded instruction. -/
theorem builds_narrow (d : DecodedInstr) (pc : Word) :
    Builds (∀ ir ∈ ·, Narrow ir) (build_instr d pc) := by
  have hreg := reg_toNat_lt
  have hnone := none_toNat_lt
  have h30 : (30#16 : IRReg).toNat < 256 := by decide
  have one : ∀ ir, Narrow ir → Builds (∀ ir ∈ ·, Narrow ir) fun b => some (b.push_back ir) :=
    fun ir h => .one (List.forall_mem_singleton.mpr h)
  have two : ∀ (ir ir' : IRInst) (f : IRBlock → IRBlock), Narrow ir → Narrow ir' →
      (∀ block, (f block).instructions = block.instructions) →
      Builds (∀ ir ∈ ·, Narrow ir) fun b => some (((f b).push_back ir).push_back ir') :=
    fun ir ir' f h h' hf => .two (by simpa using ⟨h, h'⟩) f hf
  have hjmp : Narrow (cb_jump d pc 0#8) ∧ Narrow (cb_jump d pc 1#8) :=
    ⟨⟨hnone, hnone, fun _ => hnone⟩, hnone, hnone, fun _ => hnone⟩
  unfold build_instr
  dsimp only
  refine .ite (fun _ => one _ (narrow_arith _ d .ADD)) ?_
  refine .ite (fun _ => one _ (narrow_arith _ d .SUB)) ?_
  refine .ite (fun _ => one _ ⟨hreg _, hreg _, fun h => absurd rfl h⟩) ?_
  refine .ite (fun _ => one _ ⟨hreg _, hreg _, fun h => absurd rfl h⟩) ?_
  refine .ite (fun _ => one _ ⟨hreg _, hreg _, fun h => absurd rfl h⟩) ?_
  refine .ite (fun _ => one _ ⟨hreg _, hreg _, fun _ => hnone⟩) ?_
  refine .ite (fun _ => one _ ⟨hreg _, hnone, fun _ => hnone⟩) ?_
  refine .ite (fun _ => one _ ⟨hreg _, hnone, fun _ => hnone⟩) ?_
  refine .ite (fun _ => one _ ⟨hreg _, hnone, fun _ => hnone⟩) ?_
  refine .ite (fun _ => one _ ⟨hnone, hreg _, fun _ => hreg _⟩) ?_
  refine .ite (fun _ => one _ ⟨hnone, hreg _, fun _ => hreg _⟩) ?_
  -- B, BL, RET, B.cond, CBZ and CBNZ
  refine .ite (fun _ => one _ ⟨hnone, hnone, fun _ => hnone⟩) ?_
  refine .ite (fun _ => two _ _ id ⟨h30, hnone, fun _ => hnone⟩ ⟨hnone, hnone, fun _ => hnone⟩
    fun _ => rfl) ?_
  refine .ite (fun _ => one _ ⟨hnone, h30, fun _ => hnone⟩) ?_
  refine .ite (fun _ => ⟨[_], List.forall_mem_singleton.mpr ⟨hnone, hnone, fun _ => hnone⟩,
    fun _ => ⟨_, rfl, rfl⟩⟩) ?_
  refine .ite (fun _ => two _ _ (fun b => { b with is_conditional := true })
    ⟨hnone, hreg _, fun _ => hnone⟩ hjmp.1 fun _ => rfl) ?_
  refine .ite (fun _ => two _ _ (fun b => { b with is_conditional := true })
    ⟨hnone, hreg _, fun _ => hnone⟩ hjmp.2 fun _ => rfl) ?_
  -- loads and stores
  refine .ite (fun _ => one _ ⟨hreg _, hreg _, fun _ => hnone⟩) ?_
  refine .ite (fun _ => one _ ⟨hreg _, hreg _, fun _ => hnone⟩) ?_
  refine .ite (fun _ => one _ ⟨hnone, hreg _, fun _ => hreg _⟩) ?_
  refine .ite (fun _ => one _ ⟨hnone, hreg _, fun _ => hreg _⟩) ?_
  refine .ite (fun _ => one _ ⟨hreg _, hreg _, fun _ => hreg _⟩) ?_
  refine .ite (fun _ => one _ ⟨hnone, hreg _, fun _ => hreg _⟩) ?_
  -- NOP, the barriers, the system call and the vector forms
  refine .ite (fun _ => one _ ⟨hnone, hnone, fun _ => hnone⟩) ?_
  refine .ite (fun _ => one _ ⟨hnone, hnone, fun _ => hnone⟩) ?_
  refine .ite (fun _ => one _ ⟨hnone, hnone, fun _ => hnone⟩) ?_
  refine .ite (fun _ => one _ ⟨hreg _, hreg _, fun _ => hnone⟩) ?_
  refine .ite (fun _ => one _ ⟨hreg _, hreg _, fun _ => hreg _⟩) ?_
  refine .ite (fun _ => one _ ⟨hreg _, hreg _, fun _ => hreg _⟩) ?_
  refine .ite (fun _ => one _ ⟨hreg _, hreg _, fun _ => hreg _⟩) ?_
  refine .ite (fun _ => one _ ⟨hreg _, hreg _, fun _ => hreg _⟩) ?_
  refine .ite (fun _ => one _ ⟨hreg _, hreg _, fun _ => hreg _⟩) ?_
  refine .ite (fun _ => one _ ⟨hreg _, hreg _, fun _ => hreg _⟩) ?_
  exact one _ ⟨hnone, hnone, fun _ => hnone⟩

theorem irFrom_narrow {start_pc : Word} {i : ℕ} {ds : List DecodedInstr} :
    ∀ ir ∈ irFrom start_pc i ds, Narrow ir := by
  intro ir h
  obtain ⟨d, -, pc, hpc⟩ := mem_irFrom h
  exact (builds_narrow d pc).instrIr.1 ir hpc

theorem isGuest_of_narrow {r : IRReg} (h : r.toNat < 256) (ha : IsArm (u8 r)) : IsGuest r := by
  have ha : (u8 r).toNat < 32 := ha
  rw [u8, BitVec.toNat_setWidth] at ha
  show r.toNat < 32
  omega

/-- The IR of well decoded instructions has its operands in order. -/
theorem plain_of_exact {ir : IRInst} (hg : GoodIr ir) (hn : Narrow ir) (he : Exact ir) : Plain ir :=
  ⟨hg.lowerable, isGuest_of_narrow hn.1 hg.dest, isGuest_of_narrow hn.2.1 hg.src1,
    fun h => isGuest_of_narrow (hn.2.2 h) (hg.src2 h), he⟩

theorem clearFlags_plain {ir : IRInst} (h : Plain ir) : Plain (clearFlags ir) :=
  ⟨h.lowerable, h.dest, h.src1, h.src2, h.exact⟩

section Pipeline

variable {c sp : Word} {ctx : CPUContext} {g g' : IRState} {s : State} {irs : List IRInst}
variable {other : IRInst → IRState → IRState} {ds : List DecodedInstr} {pc : Word}

/-- The fragment does not read the flags. -/
theorem exec_sameButFlags {ir : IRInst} (hp : Plain ir) (hr : ¬ Returning ir.op)
    (hg : SameButFlags g' g) : SameButFlags (ir.exec other g') (ir.exec other g) ∧
      SameButFlags ((clearFlags ir).exec other g') (ir.exec other g) := by
  have he := hp.exact
  obtain ⟨reg, nzcv, mem⟩ := g
  obtain ⟨reg', nzcv', mem'⟩ := g'
  obtain ⟨rfl, rfl⟩ : reg' = reg ∧ mem' = mem := hg
  have hflags : ∀ b b' f f', SameButFlags (IRState.setFlags ⟨reg', nzcv', mem'⟩ b f)
      (IRState.setFlags ⟨reg', nzcv, mem'⟩ b' f') := by
    intro b b' f f'
    have h₁ := setFlags_sameButFlags ⟨reg', nzcv', mem'⟩ b f
    have h₂ := setFlags_sameButFlags ⟨reg', nzcv, mem'⟩ b' f'
    exact ⟨h₁.1.trans h₂.1.symm, h₁.2.trans h₂.2.symm⟩
  unfold Exact at he
  unfold IRInst.exec clearFlags
  cases ho : ir.op <;> simp only [ho] at he ⊢ <;> try exact he.elim
  case ADD | SUB =>
    exact ⟨setReg_sameButFlags (hflags _ _ _ _) _ _, setReg_sameButFlags (hflags _ _ _ _) _ _⟩
  case CMP | TST => exact ⟨hflags _ _ _ _, hflags _ _ _ _⟩
  case JMP | CALL => exact absurd (by simp [Returning, ho]) hr
  all_goals exact ⟨⟨rfl, rfl⟩, rfl, rfl⟩

theorem accessesPublic_congr {ir : IRInst} (hg : SameButFlags g' g) :
    AccessesPublic c sp ir g' ↔ AccessesPublic c sp ir g := by
  unfold AccessesPublic
  rw [hg.1]

/-- The optimized block makes the same accesses. -/
theorem RunsPublic.merge (h : RunsPublic c sp other irs g) (hp : ∀ ir ∈ irs, Plain ir)
    (hg : SameButFlags g' g) : RunsPublic c sp other (IROptimizer.merge irs) g' := by
  induction irs generalizing g g' with
  | nil => trivial
  | cons ir rest ih =>
    obtain ⟨ha, hrest⟩ := h
    have hir := hp ir (by simp)
    have hrest' : ∀ ir', ir' = ir ∨ ir' = clearFlags ir → ir'.exit? g' = none →
        RunsPublic c sp other (IROptimizer.merge rest) (ir'.exec other g') := by
      intro ir' he hnone
      have hexit : ir.exit? g' = none := by
        rcases he with rfl | rfl
        · exact hnone
        · exact hnone
      have hr : ¬ Returning ir.op := by
        rintro (ho | ho | ho | ho) <;> simp [IRInst.exit?, ho] at hexit
      have hexec : SameButFlags (ir.exec other g') (ir.exec other g) ∧
          SameButFlags ((clearFlags ir).exec other g') (ir.exec other g) := exec_sameButFlags hir hr hg
      have hp' : ∀ i ∈ rest, Plain i := fun i hi => hp i (by simp [hi])
      have hpub := hrest (exit?_none hr g)
      rcases he with rfl | rfl
      · exact ih hpub hp' hexec.1
      · exact ih hpub hp' hexec.2
    rw [IROptimizer.merge]
    refine ⟨?_, hrest' _ (mergeHead_eq ir rest)⟩
    rcases mergeHead_eq ir rest with he | he
    · rw [he]
      exact (accessesPublic_congr hg).mpr ha
    · rw [he]
      exact (accessesPublic_congr hg).mpr ha

/-- **The pipeline keeps the meaning**: building, optimizing and lowering well decoded instructions
gives code that does what the IR of the builder says. -/
theorem pipeline_simulates (hds : ∀ d ∈ ds, WellDecoded d) {block : IRBlock}
    (hbuild : IRBuilder.build ds pc = some block) (hexact : ∀ ir ∈ block.instructions, Exact ir)
    (hfits : Fits ds pc) {host_code : Word} (hb : host_code ≠ 0#64) (host : Mem)
    (hstack : Clear (s.reg rdi) (s.reg X86.rsp - 8#64) 8)
    (h : Represents (s.reg rdi) (s.reg X86.rsp) ctx g s.mem)
    (ha : RunsPublic (s.reg rdi) (s.reg X86.rsp) other block.instructions g) :
    ∃ s', Returns (block_code ds pc host_code host) s s' ∧
      Represents (s.reg rdi) (s.reg X86.rsp) ctx (block.exec other g).1 s'.mem ∧
      X86.word s'.mem (s.reg rdi) 256 = target (fallthrough ds pc) (block.exec other g).2 := by
  obtain ⟨b, hb', hi⟩ := build_spec ds pc
  obtain rfl := Option.some.inj (hbuild.symm.trans hb')
  have hplain : ∀ ir ∈ block.instructions, Plain ir := by
    intro ir hir
    have hir' := hi ▸ hir
    exact plain_of_exact (irFrom_goodIr hds ir hir') (irFrom_narrow ir hir') (hexact ir hir)
  have hmerged : ∀ ir ∈ IROptimizer.merge block.instructions, Plain ir := by
    intro ir hir
    obtain ⟨a, ha, rfl | rfl⟩ := mem_merge hir
    · exact hplain _ ha
    · exact clearFlags_plain (hplain a ha)
  have hmeaning := execFrom_merge other (@irFrom_flagIr pc 0 ds) g
  have henter : IrSim (s.reg rdi) (s.reg X86.rsp) ctx g (enter s) := ⟨h, enter_r12 s, enter_rsp s⟩
  have hrun := henter.run hstack hmerged (ha.merge hplain ⟨rfl, rfl⟩) (fallthrough ds pc)
  rw [block_code_eq hds hb ((fits_iff hds).mp hfits), blockInstrs, blockIr]
  refine ⟨_, blockAsm_returns (fallthrough ds pc) _ s, ?_⟩
  rw [← hi] at hmeaning ⊢
  rw [hmeaning] at hrun
  exact hrun

/-- `add x1, x2, #5; str x2, [x1]; b .+8` -/
def add_store_branch : List DecodedInstr :=
  [(decode 0x91001441#32).2, (decode 0xF9000022#32).2, (decode 0x14000002#32).2]

theorem add_store_branch_decoded : ∀ d ∈ add_store_branch, ∃ w, decode? w = some d := by
  simp only [add_store_branch, List.forall_mem_cons]
  exact ⟨⟨0x91001441#32, by decide⟩, ⟨0xF9000022#32, by decide⟩, ⟨0x14000002#32, by decide⟩,
    List.forall_mem_nil _⟩

theorem pipeline_simulates_add_store_branch :
    ∃ block, IRBuilder.build add_store_branch 0x1000#64 = some block ∧
      ∃ s', Returns (block_code add_store_branch 0x1000#64 0x20000#64 fun _ => 0#8) seven_in_x2 s' ∧
        Represents 0x8000#64 0x4008#64 ⟨fun i => X86.word seven_in_x2.mem 0x8000#64 (8 * i)⟩
          (block.exec (fun _ g => g) seven_ir).1 s'.mem ∧
        X86.word s'.mem 0x8000#64 256 = target 0x100C#64 (block.exec (fun _ g => g) seven_ir).2 := by
  have hds := wellDecoded_of_decoded add_store_branch_decoded
  have hfits : Fits add_store_branch 0x1000#64 := by
    rw [fits_iff hds]
    decide +kernel
  have hbuild : ∃ block, IRBuilder.build add_store_branch 0x1000#64 = some block ∧
      block.instructions = [
        { op := .ADD, dest := 1#16, src1 := 2#16, src2 := IR_IMM, imm := 5#64 },
        { op := .STORE64, src1 := 1#16, src2 := 2#16 }, { op := .JMP, imm := 0x1010#64, size := 4#8 }] :=
    ⟨_, rfl, by decide⟩
  obtain ⟨block, hb, hi⟩ := hbuild
  have hexact : ∀ ir ∈ block.instructions, Exact ir := by
    have hadd : Disp 5#64 := by decide
    have hstore : Disp 0#64 := by decide
    rw [hi]
    simp only [List.forall_mem_cons]
    exact ⟨fun _ => hadd, ⟨by decide, hstore⟩, trivial, List.forall_mem_nil _⟩
  have hpublic : RunsPublic 0x8000#64 0x4008#64 (fun _ g => g) block.instructions seven_ir := by
    rw [hi]
    refine ⟨trivial, fun _ => ⟨?_, fun _ => ⟨trivial, fun _ => trivial⟩⟩⟩
    have haddr : seven_ir.reg 2#16 + 5#64 + 0#64 = 12#64 := by decide
    show Public _ _ (seven_ir.reg 2#16 + 5#64 + 0#64) 8
    rw [haddr]
    exact public_low.1
  exact ⟨block, hb, pipeline_simulates hds hb hexact hfits (by decide) _ seven_in_x2_clear
    (represents_guestIr _ _ _ _) hpublic⟩

end Pipeline

end ExecEngine

end Bbarm64
