import Bbarm64.Engine.Coherence
import Bbarm64.X86.InPlace

/-!
# Engine.Native — execution of the code in a slot

`translate_block` leaves the code of the block in its slot, and `execute_block` runs whatever bytes are
there, in the memory they share with the context object and the guest.  Where the run does not store
into the slot, the host CPU does what the code of the block does on its own (`leaves_iff`), so that
what is known of `block_code` holds of the rounds of the loop.
-/

namespace Bbarm64

open X86 ARM64Decoder IRBuilder IROptimizer IRLowering

namespace ExecEngine

/-! ## The code in the slot -/

theorem codeAt_code (e : X86_64Emitter) : CodeAt e.host e.buf_ e.code := by
  intro i b hb
  rw [X86_64Emitter.code, List.getElem?_map] at hb
  obtain ⟨j, hj, rfl⟩ := Option.map_eq_some_iff.mp hb
  obtain ⟨-, rfl⟩ := List.getElem?_eq_some_iff.mp hj
  rw [List.getElem_range]

section Translated

variable {t : TranslationCache} {mem : MemoryManager} {pc : Word} {block : BlockInfo}

/-- The block that `translate_block` returns, and the memory it leaves, with `e` the emitter behind
the lowering. -/
theorem translate_block_block (h : (translate_block t mem pc).block = some block) :
    ∃ ir_block host_code e, IRBuilder.build (collect mem max_instr pc) pc = some ir_block ∧
      (t.alloc_host_code slot_size).1 = host_code ∧ host_code ≠ 0#64 ∧
      emit_block (optimize ir_block) (fallthrough (collect mem max_instr pc) pc) host_code mem.host =
        e ∧ (translate_block t mem pc).mem.host = e.host ∧
      block = { arm_pc := pc, host_code, host_code_size := BitVec.ofNat 32 e.code_size,
                arm_instr_count := ir_block.arm_instr_count } := by
  obtain ⟨ir_block, hbuild, -⟩ := build_spec (collect mem max_instr pc) pc
  have hft : pc + BitVec.ofNat 64 ((collect mem max_instr pc).length * 4) =
      fallthrough (collect mem max_instr pc) pc := rfl
  obtain ⟨e, he⟩ : ∃ e, emit_block (optimize ir_block)
      (fallthrough (collect mem max_instr pc) pc) (t.alloc_host_code slot_size).1 mem.host = e :=
    ⟨_, rfl⟩
  refine ⟨ir_block, _, e, hbuild, rfl, ?_⟩
  unfold translate_block at h ⊢
  simp only [hbuild, hft, he] at h ⊢
  by_cases hds : collect mem max_instr pc = []
  · rw [if_pos (by rw [hds]; rfl)] at h
    cases h
  have hne : ¬ (collect mem max_instr pc).isEmpty = true := by simpa using hds
  rw [if_neg hne] at h ⊢
  by_cases hnull : (t.alloc_host_code slot_size).1 = 0#64
  · rw [if_pos hnull] at h
    cases h
  rw [if_neg hnull] at h ⊢
  exact ⟨hnull, trivial, MemoryManager.mark_translated_page_host _ _, (Option.some.inj h).symm⟩

/-- **The code is in its slot**: behind a translation, all `host_code_size` bytes of it. -/
theorem translate_block_codeAt (h : (translate_block t mem pc).block = some block) :
    let code := block_code (collect mem max_instr pc) pc block.host_code mem.host
    CodeAt (translate_block t mem pc).mem.host block.host_code code ∧
      block.host_code_size.toNat = code.length ∧ code.length ≤ slot_size := by
  obtain ⟨ir_block, host_code, e, hbuild, -, hnull, he, hmem, rfl⟩ := translate_block_block h
  have hds : ∀ d ∈ collect mem max_instr pc, WellDecoded d := collect_wellDecoded
  obtain ⟨b, hb, happ⟩ := @lower_appends _ pc hds (.set_buffer host_code slot_size mem.host)
  obtain rfl := Option.some.inj (hbuild.symm.trans hb)
  rw [← emit_block, he] at happ
  have hbuf : e.buf_ = host_code := happ.ext.buf
  have hlen : e.offset_ ≤ slot_size := by
    rw [happ.offset hnull (Nat.zero_le _)]
    exact Nat.min_le_left _ _
  have hslot : slot_size < 2 ^ 32 := by decide
  have hcode := codeAt_code e
  rw [hbuf] at hcode
  simp only [block_code, hbuild, he, hmem, X86_64Emitter.code_length]
  refine ⟨hcode, ?_, hlen⟩
  rw [BitVec.toNat_ofNat, X86_64Emitter.code_size, Nat.mod_eq_of_lt (by omega)]

end Translated

/-! ## Running it -/

theorem endsInRet_blockAsm (irs : List IRInst) (ft : Word) : EndsInRet (blockAsm irs ft) :=
  ⟨.movRR r12 rdi :: irs.flatMap (lowerAsm ft) ++ [.movRI rax ft, .store r12 256#32 rax], by
    simp [blockAsm, blockRet]⟩

/-- The code at `host_code` is that of the block of `ds`, whole, and its run from `st` does not store
into the slot. -/
structure Undisturbed (ds : List DecodedInstr) (pc host_code : Word) (st : State) : Prop where
  good : ∀ d ∈ ds, WellDecoded d
  fits : Fits ds pc
  nonnull : host_code ≠ 0#64
  code : ∃ host, CodeAt st.mem host_code (block_code ds pc host_code host)
  stores : ∀ i t, Performs (encodeAll (blockInstrs ds pc)) st i t → ∀ a, InSlot a host_code →
    ¬ i.StoresAt t a

section Run

variable {c code : Word} {g g' : Guest} {cpu : Cpu} {ds : List DecodedInstr} {pc host_code : Word}
  {st : State}

/-- The bytes of the slot are the encoding of the block. -/
theorem Undisturbed.block_code_eq (h : Undisturbed ds pc host_code st) (host : Mem) :
    block_code ds pc host_code host = encodeAll (blockInstrs ds pc) :=
  ExecEngine.block_code_eq h.good h.nonnull ((fits_iff h.good).mp h.fits) host

theorem Undisturbed.keepsCode (h : Undisturbed ds pc host_code st) :
    KeepsCode (blockInstrs ds pc) host_code st := by
  obtain ⟨host, hcode⟩ := h.code
  rw [h.block_code_eq] at hcode
  have hsize := (fits_iff h.good).mp h.fits
  refine keepsCode_of_performs hcode fun i t hp o ho => h.stores i t hp _ ?_
  have hslot : slot_size = 4096 := rfl
  rw [InSlot, off_sub_self (by omega)]
  omega

/-- **Execution of a block**: the host CPU leaves undisturbed code at its `ret`, in the state in which
the code on its own returns, or at a fault somewhere on the way there. -/
theorem leaves_iff (h : Undisturbed ds pc host_code cpu.st) (hip : cpu.ip = host_code) :
    Leaves c g cpu g' ↔
      (∃ s' ctx, Returns (encodeAll (blockInstrs ds pc)) cpu.st s' ∧ CtxAt s'.mem c ctx ∧
        g' = (ctx, { g.2 with host := s'.mem })) ∨
      ∃ b ctx, Steps (encodeAll (blockInstrs ds pc)) ⟨0, cpu.st⟩ b ∧ CtxAt b.st.mem c ctx ∧
        g' = (crash ctx, { g.2 with host := b.st.mem }) := by
  have hj : JumpsForward (blockInstrs ds pc) := jumpsForward_blockAsm _ _
  have hend : EndsInRet (blockInstrs ds pc) := endsInRet_blockAsm _ _
  have hkeep := h.keepsCode
  have hplace : cpu = Config.place host_code ⟨0, cpu.st⟩ := by
    have h0 : off host_code 0 = host_code := BitVec.add_zero host_code
    rw [Config.place, h0, ← hip]
  constructor
  · rintro (⟨hrun, hret, hctx⟩ | ⟨hrun, hctx⟩)
    · rename_i cpu' ctx
      rw [hplace] at hrun
      have hreturns := (returns_place_iff hj hend hkeep).mp ⟨cpu', hrun, hret, rfl⟩
      exact .inl ⟨cpu'.st.popRet, ctx, hreturns, hctx, rfl⟩
    · rw [hplace] at hrun
      obtain ⟨b, hb, rfl⟩ := (cycles_place_iff hj hend hkeep).mp hrun
      exact .inr ⟨b, _, hb, hctx, rfl⟩
  · rintro (⟨s', ctx, hreturns, hctx, rfl⟩ | ⟨b, ctx, hb, hctx, rfl⟩)
    · obtain ⟨cpu', hrun, hret, rfl⟩ := (returns_place_iff hj hend hkeep).mpr hreturns
      rw [← hplace] at hrun
      exact .ret hrun hret hctx
    · have hrun := (cycles_place_iff hj hend hkeep).mpr ⟨b, hb, rfl⟩
      rw [← hplace] at hrun
      exact .fault hrun hctx

/-- The bytes that the block stores to are those its code on its own stores to. -/
theorem Undisturbed.stores_iff (h : Undisturbed ds pc host_code cpu.st) (hip : cpu.ip = host_code)
    {a : Word} : Stores cpu a ↔
      ∃ i t, Performs (encodeAll (blockInstrs ds pc)) cpu.st i t ∧ i.StoresAt t a := by
  have hplace : cpu = Config.place host_code ⟨0, cpu.st⟩ := by
    have h0 : off host_code 0 = host_code := BitVec.add_zero host_code
    rw [Config.place, h0, ← hip]
  have hiff : Stores (Config.place host_code ⟨0, cpu.st⟩) a ↔ _ :=
    stores_place_iff (jumpsForward_blockAsm _ _) (endsInRet_blockAsm _ _) h.keepsCode
  rwa [← hplace] at hiff

end Run

end ExecEngine

end Bbarm64
