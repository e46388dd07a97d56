import Bbarm64.A64.Program
import Bbarm64.Engine.Compile
import Bbarm64.Engine.ControlFlow
import Bbarm64.Engine.Native

/-!
# Engine.ProgramBlock — the blocks of a program of the A64 subset

The words of an A64 program lie in guest memory.  The decode loop collects a row of its instructions, a
branch last if at all; their block fits the slot and stores to the context object only, so it runs
undisturbed wherever its code is (`program_undisturbed`), and it leaves the A64 result in the context
(`Follows`).
-/

namespace Bbarm64

open X86 ARM64Decoder IRBuilder IROptimizer IRLowering

namespace ExecEngine

/-! ## The decode loop on a program -/

/-- The mask test of the engine is the A64 encoding. -/
theorem is_svc_iff (w : BitVec 32) : is_svc w ↔ A64.isSvc w := by
  have hw : w = w.extractLsb' 21 11 ++ w.extractLsb' 5 16 ++ w.extractLsb' 0 5 := by
    refine BitVec.eq_of_getLsbD_eq fun i hi => ?_
    simp only [BitVec.getLsbD_append, BitVec.getLsbD_extractLsb']
    by_cases h₁ : i < 5
    · simp [h₁]
    · by_cases h₂ : i < 21
      · have h₃ : i - 5 < 16 := by omega
        simp [h₁, h₃, show 5 + (i - 5) = i by omega]
      · have h₃ : ¬ i - 5 < 16 := by omega
        have h₄ : i - 5 - 16 < 11 := by omega
        simp [h₁, h₃, h₄, show 21 + (i - 5 - 16) = i by omega]
  have hmask : (0xFFE0001F#32 : BitVec 32) = 0x7FF#11 ++ 0#16 ++ 0x1F#5 := by decide
  have hval : (0xD4000001#32 : BitVec 32) = 0b11010100000#11 ++ 0#16 ++ 0b00001#5 := by decide
  have hones : ∀ (x : BitVec 11), x &&& 0x7FF#11 = x := fun x => BitVec.and_allOnes
  have hones' : ∀ (x : BitVec 5), x &&& 0x1F#5 = x := fun x => BitVec.and_allOnes
  unfold is_svc A64.isSvc
  generalize w.extractLsb' 21 11 = hi at hw ⊢
  generalize w.extractLsb' 0 5 = lo at hw ⊢
  rw [hw, hmask, hval, BitVec.and_append, BitVec.and_append, hones, hones', BitVec.and_zero]
  constructor
  · intro h
    have hhi := congrArg (BitVec.extractLsb' 21 11) h
    have hlo := congrArg (BitVec.extractLsb' 0 5) h
    rw [BitVec.extractLsb'_append_eq_right, BitVec.extractLsb'_append_eq_right] at hlo
    refine ⟨?_, hlo⟩
    have hleft : ∀ (x : BitVec 11) (y : BitVec 5), (x ++ 0#16 ++ y).extractLsb' 21 11 = x := by
      intro x y
      refine BitVec.eq_of_getLsbD_eq fun i hi => ?_
      rw [BitVec.getLsbD_extractLsb', BitVec.getLsbD_append, BitVec.getLsbD_append,
        if_neg (by omega), if_neg (by omega), show 21 + i - 5 - 16 = i by omega]
      simp [hi]
    rwa [hleft, hleft] at hhi
  · rintro ⟨rfl, rfl⟩
    rfl

/-- The words of the program are in memory. -/
def ProgramAt (m : Mem) (p : A64.Program) : Prop :=
  ∀ k w, p.words[k]? = some w → read32 m (p.addr k) = w

/-- The records `ds` are the decoding of the instructions `is`, a branch last if at all. -/
structure Row (is : List A64.Insn) (ds : List DecodedInstr) : Prop where
  decodes : List.Forall₂ (fun i d => Decodes i d ∧ WellDecoded d) is ds
  inner : ∀ i ∈ is.dropLast, i.isBranch = false

section Collect

variable {p : A64.Program} {mem : MemoryManager}

theorem Row.cons {i : A64.Insn} {d : DecodedInstr} {is : List A64.Insn} {ds : List DecodedInstr}
    (hi : Decodes i d) (hd : WellDecoded d) (hb : i.isBranch = false) (h : Row is ds) :
    Row (i :: is) (d :: ds) := by
  refine ⟨.cons ⟨hi, hd⟩ h.decodes, ?_⟩
  cases is with
  | nil => exact List.forall_mem_nil _
  | cons i' is =>
    intro j hj
    rw [List.dropLast_cons_cons] at hj
    rcases List.mem_cons.mp hj with rfl | hj
    · exact hb
    · exact h.inner j hj

/-- A word that is no SVC decodes. -/
theorem exists_insn_decodes {k : ℕ} {w : BitVec 32} (hw : p.words[k]? = some w) (hs : ¬ A64.isSvc w) :
    ∃ i d, A64.Insn.ofWord? w = some i ∧ decode? w = some d ∧ Decodes i d := by
  obtain ⟨i, hi⟩ := A64.Program.exists_insn hw hs
  exact ⟨i, (decodes_of_ofWord? hi).imp fun _ h => ⟨hi, h⟩⟩

/-- The decode loop at a word that is no SVC. -/
theorem collect_insn (hp : ProgramAt mem.host p) {k : ℕ} {w : BitVec 32} {i : A64.Insn}
    (hw : p.words[k]? = some w) (hs : ¬ A64.isSvc w) (hi : A64.Insn.ofWord? w = some i) (n : ℕ) :
    ∃ d, decode? w = some d ∧ Decodes i d ∧ WellDecoded d ∧ collect mem (n + 1) (p.addr k) =
      if i.isBranch then [d] else d :: collect mem n (p.addr (k + 1)) := by
  obtain ⟨d, hd, hdec⟩ := decodes_of_ofWord? hi
  have hwell := decode?_wellDecoded hd
  have hcat : d.category = .BRANCH ∨ d.category = .BRANCH_COND ↔ i.isBranch = true := by
    obtain ⟨-, -, hbr, -⟩ := hwell.fits
    rw [← hbr, isBranch_of_decodes hdec]
  have hread : mem.read_u32 (p.addr k) = some w := congrArg some (hp k w hw)
  have hsvc : ¬ is_svc w := mt (is_svc_iff w).mp hs
  refine ⟨d, hd, hdec, hwell, ?_⟩
  rw [collect, hread]
  simp only [if_neg hsvc, hd, hcat, p.addr_succ]

/-- **A row of the program** is what the decode loop collects. -/
theorem collect_program (hp : ProgramAt mem.host p) (n : ℕ) {k : ℕ} (hk : k < p.words.length) :
    ∃ is, p.InsnsAt k is ∧ Row is (collect mem n (p.addr k)) := by
  induction n generalizing k with
  | zero => exact ⟨[], A64.Program.insnsAt_nil, .nil, List.forall_mem_nil _⟩
  | succ n ih =>
    have hw := List.getElem?_eq_getElem hk
    generalize p.words[k] = w at hw
    by_cases hs : A64.isSvc w
    · have hread : mem.read_u32 (p.addr k) = some w := congrArg some (hp k w hw)
      have hsvc : is_svc w := (is_svc_iff w).mpr hs
      rw [collect, hread]
      simp only [if_pos hsvc]
      exact ⟨[], A64.Program.insnsAt_nil, .nil, List.forall_mem_nil _⟩
    · obtain ⟨i, hi⟩ := A64.Program.exists_insn hw hs
      obtain ⟨d, -, hdec, hwell, hcollect⟩ := collect_insn hp hw hs hi n
      rw [hcollect]
      cases hb : i.isBranch with
      | true =>
        exact ⟨[i], .cons hw hs hi A64.Program.insnsAt_nil,
          .cons ⟨hdec, hwell⟩ .nil, List.forall_mem_nil _⟩
      | false =>
        obtain ⟨is, his, hrow⟩ := ih (A64.Program.succ_lt hw hs hi hb)
        rw [if_neg Bool.false_ne_true]
        exact ⟨i :: is, .cons hw hs hi his, hrow.cons hdec hwell hb⟩

/-- It is not empty, unless it starts with an SVC. -/
theorem collect_program_ne_nil (hp : ProgramAt mem.host p) {n k : ℕ} {w : BitVec 32}
    (hw : p.words[k]? = some w) (hs : ¬ A64.isSvc w) : collect mem (n + 1) (p.addr k) ≠ [] := by
  obtain ⟨i, hi⟩ := A64.Program.exists_insn hw hs
  obtain ⟨d, -, -, -, hcollect⟩ := collect_insn hp hw hs hi n
  rw [hcollect]
  split_ifs <;> simp

end Collect

/-! ## The code of a row -/

section Code

variable {is : List A64.Insn} {ds : List DecodedInstr} {pc : Word}

theorem Row.wellDecoded (h : Row is ds) : ∀ d ∈ ds, WellDecoded d :=
  fun d hd => (exists_decodes h.decodes d hd).choose_spec.2

/-- Up to 64 instructions fit. -/
theorem Row.fits (h : Row is ds) (hlen : ds.length ≤ max_instr) : Fits ds pc := by
  have hbody := body_bytes_of_decodes h.decodes
  have hslot : slot_size = 4096 := rfl
  have hmax : max_instr = 64 := rfl
  have hlen_is : is.length = ds.length := h.decodes.length_eq
  rw [fits_iff h.wellDecoded, size_blockInstrs h.wellDecoded (endsLast_of_decodes h.decodes h.inner),
    code_bytes]
  omega

/-- If the instruction stores, it is a word of the context, by way of R12. -/
def StoresCtx (i : Instr) : Prop :=
  i.stores = true → ∃ d x, i = .store r12 d x ∧ d.toNat + 8 ≤ 8 * CPUContext.words

theorem storesCtx_stArm (x : Reg) (r : BitVec 5) : StoresCtx (stArm x (r.setWidth 8)) := by
  have hoff := reg_offset_toNat _ (isArm_setWidth r)
  have hr := toNat_setWidth_arm r
  have hlt := r.isLt
  have hwords : CPUContext.words = 104 := rfl
  exact fun _ => ⟨_, x, rfl, by omega⟩

theorem storesCtx_of_not {i : Instr} (h : i.stores = false) : StoresCtx i := by
  intro hs
  rw [h] at hs
  cases hs

theorem storesCtx_blockRet (pc : Word) : ∀ i ∈ blockRet pc, StoresCtx i := by
  simp only [blockRet, List.forall_mem_cons]
  exact ⟨storesCtx_of_not rfl, fun _ => ⟨_, rax, rfl, by decide⟩, storesCtx_of_not rfl,
    List.forall_mem_nil _⟩

/-- One instruction of the subset. -/
theorem storesCtx_of_decodes {i : A64.Insn} {d : DecodedInstr} (h : Decodes i d) (ft pc : Word) :
    ∀ ir ∈ instrIr d pc, ∀ j ∈ lowerAsm ft ir, StoresCtx j := by
  obtain ⟨size, he⟩ := instrIr_of_decodes h pc
  have hmov : ∀ (rd : BitVec 5) (v : Word), ∀ j ∈ lowerAsm ft (movIr rd v size), StoresCtx j := by
    intro rd v
    have hl : lowerAsm ft (movIr rd v size) = [.movRI (hostReg (reg (rd.setWidth 8))) v,
        stArm (hostReg (reg (rd.setWidth 8))) (rd.setWidth 8)] := by
      simp [lowerAsm, movIr]
    rw [hl]
    exact List.forall_mem_cons.mpr ⟨storesCtx_of_not rfl, List.forall_mem_singleton.mpr
      (storesCtx_stArm _ rd)⟩
  rw [he]
  cases i with
  | addImm rd rn imm =>
    have hl : lowerAsm ft (addIr rd rn imm size) = [ldArm (rn.setWidth 8) rax,
        .aluI .add rax (imm.setWidth 32), stArm rax (rd.setWidth 8)] := by
      simp [lowerAsm, addIr, aluAsm, saveNzcvIf]
    rw [List.forall_mem_singleton, hl]
    exact List.forall_mem_cons.mpr ⟨storesCtx_of_not rfl, List.forall_mem_cons.mpr
      ⟨storesCtx_of_not rfl, List.forall_mem_singleton.mpr (storesCtx_stArm _ rd)⟩⟩
  | movz rd imm16 => exact List.forall_mem_singleton.mpr (hmov rd _)
  | adr rd imm21 => exact List.forall_mem_singleton.mpr (hmov rd _)
  | adrp rd imm21 => exact List.forall_mem_singleton.mpr (hmov rd _)
  | nop => exact List.forall_mem_singleton.mpr (List.forall_mem_singleton.mpr (storesCtx_of_not rfl))
  | b imm26 => exact List.forall_mem_singleton.mpr (storesCtx_blockRet _)
  | bl imm26 =>
    have hl : lowerAsm ft (linkIr pc) =
        [.movRI rax (pc + 4#64), stArm rax ((30#5).setWidth 8)] := by
      have h30 : (30#5).setWidth 8 = u8 30#16 := rfl
      simp [lowerAsm, linkIr, h30]
    refine List.forall_mem_cons.mpr ⟨?_, List.forall_mem_singleton.mpr (storesCtx_blockRet _)⟩
    rw [hl]
    exact List.forall_mem_cons.mpr ⟨storesCtx_of_not rfl, List.forall_mem_singleton.mpr
      (storesCtx_stArm _ 30#5)⟩

/-- The block of a row stores to the context only. -/
theorem Row.storesCtx (h : Row is ds) : ∀ j ∈ blockInstrs ds pc, StoresCtx j := by
  intro j hj
  rw [blockInstrs, blockIr_of_decodes h.decodes] at hj
  rcases List.mem_append.mp hj with hj | hj
  · rcases List.mem_cons.mp hj with rfl | hj
    · exact storesCtx_of_not rfl
    · obtain ⟨ir, hir, hj⟩ := List.mem_flatMap.mp hj
      obtain ⟨d, hd, pc', hir⟩ := mem_irFrom hir
      obtain ⟨i, hi, -⟩ := exists_decodes h.decodes d hd
      exact storesCtx_of_decodes hi _ pc' ir hir j hj
  · exact storesCtx_blockRet _ j hj

/-- What its run stores to. -/
theorem Row.performs_storesAt (h : Row is ds) {s t : State} {j : Instr}
    (hp : Performs (encodeAll (blockInstrs ds pc)) s j t) {a : Word} (ha : j.StoresAt t a) :
    (a - s.reg rdi).toNat < 8 * CPUContext.words := by
  obtain ⟨b, n, hb, hd, rfl⟩ := hp
  have hc := blockAsm_controlled s hb
  obtain ⟨mid, rest, hprog, hip⟩ := hc.boundary
  obtain ⟨addr, haddr, ha⟩ := ha
  have hstores : j.stores = true := by
    cases j with
    | store | pushfq => rfl
    | _ => cases haddr
  rw [show blockAsm (blockIr ds pc) (fallthrough ds pc) = blockInstrs ds pc from rfl] at hprog
  -- the instruction is the one at the boundary
  cases rest with
  | nil =>
    rw [List.append_nil] at hprog
    rw [hip, hprog, size, List.drop_of_length_le (Nat.le_refl _)] at hd
    cases hd
  | cons j' rest =>
    rw [hip, hprog, decode_at] at hd
    obtain rfl : j' = j := congrArg Prod.fst (Option.some.inj hd)
    have hmem : j' ∈ blockInstrs ds pc := by rw [hprog]; simp
    obtain ⟨d, x, rfl, hle⟩ := h.storesCtx j' hmem hstores
    have hwords : CPUContext.words = 104 := rfl
    have hr12 : b.st.reg r12 = s.reg rdi := by
      refine hc.context.resolve_left ?_
      rintro rfl
      -- the first instruction is the prologue
      have hmid : mid = [] := by
        have hle := length_le_size mid
        rw [← hip] at hle
        exact List.eq_nil_of_length_eq_zero (Nat.le_zero.mp hle)
      rw [hmid, List.nil_append, blockInstrs, blockAsm, List.cons_append] at hprog
      cases hprog
    have hea : addr = off (s.reg rdi) d.toNat := by
      rw [← Option.some.inj haddr]
      exact ea_ctx hr12 (by omega)
    rw [hea] at ha
    simp only [off, BitVec.toNat_sub, BitVec.toNat_add, BitVec.toNat_ofNat] at ha ⊢
    have := (s.reg rdi).isLt
    have := a.isLt
    omega

/-- **A row runs undisturbed** where its code is, as long as the context object is not in the slot. -/
theorem program_undisturbed (h : Row is ds) (hlen : ds.length ≤ max_instr) {host_code : Word}
    (hnull : host_code ≠ 0#64) {host : Mem} {st : State}
    (hcode : CodeAt st.mem host_code (block_code ds pc host_code host))
    (hapart : ∀ a, InSlot a host_code → 8 * CPUContext.words ≤ (a - st.reg rdi).toNat) :
    Undisturbed ds pc host_code st :=
  ⟨h.wellDecoded, h.fits hlen, hnull, ⟨host, hcode⟩, fun _ _ hp a ha hs =>
    Nat.not_lt.mpr (hapart a ha) (h.performs_storesAt hp hs)⟩

end Code

/-! ## Running it -/

/-- The A64 state in the context. -/
def guest (ctx : CPUContext) : A64.State := ⟨guest_regs ctx, ctx.pc⟩

theorem crashed_crash (ctx : CPUContext) : (crash ctx).crashed = true := by
  have hbit : ∀ f : BitVec 32, (f ||| CPUContext.STATE_CRASHED) &&& CPUContext.STATE_CRASHED =
      CPUContext.STATE_CRASHED := by
    intro f
    ext i hi
    rw [BitVec.getElem_and, BitVec.getElem_or]
    cases CPUContext.STATE_CRASHED[i] <;> simp
  rw [crash, CPUContext.crashed, CPUContext.set_state_flags_state_flags, hbit]
  rfl

theorem crashed_congr {ctx ctx' : CPUContext} (h : ctx'.word 103 = ctx.word 103) :
    ctx'.crashed = ctx.crashed := by
  rw [CPUContext.crashed, CPUContext.crashed, CPUContext.state_flags, CPUContext.state_flags, h]

/-- The guest `g'` behind a block that `g` entered: `a` is in the context, the words behind `pc` and the
memory outside of the object are as they were. -/
structure Follows (c : Word) (g g' : Guest) (a : A64.State) : Prop where
  state : guest g'.1 = a
  rest : ∀ i, 32 < i → i < CPUContext.words → g'.1.word i = g.1.word i
  outside : CtxOutside c g.2.host g'.2.host

section Running

variable {is : List A64.Insn} {ds : List DecodedInstr} {pc c host_code : Word} {g : Guest} {cpu : Cpu}

/-- The state at the `ret` of the block. -/
theorem Row.returns (h : Row is ds) (hlen : ds.length ≤ max_instr)
    (he : Enters c host_code g cpu) (hpc : g.1.pc = pc) :
    ∃ s', (∀ t, Returns (encodeAll (blockInstrs ds pc)) cpu.st t ↔ t = s') ∧
      Refines c g.1 cpu.st.mem (A64.run is (guest g.1)) s'.mem := by
  have hlen_is : is.length = ds.length := h.decodes.length_eq
  have hmax : max_instr = 64 := rfl
  have hft : fallthrough ds pc = pcAt pc (0 + is.length) := by
    rw [pcAt_eq pc (by omega), fallthrough, hlen_is, Nat.zero_add]
  refine ⟨(runIr (fallthrough ds pc) (blockIr ds pc) (enter cpu.st)).popRet,
    fun t => returns_iff, ?_⟩
  have hctx : CtxAt cpu.st.mem (cpu.st.reg rdi) g.1 := he.rdi.symm ▸ he.ctx
  have hstart : (guest g.1).pc = pcAt pc 0 := hpc.trans (pcAt_zero pc).symm
  have hsim := sim_enter hctx
  rw [he.rdi] at hsim
  rw [popRet_mem, blockIr_of_decodes h.decodes, hft]
  exact sim_run h.decodes h.inner pc 0 (by omega) hstart hsim

/-- What the context object holds there. -/
theorem follows_of_refines {a : A64.State} {s' : State} {ctx : CPUContext}
    (he : Enters c host_code g cpu) (hr : Refines c g.1 cpu.st.mem a s'.mem)
    (hctx : CtxAt s'.mem c ctx) : Follows c g (ctx, { g.2 with host := s'.mem }) a := by
  have hwords : CPUContext.words = 104 := rfl
  have hreg : guest_regs ctx = a.reg := by
    funext r
    have := r.isLt
    rw [guest_regs, ← hctx _ (by omega), hr.reg]
  have hpc : ctx.pc = a.pc := (hctx 32 (by decide)).symm.trans hr.pc
  refine ⟨?_, fun i h32 hi => ?_, he.host.trans hr.outside⟩
  · rw [guest, hreg, hpc]
  · rw [← hctx i hi, hr.rest i h32 hi]

/-- **Running a row**: every execution of its block that does not crash leaves the A64 result, and there
is one. -/
theorem Row.leaves (h : Row is ds) (hlen : ds.length ≤ max_instr)
    (hu : Undisturbed ds pc host_code cpu.st) (he : Enters c host_code g cpu) (hpc : g.1.pc = pc) :
    (∀ g', Leaves c g cpu g' → g'.1.crashed = false → Follows c g g' (A64.run is (guest g.1))) ∧
      ∃ g', Leaves c g cpu g' ∧ Follows c g g' (A64.run is (guest g.1)) := by
  obtain ⟨s', hs', hr⟩ := h.returns hlen he hpc
  constructor
  · intro g' hl hgo
    rcases (leaves_iff hu he.ip).mp hl with ⟨t, ctx, ht, hctx, rfl⟩ | ⟨b, ctx, -, -, rfl⟩
    · obtain rfl := (hs' t).mp ht
      exact follows_of_refines he hr hctx
    · exact absurd (crashed_crash ctx) (Bool.eq_false_iff.mp hgo)
  · have hctx : CtxAt s'.mem c ⟨fun i => X86.word s'.mem c (8 * i)⟩ := fun _ _ => rfl
    exact ⟨_, (leaves_iff hu he.ip).mpr (.inl ⟨s', _, (hs' s').mpr rfl, hctx, rfl⟩),
      follows_of_refines he hr hctx⟩

/-- What it stores to. -/
theorem Row.stores (h : Row is ds) (hu : Undisturbed ds pc host_code cpu.st)
    (he : Enters c host_code g cpu) {a : Word} (ha : Stores cpu a) :
    (a - c).toNat < 8 * CPUContext.words := by
  obtain ⟨i, t, hp, hs⟩ := (hu.stores_iff he.ip).mp ha
  rw [← he.rdi]
  exact h.performs_storesAt hp hs

end Running

/-! ## Entering -/

/-- The host memory with the context object in it. -/
def with_ctx (c : Word) (ctx : CPUContext) (host : Mem) : Mem :=
  fun a => if (a - c).toNat < 8 * CPUContext.words then ctx_mem ctx (a - c) else host a

theorem ctxAt_with_ctx (c : Word) (ctx : CPUContext) (host : Mem) :
    CtxAt (with_ctx c ctx host) c ctx := by
  intro i hi
  rw [← ctxAt_ctx_mem ctx i hi]
  refine read64_congr fun j hj => ?_
  have hwords : CPUContext.words = 104 := rfl
  have hlt : (off c (8 * i + j) - c).toNat < 8 * CPUContext.words := by
    rw [off_sub_self (by omega)]
    omega
  have hsub : off c (8 * i + j) - c = off 0#64 (8 * i + j) := by
    rw [off, off, BitVec.add_comm, BitVec.add_sub_cancel, BitVec.zero_add]
  rw [off_add, off_add, with_ctx, if_pos hlt, hsub]

theorem ctxOutside_with_ctx (c : Word) (ctx : CPUContext) (host : Mem) :
    CtxOutside c host (with_ctx c ctx host) := by
  intro a ha
  exact if_neg (Nat.not_lt.mpr ha)

/-- A host CPU at the entry of the code. -/
def entering (c code : Word) (g : Guest) : Cpu where
  ip := code
  st := { State.cleared with
    reg := fun r => if r = rdi then c else 0#64
    mem := with_ctx c g.1 g.2.host }

theorem enters_entering (c code : Word) (g : Guest) : Enters c code g (entering c code g) :=
  ⟨rfl, rfl, ctxAt_with_ctx c g.1 g.2.host, ctxOutside_with_ctx c g.1 g.2.host⟩

end ExecEngine

end Bbarm64
