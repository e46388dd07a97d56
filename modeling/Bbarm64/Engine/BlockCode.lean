import Bbarm64.Backend.BlockState
import Bbarm64.Engine.Exec
import Bbarm64.Ir.FlagMerging

/-!
# Engine.BlockCode — the host code of a translated block

`block_code` is what `translate_block` leaves in the slot for a list of decoded instructions.  It is
the encoding of `blockInstrs` as long as that fits the slot.
-/

namespace Bbarm64

open X86 ARM64Decoder IRBuilder IROptimizer IRLowering

namespace ExecEngine

/-- The address behind the instructions. -/
def fallthrough (ds : List DecodedInstr) (pc : Word) : Word := pc + BitVec.ofNat 64 (ds.length * 4)

/-- The bytes that building, optimizing and lowering the instructions leaves in the slot at
`host_code`. -/
def block_code (ds : List DecodedInstr) (pc host_code : Word) (host : Mem) : List Byte :=
  match IRBuilder.build ds pc with
  | none => []
  | some ir_block => (emit_block (optimize ir_block) (fallthrough ds pc) host_code host).code

/-- The IR of a block behind the optimizer. -/
def blockIr (ds : List DecodedInstr) (pc : Word) : List IRInst := merge (irFrom pc 0 ds)

/-- The host instructions of a block. -/
def blockInstrs (ds : List DecodedInstr) (pc : Word) : List Instr :=
  blockAsm (blockIr ds pc) (fallthrough ds pc)

section Code

variable {ds : List DecodedInstr} {pc : Word}

theorem blockIr_goodIr (hds : ∀ d ∈ ds, WellDecoded d) : ∀ ir ∈ blockIr ds pc, GoodIr ir :=
  merge_goodIr (irFrom_goodIr hds)

theorem blockIr_lowerable (hds : ∀ d ∈ ds, WellDecoded d) : ∀ ir ∈ blockIr ds pc, Lowerable ir :=
  fun ir hir => (blockIr_goodIr hds ir hir).lowerable

theorem optimized_blockIr {ir_block : IRBlock} (hbuild : IRBuilder.build ds pc = some ir_block) :
    (optimize ir_block).instructions = blockIr ds pc := by
  obtain ⟨b, hb, hi⟩ := build_spec ds pc
  obtain rfl := Option.some.inj (hbuild.symm.trans hb)
  rw [optimize_instructions, hi, blockIr]

/-- Lowering the instructions appends the encodings of the block, whatever the emitter. -/
theorem lower_appends_of_lowerable (hl : ∀ ir ∈ blockIr ds pc, Lowerable ir) (e : X86_64Emitter) :
    ∃ ir_block, IRBuilder.build ds pc = some ir_block ∧
      X86_64Emitter.Appends e (lower_block (optimize ir_block) (fallthrough ds pc) e)
        (encodeAll (blockInstrs ds pc)) := by
  obtain ⟨ir_block, hb, -⟩ := build_spec ds pc
  have ho := optimized_blockIr hb
  refine ⟨ir_block, hb, ?_⟩
  rw [← ho] at hl
  have h := lower_block_appends e hl (fallthrough ds pc)
  rwa [ho] at h

theorem lower_appends (hds : ∀ d ∈ ds, WellDecoded d) (e : X86_64Emitter) :
    ∃ ir_block, IRBuilder.build ds pc = some ir_block ∧
      X86_64Emitter.Appends e (lower_block (optimize ir_block) (fallthrough ds pc) e)
        (encodeAll (blockInstrs ds pc)) :=
  lower_appends_of_lowerable (blockIr_lowerable hds) e

theorem block_code_eq_of_lowerable (hl : ∀ ir ∈ blockIr ds pc, Lowerable ir) {host_code : Word}
    (hb : host_code ≠ 0#64) (hsize : size (blockInstrs ds pc) ≤ slot_size) (host : Mem) :
    block_code ds pc host_code host = encodeAll (blockInstrs ds pc) := by
  obtain ⟨ir_block, hbuild, happ⟩ :=
    lower_appends_of_lowerable hl (.set_buffer host_code slot_size host)
  have hslot : slot_size ≤ 2 ^ 64 := by decide
  simp only [block_code, hbuild, emit_block, happ.code_fresh hb hslot hsize]

/-- **The code in the slot**, if the block fits. -/
theorem block_code_eq (hds : ∀ d ∈ ds, WellDecoded d) {host_code : Word} (hb : host_code ≠ 0#64)
    (hsize : size (blockInstrs ds pc) ≤ slot_size) (host : Mem) :
    block_code ds pc host_code host = encodeAll (blockInstrs ds pc) :=
  block_code_eq_of_lowerable (blockIr_lowerable hds) hb hsize host

/-- Up to 13 IR instructions fit the slot whatever they are. -/
theorem block_code_short {irs : List IRInst} (he : blockIr ds pc = irs)
    (hl : ∀ ir ∈ irs, Lowerable ir) (hlen : irs.length ≤ 13) {host_code : Word}
    (hb : host_code ≠ 0#64) (host : Mem) :
    block_code ds pc host_code host = encodeAll (blockAsm irs (fallthrough ds pc)) := by
  have hcount := blockAsm_length_le (fallthrough ds pc) irs
  have hsize := size_le_length (blockAsm irs (fallthrough ds pc))
  have hslot : slot_size = 4096 := rfl
  subst he
  exact block_code_eq_of_lowerable hl hb (by unfold blockInstrs; omega) host

theorem returns_short {irs : List IRInst} (he : blockIr ds pc = irs) (hl : ∀ ir ∈ irs, Lowerable ir)
    (hlen : irs.length ≤ 13) {host_code : Word} (hb : host_code ≠ 0#64) (host : Mem) {s s' : State} :
    Returns (block_code ds pc host_code host) s s' ↔
      s' = (runIr (fallthrough ds pc) irs (enter s)).popRet := by
  rw [block_code_short he hl hlen hb]
  exact returns_iff

/-- The lowering asks for no more bytes than the slot has: that is its code size in a buffer without
a limit. -/
def Fits (ds : List DecodedInstr) (pc : Word) : Prop :=
  ∃ ir_block, IRBuilder.build ds pc = some ir_block ∧
    (lower_block (optimize ir_block) (fallthrough ds pc)
      (.set_buffer 1#64 (2 ^ 64) fun _ => 0#8)).code_size ≤ slot_size

theorem fits_iff (hds : ∀ d ∈ ds, WellDecoded d) :
    Fits ds pc ↔ size (blockInstrs ds pc) ≤ slot_size := by
  let e : X86_64Emitter := .set_buffer 1#64 (2 ^ 64) fun _ => 0#8
  obtain ⟨ir_block, hb, happ⟩ := @lower_appends ds pc hds e
  have h : (lower_block (optimize ir_block) (fallthrough ds pc) e).code_size =
      min (2 ^ 64) (size (blockInstrs ds pc)) := by
    have := happ.offset (by decide : (1#64 : Word) ≠ 0#64) (Nat.zero_le _)
    simpa [e, X86_64Emitter.set_buffer, X86_64Emitter.code_size, size] using this
  have hslot : slot_size < 2 ^ 64 := by decide
  constructor
  · rintro ⟨b, hb', hsize⟩
    obtain rfl := Option.some.inj (hb.symm.trans hb')
    rw [h] at hsize
    omega
  · intro hsize
    exact ⟨ir_block, hb, by rw [h]; omega⟩

/-! ### A block of one instruction -/

variable {d : DecodedInstr} {ir : IRInst}

@[simp] theorem pcAt_zero (pc : Word) : pcAt pc 0 = pc := by simp [pcAt]

theorem irFrom_one (d : DecodedInstr) (pc : Word) : irFrom pc 0 [d] = instrIr d pc := by
  simp [irFrom]

theorem fallthrough_one (d : DecodedInstr) (pc : Word) : fallthrough [d] pc = pc + 4#64 := rfl

theorem blockIr_one (hi : instrIr d pc = [ir]) : blockIr [d] pc = [ir] := by
  rw [blockIr, irFrom_one, hi]
  rfl

/-- The run of a block of one instruction with one IR instruction. -/
theorem returns_one_of_lowerable (hi : instrIr d pc = [ir]) (hl : Lowerable ir) {host_code : Word}
    (hb : host_code ≠ 0#64) (host : Mem) {s s' : State} :
    Returns (block_code [d] pc host_code host) s s' ↔
      s' = (runIr (pc + 4#64) [ir] (enter s)).popRet :=
  returns_short (blockIr_one hi) (by simpa using hl) (by simp) hb host

theorem returns_one (hd : WellDecoded d) (hi : instrIr d pc = [ir]) {host_code : Word}
    (hb : host_code ≠ 0#64) (host : Mem) {s s' : State} :
    Returns (block_code [d] pc host_code host) s s' ↔
      s' = (runIr (pc + 4#64) [ir] (enter s)).popRet :=
  returns_one_of_lowerable hi (instrIr_goodIr hd pc ir (by simp [hi])).lowerable hb host

/-- If the instruction does not return, the block goes on to the address behind it. -/
theorem returns_lone (hi : instrIr d pc = [ir]) (hl : Lowerable ir) (hr : ¬ Returning ir.op)
    {host_code : Word} (hb : host_code ≠ 0#64) (host : Mem) {s s' : State} :
    Returns (block_code [d] pc host_code host) s s' ↔
      s' = (setPc (pc + 4#64) (execAll (lowerAsm (pc + 4#64) ir) (enter s))).popRet := by
  rw [returns_one_of_lowerable hi hl hb, runIr, if_neg hr, runIr]

theorem lone_r12 (hr : ¬ Returning ir.op) (ft : Word) (s : State) :
    (execAll (lowerAsm ft ir) (enter s)).reg r12 = s.reg rdi := by
  rw [lowerAsm_r12 ft hr, enter_r12]

/-- The memory behind that block. -/
theorem lone_mem (hr : ¬ Returning ir.op) (ft : Word) (s : State) :
    (setPc ft (execAll (lowerAsm ft ir) (enter s))).popRet.mem =
      writeN 8 (execAll (lowerAsm ft ir) (enter s)).mem (off (s.reg rdi) (8 * 32)) ft := by
  rw [popRet_mem, setPc_mem (lone_r12 hr ft s)]

/-- The instructions of that block up to its `ret`. -/
def loneBody (pc : Word) (ir : IRInst) : List Instr :=
  .movRR r12 rdi :: lowerAsm (pc + 4#64) ir ++ [.movRI rax (pc + 4#64), .store r12 256#32 rax]

theorem performs_lone (hi : instrIr d pc = [ir]) (hl : Lowerable ir) (hr : ¬ Returning ir.op)
    {host_code : Word} (hb : host_code ≠ 0#64) (host : Mem) {s t : State} {i : Instr}
    (hne : i ≠ .ret) : Performs (block_code [d] pc host_code host) s i t ↔
      (i, t) ∈ trace (loneBody pc ir) s := by
  have hbody : blockAsm [ir] (pc + 4#64) = loneBody pc ir ++ .ret :: [] := by
    simp [blockAsm, loneBody, blockRet]
  have hs : ∀ j ∈ loneBody pc ir, j.straight = true := by
    intro j hj
    simp only [loneBody, List.mem_append, List.mem_cons, List.not_mem_nil, or_false] at hj
    rcases hj with (rfl | hj) | rfl | rfl
    · rfl
    · exact lowerAsm_straight _ hr j hj
    · rfl
    · rfl
  rw [block_code_short (blockIr_one hi) (by simpa using hl) (by simp) hb, fallthrough_one, hbody,
    performs_iff hs]
  exact or_iff_left fun h => hne h.1

/-! ### Translations -/

/-- One round of the decode loop, with `rest` the list behind it: it stops before the word, at a
branch, or goes on. -/
inductive Collects (mem : MemoryManager) (pc : Word) (rest : List DecodedInstr) :
    List DecodedInstr → Prop where
  | stop : Collects mem pc rest []
  | last {raw : BitVec 32} {d : DecodedInstr} (hraw : mem.read_u32 pc = some raw)
    (hsvc : ¬ is_svc raw) (hd : decode? raw = some d)
    (hcat : d.category = .BRANCH ∨ d.category = .BRANCH_COND) : Collects mem pc rest [d]
  | more {raw : BitVec 32} {d : DecodedInstr} (hraw : mem.read_u32 pc = some raw)
    (hsvc : ¬ is_svc raw) (hd : decode? raw = some d)
    (hcat : ¬ (d.category = .BRANCH ∨ d.category = .BRANCH_COND)) : Collects mem pc rest (d :: rest)

theorem collect_collects (mem : MemoryManager) (n : ℕ) (pc : Word) :
    Collects mem pc (collect mem n (pc + 4#64)) (collect mem (n + 1) pc) := by
  rw [collect]
  split
  · exact .stop
  · rename_i raw hraw
    split_ifs with hsvc
    · exact .stop
    · split
      · exact .stop
      · rename_i d hd
        split_ifs with hcat
        · exact .last hraw hsvc hd hcat
        · exact .more hraw hsvc hd hcat

theorem collect_decoded {mem : MemoryManager} {n : ℕ} {pc : Word} :
    ∀ d ∈ collect mem n pc, ∃ w, decode? w = some d := by
  induction n generalizing pc with
  | zero => exact List.forall_mem_nil _
  | succ n ih =>
    have hc := collect_collects mem n pc
    generalize collect mem (n + 1) pc = ds at hc
    cases hc with
    | stop => exact List.forall_mem_nil _
    | last _ _ hd _ => exact List.forall_mem_singleton.mpr ⟨_, hd⟩
    | more _ _ hd _ => exact List.forall_mem_cons.mpr ⟨⟨_, hd⟩, ih⟩

theorem collect_wellDecoded {mem : MemoryManager} {n : ℕ} {pc : Word} :
    ∀ d ∈ collect mem n pc, WellDecoded d := wellDecoded_of_decoded collect_decoded

/-- What a call of `translate_block` does, with `ds` the decoded instructions: it returns early, or
it lowers `ds` into a new slot. -/
inductive Translates (cache : TranslationCache) (mem : MemoryManager) (pc : Word)
    (ds : List DecodedInstr) : Translation → Prop where
  | empty (h : ds = []) : Translates cache mem pc ds ⟨none, cache, mem, none⟩
  | full (h : (cache.alloc_host_code slot_size).1 = 0#64) :
    Translates cache mem pc ds ⟨none, (cache.alloc_host_code slot_size).2, mem, none⟩
  | done {ir_block : IRBlock} {host_code : Word} {cache' cache'' : TranslationCache}
      {block : BlockInfo} {mem' : MemoryManager} {e : X86_64Emitter} (hds : ds ≠ [])
      (hbuild : IRBuilder.build ds pc = some ir_block)
      (halloc : cache.alloc_host_code slot_size = (host_code, cache')) (hnull : host_code ≠ 0#64)
      (he : e = emit_block (optimize ir_block) (fallthrough ds pc) host_code mem.host)
      (hcache : cache'.SamePool cache'') (hblock : block.host_code = host_code)
      (hcode_size : block.host_code_size = BitVec.ofNat 32 e.code_size)
      (hmem : mem'.host = e.host) : Translates cache mem pc ds ⟨some block, cache'', mem', some e⟩

theorem translate_block_translates (cache : TranslationCache) (mem : MemoryManager) (pc : Word) :
    Translates cache mem pc (collect mem max_instr pc) (translate_block cache mem pc) := by
  obtain ⟨ir_block, hbuild, -⟩ := build_spec (collect mem max_instr pc) pc
  have hft : pc + BitVec.ofNat 64 ((collect mem max_instr pc).length * 4) =
      fallthrough (collect mem max_instr pc) pc := rfl
  have hfull := @Translates.full cache mem pc (collect mem max_instr pc)
  unfold translate_block
  simp only [hbuild, hft]
  by_cases hds : collect mem max_instr pc = []
  · rw [if_pos (by rw [hds]; rfl)]
    exact .empty hds
  · rw [if_neg (by simpa using hds)]
    cases halloc : cache.alloc_host_code slot_size with
    | mk host_code cache' =>
    rw [halloc] at hfull
    split_ifs with hnull
    · exact hfull hnull
    · generalize he : emit_block _ _ _ _ = e
      exact .done hds hbuild halloc hnull he.symm (TranslationCache.insert_samePool _ _ _ _ _) rfl rfl
        (MemoryManager.mark_translated_page_host _ _)

end Code

/-! ## A state at the entry -/

/-- The context object at 0, and a stack behind it. -/
def holding (ctx : CPUContext) : State := { State.cleared.setReg X86.rsp 0x10000#64 with mem := ctx_mem ctx }

theorem ctxAt_holding (ctx : CPUContext) : CtxAt (holding ctx).mem ((holding ctx).reg X86.rdi) ctx :=
  ctxAt_ctx_mem ctx

/-- 12 in `x1`, 7 in `x2` and 8 in `sp`. -/
def twelve_in_x1 : CPUContext := ((CPUContext.zero.set_x 1 12#64).set_x 2 7#64).set 31 8#64

end ExecEngine

end Bbarm64
