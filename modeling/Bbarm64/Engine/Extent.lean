import Bbarm64.Engine.Coherence

/-!
# Engine.Extent — where a block ends

The decode loop of `translate_block` and the loop of `build` each decide where a block ends, one on
raw words and branch categories, the other on categories that include SYSCALL.  No decoded word has
that category, so they agree, and the block ends where its fall-through begins.
-/

namespace Bbarm64

open X86 ARM64Decoder IRBuilder IROptimizer IRLowering

namespace ExecEngine

/-- The word at `pc` decodes to `d`, and it is no SVC. -/
def Fetches (mem : MemoryManager) (pc : Word) (d : DecodedInstr) : Prop :=
  ∃ raw, mem.read_u32 pc = some raw ∧ ¬ is_svc raw ∧ decode raw = (true, d)

theorem decode_of_decode? {w : BitVec 32} {d : DecodedInstr} (h : decode? w = some d) :
    decode w = (true, d) := by
  unfold decode? at h
  split_ifs at h with ht
  exact Prod.ext ht (Option.some.inj h)

section Collect

variable {mem : MemoryManager}

/-- The `i`-th instruction is the `i`-th word. -/
theorem collect_fetches {n : ℕ} {pc : Word} {i : ℕ} {d : DecodedInstr}
    (h : (collect mem n pc)[i]? = some d) : Fetches mem (off pc (4 * i)) d := by
  induction n generalizing pc i with
  | zero => cases h
  | succ n ih =>
    have hc := collect_collects mem n pc
    have h0 : off pc (4 * 0) = pc := BitVec.add_zero pc
    generalize collect mem (n + 1) pc = ds at hc h
    cases hc with
    | stop => cases h
    | @last raw _ hraw hsvc hd hcat =>
      cases i with
      | zero =>
        obtain rfl := Option.some.inj h
        exact ⟨raw, by rw [h0, hraw], hsvc, decode_of_decode? hd⟩
      | succ i => cases h
    | @more raw _ hraw hsvc hd hcat =>
      cases i with
      | zero =>
        obtain rfl := Option.some.inj h
        exact ⟨raw, by rw [h0, hraw], hsvc, decode_of_decode? hd⟩
      | succ i =>
        rw [off_succ]
        exact ih h

/-- A branch is the last instruction. -/
theorem collect_inner {n : ℕ} {pc : Word} {i : ℕ} {d : DecodedInstr}
    (h : (collect mem n pc)[i]? = some d) (hi : i + 1 < (collect mem n pc).length) :
    d.category ≠ .BRANCH ∧ d.category ≠ .BRANCH_COND := by
  induction n generalizing pc i with
  | zero => cases h
  | succ n ih =>
    have hc := collect_collects mem n pc
    generalize collect mem (n + 1) pc = ds at hc h hi
    cases hc with
    | stop => cases h
    | last => exact absurd hi (by simp)
    | more _ _ _ hcat =>
      cases i with
      | zero =>
        obtain rfl := Option.some.inj h
        exact not_or.mp hcat
      | succ i => exact ih h (by simpa using hi)

end Collect

/-- `build` ends the block behind the instructions it was given. -/
theorem build_arm_pc_end {ds : List DecodedInstr} (hds : ∀ d ∈ ds, WellDecoded d)
    (he : EndsLast ds) (hn : ds.length ≤ max_instr) {pc : Word} {block : IRBlock}
    (h : IRBuilder.build ds pc = some block) : block.arm_pc_end = fallthrough ds pc := by
  have hcount := build_count hds he h
  obtain ⟨b, -, hb⟩ := Option.bind_eq_some_iff.mp h
  obtain rfl := Option.some.inj hb
  have hcount : b.arm_instr_count = BitVec.ofNat 32 ds.length := hcount
  unfold max_instr at hn
  show pc + (b.arm_instr_count * 4#32).setWidth 64 = pc + _
  rw [hcount]
  congr 1
  refine BitVec.eq_of_toNat_eq ?_
  simp only [BitVec.toNat_setWidth, BitVec.toNat_mul, BitVec.toNat_ofNat]
  omega

section Block

variable {cache : TranslationCache} {mem : MemoryManager} {pc : Word} {block : BlockInfo}

/-- What `translate_block` has at the end of its work. -/
theorem translate_block_done (h : (translate_block cache mem pc).block = some block) :
    collect mem max_instr pc ≠ [] ∧ ∃ ir_block,
      IRBuilder.build (collect mem max_instr pc) pc = some ir_block ∧
      (translate_block cache mem pc).emitter = some (emit_block (optimize ir_block)
        (fallthrough (collect mem max_instr pc) pc) block.host_code mem.host) := by
  have ht := translate_block_translates cache mem pc
  generalize translate_block cache mem pc = r at ht h ⊢
  cases ht with
  | empty | full => cases h
  | @done ir_block host_code _ _ _ _ e hds hbuild _ _ he _ hblock =>
    obtain rfl := Option.some.inj h
    refine ⟨hds, ir_block, hbuild, ?_⟩
    rw [he, hblock]

theorem count_eq_length (h : (translate_block cache mem pc).block = some block) :
    block.arm_instr_count.toNat = (collect mem max_instr pc).length := by
  have hc := translate_block_caches cache mem pc
  rw [h] at hc
  generalize (translate_block cache mem pc).cache = t' at hc
  cases hc with
  | done _ _ hcount => exact hcount

/-- **The extent of a block**: it holds between 1 and 64 instructions, all those collected, each the
decoding of its own word and only the last one a branch; and the fall-through address that the
lowering gets is the end of the IR block, behind the last word. -/
theorem translate_block_extent (h : (translate_block cache mem pc).block = some block) :
    let n := block.arm_instr_count.toNat
    1 ≤ n ∧ n ≤ 64 ∧ (collect mem max_instr pc).length = n ∧
    (∀ i < n, ∃ d, Fetches mem (off pc (4 * i)) d ∧
      (i + 1 < n → d.category ≠ .BRANCH ∧ d.category ≠ .BRANCH_COND)) ∧
    ∃ ir_block fallthrough_pc, IRBuilder.build (collect mem max_instr pc) pc = some ir_block ∧
      (translate_block cache mem pc).emitter = some (lower_block (optimize ir_block) fallthrough_pc
        (.set_buffer block.host_code slot_size mem.host)) ∧
      fallthrough_pc = (optimize ir_block).arm_pc_end ∧
      fallthrough_pc = pc + BitVec.ofNat 64 (4 * n) := by
  have hlen := count_eq_length h
  have hle : (collect mem max_instr pc).length ≤ max_instr := collect_length_le
  obtain ⟨hne, ir_block, hbuild, hemit⟩ := translate_block_done h
  refine ⟨?_, ?_, hlen.symm, fun i hi => ?_, ir_block, _, hbuild, hemit, ?_, ?_⟩
  · rw [hlen]
    exact List.length_pos_iff.mpr hne
  · rw [hlen]
    exact hle
  · rw [hlen] at hi ⊢
    have hget := List.getElem?_eq_getElem hi
    exact ⟨_, collect_fetches hget, collect_inner hget⟩
  · exact (build_arm_pc_end collect_wellDecoded collect_endsLast hle hbuild).symm
  · rw [hlen, fallthrough, Nat.mul_comm]

/-- 64 `nop`s. -/
theorem translate_block_extent_nops :
    ∃ block, (translate_block (.init 16 0x10000#64) nops 0x1000#64).block = some block ∧
      1 ≤ block.arm_instr_count.toNat ∧ block.arm_instr_count.toNat ≤ 64 := by
  have hnull : ((TranslationCache.init 16 0x10000#64).alloc_host_code slot_size).1 ≠ 0#64 := by decide
  obtain ⟨block, h⟩ := exists_block collect_nops hnull
  exact ⟨block, h, (translate_block_extent h).1, (translate_block_extent h).2.1⟩

end Block

end ExecEngine

end Bbarm64
