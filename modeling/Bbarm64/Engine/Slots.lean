import Bbarm64.Engine.BlockCode

/-!
# Engine.Slots — isolation of the code slots

Over any sequence of `translate_block` calls on one cache, the slots lie in the pool one behind the
other, and a call stores nowhere but in its own slot, whether the code fits or is cut off.
-/

namespace Bbarm64

open X86 ARM64Decoder IRBuilder IROptimizer IRLowering

namespace ExecEngine

/-! ## Runs of calls -/

/-- A call of `translate_block` with the memory it found and its outcome. -/
structure Call where
  mem : MemoryManager
  pc : Word
  result : Translation

/-- The calls for a list of requests, each on the cache the one before left, over any memory. -/
def calls : TranslationCache → List (MemoryManager × Word) → List Call
  | _, [] => []
  | cache, (mem, pc) :: rest =>
    let r := translate_block cache mem pc
    ⟨mem, pc, r⟩ :: calls r.cache rest

/-- The address lies in the slot at `host_code`. -/
def InSlot (a host_code : Word) : Prop := (a - host_code).toNat < slot_size

/-- The call has a slot inside the pool if it is accepted, and stores into that slot only. -/
structure Contained (pool : Word) (c : Call) : Prop where
  slot : ∀ block, c.result.block = some block → ∃ o, block.host_code = off pool o ∧
    o + slot_size ≤ TranslationCache.DEFAULT_CODE_POOL_SIZE
  written : ∀ e, c.result.emitter = some e → ∃ block, c.result.block = some block ∧
    ∀ a ∈ e.written, InSlot a block.host_code
  frame : ∀ a, c.result.mem.host a ≠ c.mem.host a → ∃ block, c.result.block = some block ∧
    InSlot a block.host_code

/-- The slots of two calls have no address in common. -/
def Apart (c c' : Call) : Prop :=
  ∀ block block', c.result.block = some block → c'.result.block = some block' →
    ∀ a, InSlot a block.host_code → ¬ InSlot a block'.host_code

/-! ## One call -/

/-- The pool of `t` is the one at `pool`, used up to `used` at most. -/
structure Pool (pool : Word) (used : ℕ) (t : TranslationCache) : Prop where
  pool : t.code_pool_ = pool
  size : t.code_pool_size_ = TranslationCache.DEFAULT_CODE_POOL_SIZE
  used : used ≤ t.code_pool_used_
  le : t.code_pool_used_ ≤ TranslationCache.DEFAULT_CODE_POOL_SIZE

/-- What a call does to the pool: nothing is accepted, or the next slot is. -/
inductive Takes (pool : Word) (used : ℕ) (c : Call) : Prop where
  | refused (hb : c.result.block = none) (hp : Pool pool used c.result.cache)
  | slot {block : BlockInfo} {o : ℕ} (hb : c.result.block = some block) (ho : used ≤ o)
    (hcode : block.host_code = off pool o)
    (hin : o + slot_size ≤ TranslationCache.DEFAULT_CODE_POOL_SIZE)
    (hp : Pool pool (o + slot_size) c.result.cache)

section Step

variable {pool : Word} {used : ℕ} {t : TranslationCache}

theorem translate_block_takes (h : Pool pool used t) (mem : MemoryManager) (pc : Word) :
    Takes pool used ⟨mem, pc, translate_block t mem pc⟩ := by
  have ht := translate_block_translates t mem pc
  have hpool : TranslationCache.DEFAULT_CODE_POOL_SIZE + slot_size < 2 ^ 64 := by decide
  have hfits : t.code_pool_used_ + slot_size < 2 ^ 64 := by
    have := h.le
    omega
  have hspec := t.alloc_host_code_spec hfits
  generalize translate_block t mem pc = r at ht ⊢
  cases ht with
  | empty => exact .refused rfl h
  | full hnull =>
    generalize t.alloc_host_code slot_size = al at hspec ⊢
    refine .refused rfl ?_
    rcases hspec with ⟨hle, -, he⟩ | ⟨-, -, hsame⟩
    · show Pool pool used al.2
      rw [he]
      exact ⟨h.pool, h.size, Nat.le_trans h.used (Nat.le_add_right _ _), h.size ▸ hle⟩
    · exact ⟨hsame.pool.trans h.pool, hsame.size.trans h.size, hsame.used ▸ h.used,
        hsame.used ▸ h.le⟩
  | done hds hbuild halloc hnull he hcache hblock hcode_size hmem =>
    rw [halloc] at hspec
    rcases hspec with ⟨hle, hcode, hc'⟩ | ⟨-, hcode, -⟩
    · have hp := h.pool
      have hs := h.size
      subst hc'
      refine .slot rfl h.used (by rw [hblock, ← hp]; exact hcode) (by rwa [hs] at hle) ?_
      exact ⟨hcache.pool.trans hp, hcache.size.trans hs, Nat.le_of_eq hcache.used.symm,
        hcache.used ▸ hs ▸ hle⟩
    · exact absurd hcode hnull

/-- The stores of a call go to its slot. -/
theorem translate_block_stores (t : TranslationCache) (mem : MemoryManager) (pc : Word) :
    let r := translate_block t mem pc
    (∀ e, r.emitter = some e → ∃ block, r.block = some block ∧
      ∀ a ∈ e.written, InSlot a block.host_code) ∧
    ∀ a, r.mem.host a ≠ mem.host a → ∃ block, r.block = some block ∧ InSlot a block.host_code := by
  have ht := translate_block_translates t mem pc
  have hds : ∀ d ∈ collect mem max_instr pc, WellDecoded d := collect_wellDecoded
  generalize translate_block t mem pc = r at ht ⊢
  cases ht with
  | empty | full => exact ⟨nofun, fun a h => absurd rfl h⟩
  | @done ir_block host_code _ _ block _ e _ hbuild _ _ he _ hblock _ hmem =>
    obtain ⟨b, hb, happ⟩ := lower_appends hds (.set_buffer host_code slot_size mem.host)
    obtain rfl := Option.some.inj (hbuild.symm.trans hb)
    rw [← emit_block, ← he] at happ
    refine ⟨fun e' he' => ⟨block, rfl, fun a ha => ?_⟩, fun a ha => ⟨block, rfl, ?_⟩⟩
    · obtain rfl := Option.some.inj he'
      rw [InSlot, hblock]
      exact (happ.ext.written a ha).resolve_left List.not_mem_nil
    · rw [InSlot, hblock]
      refine Nat.lt_of_not_le fun hle => ha ?_
      show _ = _
      rw [hmem]
      exact happ.ext.host a hle

end Step

/-! ## Runs -/

theorem inSlot_off {pool a : Word} {o : ℕ} (ho : o + slot_size ≤ 2 ^ 64)
    (h : InSlot a (off pool o)) : o ≤ (a - pool).toNat ∧ (a - pool).toNat < o + slot_size := by
  unfold InSlot slot_size at *
  simp only [off, BitVec.toNat_sub, BitVec.toNat_add, BitVec.toNat_ofNat] at h ⊢
  have := pool.isLt
  have := a.isLt
  omega

/-- Slots behind `used`, for a whole run, by induction over the requests. -/
theorem calls_isolated {pool : Word} (requests : List (MemoryManager × Word)) {used : ℕ}
    {t : TranslationCache} (h : Pool pool used t) :
    (∀ c ∈ calls t requests, Contained pool c ∧ ∀ block, c.result.block = some block →
      ∃ o, used ≤ o ∧ block.host_code = off pool o ∧
        o + slot_size ≤ TranslationCache.DEFAULT_CODE_POOL_SIZE) ∧
      (calls t requests).Pairwise Apart := by
  induction requests generalizing t used with
  | nil => exact ⟨nofun, .nil⟩
  | cons req rest ih =>
    obtain ⟨mem, pc⟩ := req
    obtain ⟨hw, hf⟩ := translate_block_stores t mem pc
    have hsize : TranslationCache.DEFAULT_CODE_POOL_SIZE < 2 ^ 64 := by decide
    rw [calls, List.forall_mem_cons, List.pairwise_cons]
    cases translate_block_takes h mem pc with
    | refused hb hp =>
      obtain ⟨h₁, h₂⟩ := ih hp
      have hno : ∀ block, (translate_block t mem pc).block ≠ some block := by
        intro block hbl
        cases hb.symm.trans hbl
      refine ⟨⟨⟨⟨fun block hbl => absurd hbl (hno block), hw, hf⟩,
        fun block hbl => absurd hbl (hno block)⟩, h₁⟩, fun c _ block _ hbl => ?_, h₂⟩
      exact absurd hbl (hno block)
    | @slot block o hb ho hcode hin hp =>
      obtain ⟨h₁, h₂⟩ := ih hp
      have hown : ∀ block', (translate_block t mem pc).block = some block' →
          ∃ o, used ≤ o ∧ block'.host_code = off pool o ∧
            o + slot_size ≤ TranslationCache.DEFAULT_CODE_POOL_SIZE := by
        intro block' hbl
        obtain rfl := Option.some.inj (hb.symm.trans hbl)
        exact ⟨o, ho, hcode, hin⟩
      refine ⟨⟨⟨⟨fun block' hbl => ?_, hw, hf⟩, hown⟩, fun c hc => ?_⟩, fun c hc => ?_, h₂⟩
      · obtain ⟨o', -, h'⟩ := hown block' hbl
        exact ⟨o', h'⟩
      · refine ⟨(h₁ c hc).1, fun block' hbl => ?_⟩
        obtain ⟨o', ho', h'⟩ := (h₁ c hc).2 block' hbl
        exact ⟨o', by omega, h'⟩
      · -- later slots start behind this one
        intro block₁ block₂ hbl₁ hbl₂ a ha₁ ha₂
        obtain rfl := Option.some.inj (hb.symm.trans hbl₁)
        obtain ⟨o', ho', hcode', hin'⟩ := (h₁ c hc).2 block₂ hbl₂
        rw [hcode] at ha₁
        rw [hcode'] at ha₂
        have := inSlot_off (by omega) ha₁
        have := inSlot_off (by omega) ha₂
        omega

/-- **Slot isolation**: over any sequence of translations on a fresh cache, every accepted one has a
slot inside the pool, stores into that slot only, and shares no address with the slot of another. -/
theorem translations_isolated (capacity : ℕ) (pool : Word)
    (requests : List (MemoryManager × Word)) :
    (∀ c ∈ calls (.init capacity pool) requests, Contained pool c) ∧
      (calls (.init capacity pool) requests).Pairwise Apart := by
  have h : Pool pool 0 (.init capacity pool) := ⟨rfl, rfl, Nat.le_refl 0, Nat.zero_le _⟩
  obtain ⟨h₁, h₂⟩ := calls_isolated requests h
  exact ⟨fun c hc => (h₁ c hc).1, h₂⟩

end ExecEngine

end Bbarm64
