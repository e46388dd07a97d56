import Bbarm64.Engine.Extent
import Bbarm64.Engine.Native
import Bbarm64.Engine.PoolUse

/-!
# Engine.Installed — the blocks of the cache in their slots

`Installed` is the invariant of the loop that ties the block map, the code pool and guest memory
together: every block that `lookup` finds has a slot of its own in the used part of the pool, and in the
slot is the code of the block of the words that are now at its address.  A round keeps it unless it
writes to those words or into those slots (`Installed.round`).
-/

namespace Bbarm64

open X86 ARM64Decoder IRBuilder TranslationCache

namespace ExecEngine

/-! ## The context object and the pool -/

def InCtx (c a : Word) : Prop := (a - c).toNat < 8 * CPUContext.words

def InPool (pool a : Word) : Prop := (a - pool).toNat < DEFAULT_CODE_POOL_SIZE

section Addresses

variable {pool a : Word}

/-- A slot is in the pool. -/
theorem inPool_of_inSlot {o : ℕ} (ho : o + slot_size ≤ DEFAULT_CODE_POOL_SIZE)
    (ha : InSlot a (off pool o)) : InPool pool a := by
  have hsize : DEFAULT_CODE_POOL_SIZE ≤ 2 ^ 64 := by decide
  have hend := (inSlot_off (by omega) ha).2
  unfold InPool
  omega

theorem off_pool_ne_zero (h : Mapped pool) {o : ℕ} (ho : o + slot_size ≤ DEFAULT_CODE_POOL_SIZE) :
    off pool o ≠ 0#64 := by
  have hend := h.le
  have hslot : slot_size = 4096 := rfl
  have hstart : pool.toNat ≠ 0 := fun h0 => h.nonnull (BitVec.eq_of_toNat_eq h0)
  refine mt (congrArg BitVec.toNat) ?_
  rw [off, BitVec.toNat_add, BitVec.toNat_ofNat, BitVec.toNat_ofNat]
  omega

end Addresses

/-! ## Words and their instructions -/

/-- The instructions of the words. -/
def decoded (ws : List (BitVec 32)) : List DecodedInstr := ws.filterMap decode?

theorem decoded_raw {ds : List DecodedInstr} (h : ∀ d ∈ ds, ∃ w, decode? w = some d) :
    decoded (ds.map (·.raw)) = ds := by
  induction ds with
  | nil => rfl
  | cons d ds ih =>
    obtain ⟨w, hw⟩ := h d (by simp)
    have hd : decode? d.raw = some d := by rw [decode?_raw hw, hw]
    rw [decoded, List.map_cons, List.filterMap_cons, hd]
    exact congrArg (d :: ·) (ih fun e he => h e (by simp [he]))

theorem decoded_wellDecoded (ws : List (BitVec 32)) : ∀ d ∈ decoded ws, WellDecoded d := by
  intro d hd
  obtain ⟨w, -, hw⟩ := List.mem_filterMap.mp hd
  exact decode?_wellDecoded hw

/-- The decode loop collects the instructions of the words. -/
theorem collect_eq_decoded (mem : MemoryManager) (n : ℕ) (pc : Word) :
    collect mem n pc = decoded (words mem.host pc (collect mem n pc).length) := by
  rw [← collect_raw, decoded_raw collect_decoded]

/-! ## The invariant -/

/-- The code of a block of `n` words at `pc`, as the words are now. -/
def current_code (s : RunState) (pc : Word) (b : Translated) (host : Mem) : List Byte :=
  block_code (decoded (words s.mem.host pc b.arm_instr_count.toNat)) pc b.host_code host

/-- The block has a slot in the used part of the pool, which holds its code. -/
structure InPlace (pool : Word) (s : RunState) (pc : Word) (b : Translated) : Prop where
  slot : ∃ o, b.host_code = off pool o ∧ o + slot_size ≤ s.cache.code_pool_used_
  code : ∃ host, CodeAt s.mem.host b.host_code (current_code s pc b host) ∧
    b.host_code_size.toNat = (current_code s pc b host).length ∧
    (current_code s pc b host).length ≤ slot_size

/-- **The invariant**: the blocks that are found are in place, each in a slot of its own. -/
structure Installed (pool : Word) (s : RunState) : Prop where
  code_pool : Pool pool s.cache.code_pool_used_ s.cache
  in_place : ∀ pc b, s.cache.view pc = some b → InPlace pool s pc b
  apart : ∀ pc pc' b b', s.cache.view pc = some b → s.cache.view pc' = some b' → pc ≠ pc' →
    ∀ a, InSlot a b.host_code → ¬ InSlot a b'.host_code

/-! ## What a round may do to the slots -/

/-- The round may write to `a` in another way than by making a block. -/
inductive RunState.Touches (c : Word) (answer : HostAnswer) (cpu : Cpu) (s : RunState) (a : Word) :
    Prop where
  | ctx (h : (a - c).toNat < 8 * CPUContext.words)
  | block (hb : (s.cache.lookup s.ctx.pc).1.isSome ∨ s.Translates) (h : Stores cpu a)
  | interpreted {raw : BitVec 32} {d : DecodedInstr} (hw : s.AtCode raw)
    (hb : (translate_block s.cache s.mem s.ctx.pc).block = none) (hd : decode? raw = some d)
    (h : StoresTo (s.ctx, s.mem) d a)
  | svc (hs : s.AtSvc) (h : SvcWrites answer s.ctx s.mem a)

/-- The address lies in the slot of a block that is found, or of the block that this round makes. -/
inductive RunState.Holds (s : RunState) (a : Word) : Prop where
  | found {pc : Word} {b : Translated} (h : s.cache.view pc = some b) (ha : InSlot a b.host_code)
  | made {block : BlockInfo} (hw : ∃ raw, s.AtCode raw)
    (hb : (translate_block s.cache s.mem s.ctx.pc).block = some block)
    (ha : InSlot a block.host_code)

/-- The round leaves the slots alone, but for making a block. -/
def SparesCode (c : Word) (answer : HostAnswer) (cpu : Cpu) (s : RunState) : Prop :=
  ∀ a, s.Touches c answer cpu a → ¬ s.Holds a

/-- It leaves the words of the blocks alone as well. -/
structure SparesBlocks (c : Word) (answer : HostAnswer) (cpu : Cpu) (s : RunState) : Prop where
  words : Spares c answer cpu s
  code : SparesCode c answer cpu s

section Round

variable {c pool : Word} {answer : HostAnswer} {cpu : Cpu} {s s' : RunState}

/-- Where the translator is called, it decides what is in the bytes that are not touched. -/
theorem host_of_atCode (h : Iterates c answer cpu s s') {raw : BitVec 32} (hw : s.AtCode raw)
    {a : Word} (ha : ¬ s.Touches c answer cpu a) :
    s'.mem.host a = (translate_block s.cache s.mem s.ctx.pc).mem.host a := by
  have hctx : 8 * CPUContext.words ≤ (a - c).toNat := Nat.le_of_not_lt fun h => ha (.ctx h)
  cases h with
  | hit _ hl _ =>
    have hnone := hw.1
    rw [hl] at hnone
    cases hnone
  | svc _ hs _ =>
    obtain ⟨-, raw', hread, hsvc⟩ := hs
    obtain rfl := Option.some.inj (hread.symm.trans hw.2.1)
    exact absurd hsvc hw.2.2
  | translated _ _ hr hb hx =>
    subst hr
    have htr : s.Translates := ⟨⟨raw, hw⟩, Option.isSome_iff_exists.mpr ⟨_, hb⟩⟩
    exact executes_host hx hctx fun h => ha (.block (.inr htr) h)
  | interpreted _ hw' hr hb hd hg =>
    subst hr hg
    rw [execute_decoded_host]
    rw [translate_block_mem_of_none hb]
    exact fun h => ha (.interpreted hw' hb hd h)
  | unknown _ _ hr _ _ =>
    subst hr
    rfl

/-- What the round does to the cache: it calls the translator, or at most counts an access. -/
inductive Turns (s s' : RunState) : Prop where
  | translates {raw : BitVec 32} (hw : s.AtCode raw)
    (hcache : s'.cache = (translate_block s.cache s.mem s.ctx.pc).cache)
  | keeps (hno : ∀ raw, ¬ s.AtCode raw)
    (hview : ∀ pc b, s'.cache.view pc = some b → s.cache.view pc = some b)
    (hpool : SamePool s.cache s'.cache)

theorem iterates_turns (h : Iterates c answer cpu s s') : Turns s s' := by
  cases h with
  | hit _ hl _ =>
    have hcache : _ = _ := congrArg Prod.snd hl
    subst hcache
    refine .keeps (fun raw hw => ?_) (fun pc b hb => ?_) ?_
    · have hnone := hw.1
      rw [hl] at hnone
      cases hnone
    · exact (@view_of_apply s.cache (.lookup s.ctx.pc) pc b hb).resolve_right List.not_mem_nil
    · exact @onBlocks_samePool s.cache (.lookup s.ctx.pc) trivial
  | svc _ hs _ =>
    refine .keeps (fun raw hw => ?_) (fun _ _ hb => hb) ⟨rfl, rfl, rfl⟩
    obtain ⟨-, raw', hread, hsvc⟩ := hs
    obtain rfl := Option.some.inj (hread.symm.trans hw.2.1)
    exact hw.2.2 hsvc
  | translated _ hw hr _ _ =>
    subst hr
    exact .translates hw rfl
  | interpreted _ hw hr _ _ _ =>
    subst hr
    exact .translates hw rfl
  | unknown _ hw hr _ _ =>
    subst hr
    exact .translates hw rfl

/-- A block in the view behind `translate_block` was there before, or it is the one it returns. -/
theorem translate_block_view_block {t : TranslationCache} {mem : MemoryManager} {pc pc' : Word}
    {b : Translated} (h : (translate_block t mem pc).cache.view pc' = some b) :
    t.view pc' = some b ∨ ∃ block, (translate_block t mem pc).block = some block ∧ pc' = pc ∧
      b = block.translated := by
  have hc := translate_block_caches t mem pc
  have halloc : ∀ b, (t.apply (.alloc_host_code slot_size)).view pc' = some b →
      t.view pc' = some b := fun b hb => (view_of_apply _ hb).resolve_right List.not_mem_nil
  generalize (translate_block t mem pc).block = ob at hc ⊢
  generalize (translate_block t mem pc).cache = t' at hc h
  cases hc with
  | empty => exact .inl h
  | full => exact .inl (halloc b h)
  | @done block _ _ _ =>
    rcases view_of_apply _ h with h | h
    · exact .inl (halloc b h)
    · obtain ⟨rfl, rfl⟩ := Event.insert.inj (List.mem_singleton.mp h)
      exact .inr ⟨block, rfl, rfl, rfl⟩

/-- A found block stays in place when its words and its slot are left alone. -/
theorem InPlace.of_frame {pc : Word} {b : Translated} (h : InPlace pool s pc b)
    (hused : s.cache.code_pool_used_ ≤ s'.cache.code_pool_used_)
    (hwords : ∀ a, InWords a pc b.arm_instr_count.toNat → s'.mem.host a = s.mem.host a)
    (hslot : ∀ a, InSlot a b.host_code → s'.mem.host a = s.mem.host a) : InPlace pool s' pc b := by
  obtain ⟨⟨o, ho, hle⟩, host, hcode, hsize, hlen⟩ := h
  have hcur : current_code s' pc b host = current_code s pc b host := by
    rw [current_code, current_code, words_congr b.arm_instr_count.isLt hwords]
  refine ⟨⟨o, ho, Nat.le_trans hle hused⟩, host, ?_, by rw [hcur, hsize], by rw [hcur]; exact hlen⟩
  rw [hcur]
  refine hcode.congr fun i hi => hslot _ ?_
  have hslot_size : slot_size < 2 ^ 64 := by decide
  rw [InSlot, off_sub_self (by omega)]
  omega

/-- The new block is in place. -/
theorem inPlace_of_translation {block : BlockInfo} (hp : Pool pool s.cache.code_pool_used_ s.cache)
    (hb : (translate_block s.cache s.mem s.ctx.pc).block = some block)
    (hcache : s'.cache = (translate_block s.cache s.mem s.ctx.pc).cache)
    (hwords : ∀ a, InWords a s.ctx.pc (collect s.mem max_instr s.ctx.pc).length →
      s'.mem.host a = s.mem.host a)
    (hslot : ∀ a, InSlot a block.host_code →
      s'.mem.host a = (translate_block s.cache s.mem s.ctx.pc).mem.host a) :
    InPlace pool s' s.ctx.pc block.translated := by
  obtain ⟨hcode, hsize, hlen⟩ := translate_block_codeAt hb
  have hcount := count_eq_length hb
  have hle : (collect s.mem max_instr s.ctx.pc).length ≤ max_instr := collect_length_le
  have hmax : max_instr < 2 ^ 32 := by decide
  have hcur : current_code s' s.ctx.pc block.translated s.mem.host =
      block_code (collect s.mem max_instr s.ctx.pc) s.ctx.pc block.host_code s.mem.host := by
    show block_code (decoded (words s'.mem.host s.ctx.pc block.arm_instr_count.toNat)) _ _ _ = _
    rw [hcount, words_congr (by omega) hwords, ← collect_eq_decoded]
    rfl
  refine ⟨?_, s.mem.host, ?_, by rw [hcur]; exact hsize, by rw [hcur]; exact hlen⟩
  · cases translate_block_takes hp s.mem s.ctx.pc with
    | refused hnone _ => cases hnone.symm.trans hb
    | slot hb' _ hcode' _ hp' =>
      obtain rfl := Option.some.inj (hb.symm.trans hb')
      exact ⟨_, hcode', by rw [hcache]; exact hp'.used⟩
  · rw [hcur]
    refine hcode.congr fun i hi => hslot _ ?_
    have hslot_size : slot_size < 2 ^ 64 := by decide
    rw [InSlot, off_sub_self (by omega)]
    omega

/-- A block is made in a slot behind those of the blocks that are there. -/
theorem Installed.slot_apart (h : Installed pool s) {block : BlockInfo}
    (hb : (translate_block s.cache s.mem s.ctx.pc).block = some block) {pc : Word} {b : Translated}
    (hv : s.cache.view pc = some b) {a : Word} (ha : InSlot a b.host_code) :
    ¬ InSlot a block.host_code := by
  intro ha'
  obtain ⟨o, ho, hle⟩ := (h.in_place pc b hv).slot
  have hpool_le := h.code_pool.le
  have hsize : DEFAULT_CODE_POOL_SIZE < 2 ^ 63 := by decide
  cases translate_block_takes h.code_pool s.mem s.ctx.pc with
  | refused hno _ => cases hno.symm.trans hb
  | @slot block' o' hb' ho' hcode' hin _ =>
    obtain rfl := Option.some.inj (hb.symm.trans hb')
    rw [ho] at ha
    rw [hcode'] at ha'
    have h₁ := inSlot_off (by omega) ha
    have h₂ := inSlot_off (by omega) ha'
    omega

/-- A round without the translator. -/
theorem Installed.keep (h : Installed pool s) (hi : Iterates c answer cpu s s')
    (hspares : SparesBlocks c answer cpu s) (hno : ∀ raw, ¬ s.AtCode raw)
    (hview : ∀ pc b, s'.cache.view pc = some b → s.cache.view pc = some b)
    (hpool : SamePool s.cache s'.cache) : Installed pool s' := by
  have hframe : ∀ a, s.Covers a → s'.mem.host a = s.mem.host a := frame_of_spares hi hspares.words
  have hslot : ∀ a, s.Holds a → s'.mem.host a = s.mem.host a := by
    intro a ha
    refine iterates_host hi fun hw => hspares.code a ?_ ha
    cases hw with
    | ctx h => exact .ctx h
    | block hb h => exact .block hb h
    | slot hw _ _ => exact absurd hw.choose_spec (hno _)
    | interpreted hw _ _ _ => exact absurd hw (hno _)
    | svc hs h => exact .svc hs h
  have hp := h.code_pool
  refine ⟨⟨hpool.pool.trans hp.pool, hpool.size.trans hp.size, Nat.le_refl _, ?_⟩, ?_, ?_⟩
  · rw [hpool.used]
    exact hp.le
  · intro pc b hb
    have hb' := hview pc b hb
    exact (h.in_place pc b hb').of_frame (Nat.le_of_eq hpool.used.symm)
      (fun a ha => hframe a (covers_of_view hb' ha)) fun a ha => hslot a (.found hb' ha)
  · intro pc pc' b b' hb hb'
    exact h.apart pc pc' b b' (hview _ _ hb) (hview _ _ hb')

/-- A round that calls the translator. -/
theorem Installed.translate (h : Installed pool s) (hi : Iterates c answer cpu s s')
    (hspares : SparesBlocks c answer cpu s) {raw : BitVec 32} (hw : s.AtCode raw)
    (hcache : s'.cache = (translate_block s.cache s.mem s.ctx.pc).cache) : Installed pool s' := by
  have hframe : ∀ a, s.Covers a → s'.mem.host a = s.mem.host a := frame_of_spares hi hspares.words
  have hmem : ∀ a, s.Holds a →
      s'.mem.host a = (translate_block s.cache s.mem s.ctx.pc).mem.host a :=
    fun a ha => host_of_atCode hi hw fun ht => hspares.code a ht ha
  have hused : Pool pool s.cache.code_pool_used_ s'.cache := by
    rw [hcache]
    cases translate_block_takes h.code_pool s.mem s.ctx.pc with
    | refused _ hp => exact hp
    | slot _ ho _ _ hp =>
      exact ⟨hp.pool, hp.size, Nat.le_trans ho (Nat.le_trans (Nat.le_add_right _ _) hp.used), hp.le⟩
  have hold : ∀ pc b, s.cache.view pc = some b → InPlace pool s' pc b := by
    intro pc b hb
    refine (h.in_place pc b hb).of_frame hused.used
      (fun a ha => hframe a (covers_of_view hb ha)) fun a ha => ?_
    rw [hmem a (.found hb ha)]
    by_contra hne
    obtain ⟨block, hblock, hin⟩ := (translate_block_stores s.cache s.mem s.ctx.pc).2 a hne
    exact h.slot_apart hblock hb ha hin
  refine ⟨⟨hused.pool, hused.size, Nat.le_refl _, hused.le⟩, ?_, ?_⟩
  · intro pc b hb
    rw [hcache] at hb
    rcases translate_block_view_block hb with hb | ⟨block, hblock, rfl, rfl⟩
    · exact hold pc b hb
    · have htr : s.Translates := ⟨⟨raw, hw⟩, Option.isSome_iff_exists.mpr ⟨_, hblock⟩⟩
      exact inPlace_of_translation h.code_pool hblock hcache (fun a ha => hframe a (.made htr ha))
        fun a ha => hmem a (.made ⟨raw, hw⟩ hblock ha)
  · intro pc pc' b b' hb hb' hne a ha ha'
    rw [hcache] at hb hb'
    rcases translate_block_view_block hb with hb | ⟨block, hblock, rfl, rfl⟩
    · rcases translate_block_view_block hb' with hb' | ⟨block, hblock, rfl, rfl⟩
      · exact h.apart pc pc' b b' hb hb' hne a ha ha'
      · exact h.slot_apart hblock hb ha ha'
    · rcases translate_block_view_block hb' with hb' | ⟨block', hblock', rfl, rfl⟩
      · exact h.slot_apart hblock hb' ha' ha
      · exact hne rfl

/-- **One round** keeps the invariant when it spares the words and the slots of the blocks. -/
theorem Installed.round (h : Installed pool s) (hi : Iterates c answer cpu s s')
    (hspares : SparesBlocks c answer cpu s) : Installed pool s' := by
  cases iterates_turns hi with
  | keeps hno hview hpool => exact h.keep hi hspares hno hview hpool
  | translates hw hcache => exact h.translate hi hspares hw hcache

theorem installed_init {capacity : ℕ} (ctx : CPUContext) (mem : MemoryManager) (iter : ℕ) :
    Installed pool ⟨ctx, mem, .init capacity pool, iter⟩ :=
  ⟨⟨rfl, rfl, Nat.le_refl _, Nat.zero_le _⟩, nofun, nofun⟩

end Round

/-! ## Execution of found blocks -/

section Found

variable {c pool : Word} {s : RunState}

/-- The instructions at the address of a block that is found. -/
def current (s : RunState) (pc : Word) (block : BlockInfo) : List DecodedInstr :=
  decoded (words s.mem.host pc block.arm_instr_count.toNat)

/-- A found block whose code fits and does not store into its slot runs undisturbed. -/
theorem Installed.undisturbed (h : Installed pool s) (hmapped : Mapped pool)
    (hctx : ∀ a, InCtx c a → ¬ InPool pool a) {pc : Word} {block : BlockInfo} {cpu : Cpu}
    (hb : (s.cache.lookup pc).1 = some block) (hfits : Fits (current s pc block) pc)
    (he : Enters c block.host_code (s.ctx, s.mem) cpu)
    (hst : ∀ i t, Performs (encodeAll (blockInstrs (current s pc block) pc)) cpu.st i t →
      ∀ a, InSlot a block.host_code → ¬ i.StoresAt t a) :
    Undisturbed (current s pc block) pc block.host_code cpu.st := by
  have hview : s.cache.view pc = some block.translated := by
    rw [← lookup_translated, hb]
    rfl
  obtain ⟨⟨o, ho, hle⟩, host, hcode, -, hlen⟩ := h.in_place pc _ hview
  have hin : o + slot_size ≤ DEFAULT_CODE_POOL_SIZE := Nat.le_trans hle h.code_pool.le
  have ho : block.host_code = off pool o := ho
  have hslot : slot_size < 2 ^ 64 := by decide
  refine ⟨decoded_wellDecoded _, hfits, ho ▸ off_pool_ne_zero hmapped hin, ⟨host, ?_⟩, hst⟩
  refine hcode.congr fun i hi => he.host _ (Nat.le_of_not_lt fun hc => hctx _ hc ?_)
  refine inPool_of_inSlot hin ?_
  have hself : (off block.host_code i - block.host_code).toNat = i := off_sub_self (by omega)
  rw [← ho, InSlot]
  show (off block.host_code i - block.host_code).toNat < slot_size
  rw [hself]
  exact Nat.lt_of_lt_of_le hi hlen

end Found

end ExecEngine

end Bbarm64
