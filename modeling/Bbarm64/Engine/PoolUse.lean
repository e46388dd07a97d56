import Bbarm64.Engine.Coherence
import Bbarm64.Lib.Trace
import Mathlib.Data.FinEnum
import Mathlib.Data.Set.Card

/-!
# Engine.PoolUse — two accounts of the code pool

The block map says which blocks are there; `code_pool_used_` counts the slots that were ever handed out.
Nothing lowers the second when the first gets smaller, so after 16384 translations the pool is used up,
however few of their blocks `lookup` still finds (`reclaims_iff`, `not_reclaims`).
-/

namespace Bbarm64

open X86 TranslationCache

namespace ExecEngine

/-- The blocks that `lookup` finds. -/
def found (t : TranslationCache) : Set Word := {pc | (t.lookup pc).1.isSome}

noncomputable def live (t : TranslationCache) : ℕ := (found t).ncard

/-- If the slots of the blocks that are found leave room for one more, the next request succeeds. -/
def Reclaims (t : TranslationCache) : Prop :=
  slot_size * live t ≤ t.code_pool_size_ - slot_size → (t.alloc_host_code slot_size).1 ≠ 0#64

/-- What `mmap` returns: a pool that does not start at null and does not wrap. -/
structure Mapped (pool : Word) : Prop where
  nonnull : pool ≠ 0#64
  le : pool.toNat + DEFAULT_CODE_POOL_SIZE ≤ 2 ^ 64

/-- The slots of the pool. -/
def pool_slots : ℕ := DEFAULT_CODE_POOL_SIZE / slot_size

/-! ## Runs -/

/-- A use of the cache: a translation, over any memory, or an operation on the blocks. -/
inductive Use where
  | translate_block (mem : MemoryManager) (arm_pc : Word)
  | on_blocks (op : Op)

/-- The operation neither inserts a block nor takes code space. -/
def OnBlocks : Op → Prop
  | .lookup _ | .invalidate _ | .invalidate_range _ _ | .promote_hot _ | .evict_cold => True
  | .insert _ _ _ _ | .alloc_host_code _ => False

/-- One use, behind which the map may be iterated in any order. -/
inductive Uses (t : TranslationCache) : Use → TranslationCache → Prop where
  | translate_block {mem : MemoryManager} {arm_pc : Word} {m : List (Word × BlockInfo)}
    (hm : (ExecEngine.translate_block t mem arm_pc).cache.block_map_.Perm m) :
    Uses t (.translate_block mem arm_pc)
      { (ExecEngine.translate_block t mem arm_pc).cache with block_map_ := m }
  | on_blocks {op : Op} {m : List (Word × BlockInfo)} (hop : OnBlocks op)
    (hm : (t.apply op).block_map_.Perm m) :
    Uses t (.on_blocks op) { t.apply op with block_map_ := m }

/-- The runs of a cache that `init` made. -/
def UseRuns (capacity : ℕ) (pool : Word) : List (TranslationCache × Use) → TranslationCache → Prop :=
  Trace (· = .init capacity pool) Uses

/-- A translation at an address where there is code to translate. -/
def Use.translates : Use → Bool
  | .translate_block mem arm_pc => !(collect mem max_instr arm_pc).isEmpty
  | .on_blocks _ => false

def translations (es : List (TranslationCache × Use)) : ℕ := es.countP (·.2.translates)

/-- **The two accounts**: the pool is used up to the slots of the translations so far, as long as there
are any, and no more blocks are found than slots were handed out. -/
structure Accounts (pool : Word) (n : ℕ) (t : TranslationCache) : Prop where
  nodup : t.keys.Nodup
  pool : t.code_pool_ = pool
  size : t.code_pool_size_ = DEFAULT_CODE_POOL_SIZE
  used : t.code_pool_used_ = slot_size * min n pool_slots
  live : live t ≤ min n pool_slots

/-! ## One use -/

section Step

variable {t t' : TranslationCache} {pool : Word} {n : ℕ}

theorem mem_found {pc : Word} : pc ∈ found t ↔ (t.view pc).isSome := by
  rw [← lookup_translated, Option.isSome_map]
  rfl

theorem found_init (capacity : ℕ) (pool : Word) : found (.init capacity pool) = ∅ :=
  Set.eq_empty_of_forall_notMem fun _ h => Bool.false_ne_true h

theorem found_reorder (hn : t.keys.Nodup) {m : List (Word × BlockInfo)} (hm : t.block_map_.Perm m) :
    found { t with block_map_ := m } = found t := by
  ext pc
  show (lookup _ pc).1.isSome ↔ (t.lookup pc).1.isSome
  rw [lookup_isSome_iff, lookup_isSome_iff, entry_perm pc hm hn]

/-- What is found behind an operation was found before, or it is inserted. -/
theorem found_apply {op : Op} {pc : Word} (h : pc ∈ found (t.apply op)) :
    pc ∈ found t ∨ ∃ e ∈ op.events, e.Inserts pc := by
  obtain ⟨b, hb⟩ := Option.isSome_iff_exists.mp (mem_found.mp h)
  rcases view_of_apply t hb with hb | hb
  · exact .inl (mem_found.mpr (by rw [hb]; rfl))
  · exact .inr ⟨_, hb, b, rfl⟩

theorem Accounts.reorder (h : Accounts pool n t) {m : List (Word × BlockInfo)}
    (hm : t.block_map_.Perm m) : Accounts pool n { t with block_map_ := m } := by
  refine ⟨(hm.map _).nodup_iff.mp h.nodup, h.pool, h.size, h.used, ?_⟩
  rw [ExecEngine.live, found_reorder h.nodup hm]
  exact h.live

/-- Neither account goes up. -/
theorem Accounts.of_found_subset (h : Accounts pool n t) (hp : SamePool t t') (hn : t'.keys.Nodup)
    (hf : found t' ⊆ found t) : Accounts pool n t' :=
  ⟨hn, hp.pool.trans h.pool, hp.size.trans h.size, hp.used.trans h.used,
    Nat.le_trans (Set.ncard_le_ncard hf) h.live⟩

/-- A slot is taken, and one more block is found at most. -/
theorem Accounts.of_found_insert (h : Accounts pool n t) (pc : Word) (hlt : n < pool_slots)
    (hp : SamePool { t with code_pool_used_ := slot_size * (n + 1) } t') (hn : t'.keys.Nodup)
    (hf : found t' ⊆ insert pc (found t)) : Accounts pool (n + 1) t' := by
  have hmin : min n pool_slots = n := by omega
  have hmin' : min (n + 1) pool_slots = n + 1 := by omega
  refine ⟨hn, hp.pool.trans h.pool, hp.size.trans h.size, ?_, ?_⟩
  · rw [hmin']
    exact hp.used
  · have hle := h.live
    rw [hmin] at hle
    rw [hmin']
    calc (found t').ncard ≤ (insert pc (found t)).ncard := Set.ncard_le_ncard hf
      _ ≤ (found t).ncard + 1 := Set.ncard_insert_le pc _
      _ ≤ n + 1 := Nat.succ_le_succ hle

theorem onBlocks_samePool {op : Op} (hop : OnBlocks op) : SamePool t (t.apply op) := by
  cases op with
  | lookup arm_pc =>
    rw [apply]
    rcases lookup_cases t arm_pc with ⟨info, -, -, hl⟩ | ⟨hl, -⟩
    · rw [hl]
      exact ⟨rfl, rfl, rfl⟩
    · rw [hl]
      exact ⟨rfl, rfl, rfl⟩
  | invalidate | invalidate_range | promote_hot => exact ⟨rfl, rfl, rfl⟩
  | evict_cold => exact t.evict_cold_samePool
  | insert | alloc_host_code => exact hop.elim

theorem Accounts.on_blocks (h : Accounts pool n t) {op : Op} (hop : OnBlocks op) :
    Accounts pool n (t.apply op) := by
  refine h.of_found_subset (onBlocks_samePool hop) (apply_nodup h.nodup op) fun pc hpc => ?_
  refine (found_apply hpc).resolve_right ?_
  rintro ⟨e, he, b, rfl⟩
  cases op with
  | insert | alloc_host_code => exact hop.elim
  | lookup | invalidate | invalidate_range | promote_hot | evict_cold => simp [Op.events] at he

/-- **A request for a slot** succeeds for the first 16384 translations. -/
theorem Accounts.alloc (hpool : Mapped pool) (h : Accounts pool n t) :
    (n < pool_slots ∧ (t.alloc_host_code slot_size).1 ≠ 0#64 ∧
      (t.alloc_host_code slot_size).2 = { t with code_pool_used_ := slot_size * (n + 1) }) ∨
    (pool_slots ≤ n ∧ (t.alloc_host_code slot_size).1 = 0#64 ∧
      SamePool t (t.alloc_host_code slot_size).2) := by
  have hused : t.code_pool_used_ = 4096 * min n 16384 := h.used
  have hsize : t.code_pool_size_ = 16384 * 4096 := h.size
  have hfits : t.code_pool_used_ + slot_size < 2 ^ 64 := by
    unfold slot_size
    omega
  rcases t.alloc_host_code_spec hfits with ⟨hle, hcode, hcache⟩ | ⟨hlt, hnull, hsame⟩
  · unfold slot_size at hle
    have hn : n < 16384 := by omega
    have hnext : t.code_pool_used_ + slot_size = slot_size * (n + 1) := by
      unfold slot_size
      omega
    refine .inl ⟨hn, ?_, by rw [hcache, hnext]⟩
    have hend : pool.toNat + 16384 * 4096 ≤ 2 ^ 64 := hpool.le
    have hstart : pool.toNat ≠ 0 := fun h0 => hpool.nonnull (BitVec.eq_of_toNat_eq h0)
    rw [hcode, h.pool]
    refine mt (congrArg BitVec.toNat) ?_
    rw [off, BitVec.toNat_add, BitVec.toNat_ofNat, BitVec.toNat_ofNat]
    omega
  · unfold slot_size at hlt
    have hn : 16384 ≤ n := by omega
    exact .inr ⟨hn, hnull, hsame⟩

/-- **One translation** takes a slot and adds a block, or neither. -/
theorem Accounts.translate_block (hpool : Mapped pool) (h : Accounts pool n t) (mem : MemoryManager)
    (pc : Word) : Accounts pool (n + if (Use.translate_block mem pc).translates then 1 else 0)
      (ExecEngine.translate_block t mem pc).cache := by
  have hc := translate_block_caches t mem pc
  have hcount : (Use.translate_block mem pc).translates = !(collect mem max_instr pc).isEmpty := rfl
  have hn : ∀ op, (t.apply op).keys.Nodup := apply_nodup h.nodup
  have halloc : found (t.apply (.alloc_host_code slot_size)) ⊆ found t := fun pc' hpc' =>
    (found_apply hpc').resolve_right nofun
  generalize (ExecEngine.translate_block t mem pc).block = ob at hc
  generalize (ExecEngine.translate_block t mem pc).cache = t' at hc ⊢
  cases hc with
  | empty hds =>
    rw [hcount, hds]
    exact h
  | full hds hnull =>
    rw [if_pos (by simpa [hcount] using hds)]
    rcases h.alloc hpool with ⟨-, hsome, -⟩ | ⟨hle, -, hsame⟩
    · exact absurd hnull hsome
    · have hmin : min (n + 1) pool_slots = min n pool_slots := by omega
      have h' : Accounts pool n (t.apply (.alloc_host_code slot_size)) :=
        h.of_found_subset hsame (hn _) halloc
      exact ⟨h'.nodup, h'.pool, h'.size, hmin ▸ h'.used, hmin ▸ h'.live⟩
  | @done block hds hsome _ =>
    rw [if_pos (by simpa [hcount] using hds)]
    rcases h.alloc hpool with ⟨hlt, -, hcache⟩ | ⟨-, hnull, -⟩
    · have hslot : SamePool { t with code_pool_used_ := slot_size * (n + 1) }
          (t.apply (.alloc_host_code slot_size)) := by
        rw [apply, hcache]
        exact ⟨rfl, rfl, rfl⟩
      refine h.of_found_insert pc hlt (hslot.trans (insert_samePool _ _ _ _ _))
        (apply_nodup (hn _) _) ?_
      intro pc' hpc'
      rcases found_apply hpc' with h' | ⟨e, he, b, rfl⟩
      · exact .inr (halloc h')
      · exact .inl (Event.insert.inj (List.mem_singleton.mp he)).1
    · exact absurd hnull hsome

theorem Accounts.reclaims (hpool : Mapped pool) (h : Accounts pool n t) :
    Reclaims t ↔ n < pool_slots ∨ ExecEngine.live t = pool_slots := by
  rcases h.alloc hpool with ⟨hlt, hsome, -⟩ | ⟨hle, hnull, -⟩
  · exact iff_of_true (fun _ => hsome) (.inl hlt)
  · have hlive : ExecEngine.live t ≤ min n 16384 := h.live
    have hsize : t.code_pool_size_ = 16384 * 4096 := h.size
    have hle : 16384 ≤ n := hle
    show _ ↔ n < 16384 ∨ ExecEngine.live t = 16384
    refine ⟨fun hr => .inr ?_, fun hor hroom => ?_⟩
    · by_contra hne
      refine hr ?_ hnull
      unfold slot_size
      omega
    · unfold slot_size at hroom
      omega

end Step

/-! ## Runs of uses -/

section Runs

variable {capacity : ℕ} {pool : Word} {es : List (TranslationCache × Use)} {t : TranslationCache}

theorem translations_snoc (u : Use) : translations (es ++ [(t, u)]) =
    translations es + if u.translates then 1 else 0 := by
  rw [translations, translations, List.countP_append, List.countP_singleton]

/-- The accounts along a run, by induction over its uses. -/
theorem runs_accounts (hpool : Mapped pool) (h : UseRuns capacity pool es t) :
    Accounts pool (translations es) t := by
  induction h with
  | nil h =>
    rw [h]
    refine ⟨List.nodup_nil, rfl, rfl, rfl, ?_⟩
    rw [live, found_init, Set.ncard_empty]
    exact Nat.zero_le _
  | snoc _ ht ih =>
    rw [translations_snoc]
    cases ht with
    | translate_block hm => exact (ih.translate_block hpool _ _).reorder hm
    | on_blocks hop hm => exact (ih.on_blocks hop).reorder hm

/-- **Reuse of code space**: a pool with room for the blocks that are found and one more gives a slot
exactly if the run had fewer than 16384 translations, or all the slots belong to blocks that are found;
so in runs of fewer than 16384 translations it always does. -/
theorem reclaims_iff (hpool : Mapped pool) (h : UseRuns capacity pool es t) :
    (Reclaims t ↔ translations es < pool_slots ∨ live t = pool_slots) ∧
    (translations es < pool_slots → Trace.Throughout Reclaims es t) := by
  refine ⟨(runs_accounts hpool h).reclaims hpool, fun hlt => ?_⟩
  have hlast := ((runs_accounts hpool h).reclaims hpool).mpr (.inl hlt)
  induction h with
  | nil => exact ⟨nofun, hlast⟩
  | snoc h _ ih =>
    rw [translations_snoc] at hlt
    have hlt' := Nat.lt_of_le_of_lt (Nat.le_add_right _ _) hlt
    have hrest := ih hlt' (((runs_accounts hpool h).reclaims hpool).mpr (.inl hlt'))
    exact Trace.throughout_snoc.mpr ⟨hrest, hlast⟩

theorem useRuns_init (capacity : ℕ) (pool : Word) : UseRuns capacity pool [] (.init capacity pool) :=
  .nil rfl

theorem UseRuns.translate (h : UseRuns capacity pool es t) (mem : MemoryManager) (pc : Word) :
    UseRuns capacity pool (es ++ [(t, .translate_block mem pc)]) (translate_block t mem pc).cache :=
  Trace.snoc h (.translate_block (.refl _))

theorem UseRuns.on_blocks (h : UseRuns capacity pool es t) {op : Op} (hop : OnBlocks op) :
    UseRuns capacity pool (es ++ [(t, .on_blocks op)]) (t.apply op) :=
  Trace.snoc h (.on_blocks hop (.refl _))

theorem mapped_pool : Mapped 0x10000#64 := ⟨by decide, by decide⟩

/-- One translation in a fresh pool. -/
theorem reclaims_iff_nops : ∃ es t, UseRuns 65536 0x10000#64 es t ∧
    es.map (·.2) = [.translate_block nops 0x1000#64] ∧ Reclaims t := by
  have h := (useRuns_init 65536 0x10000#64).translate nops 0x1000#64
  refine ⟨_, _, h, rfl, (reclaims_iff mapped_pool h).1.mpr (.inl ?_)⟩
  exact Nat.lt_of_le_of_lt List.countP_le_length (by decide)

/-- A translation that is invalidated leaves no block behind. -/
theorem found_invalidated (hfound : found t = ∅) (mem : MemoryManager) (pc : Word) :
    found ((translate_block t mem pc).cache.apply (.invalidate pc)) = ∅ := by
  refine Set.eq_empty_of_forall_notMem ?_
  intro pc' hpc'
  have hne : pc' ≠ pc := by
    rintro rfl
    rw [mem_found, view, apply, invalidate, entry_update] at hpc'
    revert hpc'
    cases entry (translate_block t mem pc').cache.block_map_ pc' <;> simp
  have hbefore : pc' ∈ found (translate_block t mem pc).cache :=
    (found_apply hpc').resolve_right (by simp [Op.events, Event.Inserts])
  obtain ⟨b, hb⟩ := Option.isSome_iff_exists.mp (mem_found.mp hbefore)
  rcases translate_block_view hb with hb | ⟨-, hpc, -⟩
  · have hmem : pc' ∈ found t := mem_found.mpr (by rw [hb]; rfl)
    rw [hfound] at hmem
    exact hmem
  · exact hne hpc

/-- A translation of the code at `0x1000`, whose block is then invalidated. -/
def round : List Use := [.translate_block nops 0x1000#64, .on_blocks (.invalidate 0x1000#64)]

theorem round_translates : (Use.translate_block nops 0x1000#64).translates = true := by
  rw [Use.translates, Bool.not_eq_true', List.isEmpty_eq_false_iff]
  exact collect_nops

/-- Rounds leave no block, and every one takes a slot. -/
theorem rounds_found (n : ℕ) : ∃ es t, UseRuns 65536 0x10000#64 es t ∧
    es.map (·.2) = (List.replicate n round).flatten ∧ translations es = n ∧ found t = ∅ := by
  induction n with
  | zero => exact ⟨[], _, useRuns_init _ _, rfl, rfl, found_init _ _⟩
  | succ n ih =>
    obtain ⟨es, t, h, hes, hn, hfound⟩ := ih
    have hop : OnBlocks (.invalidate 0x1000#64) := trivial
    have h₂ := (h.translate nops 0x1000#64).on_blocks hop
    refine ⟨_, _, h₂, ?_, ?_, found_invalidated hfound _ _⟩
    · rw [List.map_append, List.map_append, hes, List.replicate_succ', List.flatten_append,
        List.append_assoc]
      rfl
    · rw [translations_snoc, translations_snoc, hn, round_translates]
      rfl

/-- After 16384 rounds no block is left, and there is no slot for the next one. -/
theorem not_reclaims : ∃ es t, UseRuns 65536 0x10000#64 es t ∧
    es.map (·.2) = (List.replicate 16384 round).flatten ∧ live t = 0 ∧ ¬ Reclaims t := by
  obtain ⟨es, t, h, hes, hn, hfound⟩ := rounds_found 16384
  have hlive : live t = 0 := by rw [live, hfound, Set.ncard_empty]
  refine ⟨es, t, h, hes, hlive, ?_⟩
  rw [(runs_accounts mapped_pool h).reclaims mapped_pool, hn, hlive]
  decide

end Runs

end ExecEngine

end Bbarm64
