import Bbarm64.X86.Memory

/-!
# Cache.TranslationCache — the block map and the code pool

`block_map_` is the list of its entries in iteration order, with at most one entry for each key.
`alloc_host_code` is a bump allocator over the pool: eviction removes a map entry and gives no code
bytes back.  `size_t` quantities are natural numbers; the sum that `alloc_host_code` makes with its
argument is taken modulo `2 ^ 64`.
-/

namespace Bbarm64

open X86

structure BlockInfo where
  arm_pc : Word := 0#64
  host_code : Word := 0#64
  host_code_size : BitVec 32 := 0#32
  arm_instr_count : BitVec 32 := 0#32
  hit_count : Word := 0#64
  last_access : Word := 0#64
  is_valid : Bool := true
  is_hot : Bool := false
  deriving DecidableEq, Repr

structure TranslationCache where
  block_map_ : List (Word × BlockInfo)
  capacity_ : ℕ
  code_pool_ : Word
  code_pool_size_ : ℕ
  code_pool_used_ : ℕ
  access_counter_ : Word

namespace TranslationCache

/-- 64 MB -/
def DEFAULT_CODE_POOL_SIZE : ℕ := 64 * 1024 * 1024

def HOT_THRESHOLD : Word := 100#64

/-- The cache after `TranslationCache(capacity)` and an `init` whose `mmap` returned `pool`. -/
def init (capacity : ℕ) (pool : Word) : TranslationCache where
  block_map_ := []
  capacity_ := capacity
  code_pool_ := pool
  code_pool_size_ := DEFAULT_CODE_POOL_SIZE
  code_pool_used_ := 0
  access_counter_ := 0#64

/-- `block_map_[arm_pc] = info` -/
def put (m : List (Word × BlockInfo)) (arm_pc : Word) (info : BlockInfo) : List (Word × BlockInfo) :=
  if m.any (·.1 = arm_pc) then m.map fun e => if e.1 = arm_pc then (arm_pc, info) else e
  else m ++ [(arm_pc, info)]

def lookup (t : TranslationCache) (arm_pc : Word) : Option BlockInfo × TranslationCache :=
  match t.block_map_.find? (·.1 = arm_pc) with
  | some (_, info) =>
    if info.is_valid then
      let counter := t.access_counter_ + 1#64
      let hits := info.hit_count + 1#64
      let info := { info with
        hit_count := hits, last_access := counter,
        is_hot := if hits ≥ HOT_THRESHOLD then true else info.is_hot }
      (some info, { t with block_map_ := put t.block_map_ arm_pc info, access_counter_ := counter })
    else (none, t)
  | none => (none, t)

/-- The loop of `evict_cold`: the smallest `last_access` of a valid cold entry, with its key. -/
def coldest : List (Word × BlockInfo) → Word → Option Word → Option Word
  | [], _, found => found
  | (pc, info) :: rest, min_access, found =>
    if !info.is_hot && info.is_valid && info.last_access < min_access then
      coldest rest info.last_access (some pc)
    else coldest rest min_access found

def evict_cold (t : TranslationCache) : TranslationCache :=
  match coldest t.block_map_ (BitVec.allOnes 64) none with
  | some evict_pc => { t with block_map_ := t.block_map_.filter (·.1 ≠ evict_pc) }
  | none => t

def insert (t : TranslationCache) (arm_pc host_code : Word)
    (host_code_size arm_instr_count : BitVec 32) : TranslationCache :=
  let t := if t.block_map_.length ≥ t.capacity_ then t.evict_cold else t
  let counter := t.access_counter_ + 1#64
  let info : BlockInfo := { arm_pc, host_code, host_code_size, arm_instr_count, last_access := counter }
  { t with block_map_ := put t.block_map_ arm_pc info, access_counter_ := counter }

/-- `for (auto& [pc, info] : block_map_) if (p(pc)) f(info)`; with `p` the test for one key, the
update of the entry that `find` gives. -/
def update (m : List (Word × BlockInfo)) (p : Word → Bool) (f : BlockInfo → BlockInfo) :
    List (Word × BlockInfo) :=
  m.map fun e => if p e.1 then (e.1, f e.2) else e

def invalidate (t : TranslationCache) (arm_pc : Word) : TranslationCache :=
  { t with block_map_ := update t.block_map_ (· = arm_pc) fun info => { info with is_valid := false } }

def invalidate_range (t : TranslationCache) (start end_ : Word) : TranslationCache :=
  { t with block_map_ := update t.block_map_ (fun pc => start ≤ pc ∧ pc < end_) fun info =>
      { info with is_valid := false } }

def promote_hot (t : TranslationCache) (arm_pc : Word) : TranslationCache :=
  { t with block_map_ := update t.block_map_ (· = arm_pc) fun info =>
      { info with is_hot := true, hit_count := HOT_THRESHOLD } }

/-- The address of the new slot, or the null pointer. -/
def alloc_host_code (t : TranslationCache) (size : ℕ) : Word × TranslationCache :=
  let used := (t.code_pool_used_ + size) % 2 ^ 64
  if used > t.code_pool_size_ then
    -- eviction gives no code bytes back, so this fails again
    let t := t.evict_cold
    if (t.code_pool_used_ + size) % 2 ^ 64 > t.code_pool_size_ then (0#64, t)
    else (off t.code_pool_ t.code_pool_used_, { t with code_pool_used_ := used })
  else (off t.code_pool_ t.code_pool_used_, { t with code_pool_used_ := used })

/-! ## The pool -/

/-- Two caches with the same pool, used up to the same point. -/
structure SamePool (t t' : TranslationCache) : Prop where
  pool : t'.code_pool_ = t.code_pool_
  size : t'.code_pool_size_ = t.code_pool_size_
  used : t'.code_pool_used_ = t.code_pool_used_

theorem SamePool.trans {t t' t'' : TranslationCache} (h₁ : SamePool t t') (h₂ : SamePool t' t'') :
    SamePool t t'' :=
  ⟨h₂.pool.trans h₁.pool, h₂.size.trans h₁.size, h₂.used.trans h₁.used⟩

theorem evict_cold_samePool (t : TranslationCache) : SamePool t t.evict_cold := by
  unfold evict_cold
  split <;> exact ⟨rfl, rfl, rfl⟩

theorem insert_samePool (t : TranslationCache) (arm_pc host_code : Word) (n k : BitVec 32) :
    SamePool t (t.insert arm_pc host_code n k) := by
  have h : SamePool t (if t.block_map_.length ≥ t.capacity_ then t.evict_cold else t) := by
    split_ifs
    · exact t.evict_cold_samePool
    · exact ⟨rfl, rfl, rfl⟩
  exact h.trans ⟨rfl, rfl, rfl⟩

/-- **The bump allocator**: a slot behind the used part of the pool, or null and nothing used. -/
theorem alloc_host_code_spec (t : TranslationCache) {size : ℕ}
    (hsize : t.code_pool_used_ + size < 2 ^ 64) :
    (t.code_pool_used_ + size ≤ t.code_pool_size_ ∧
      (t.alloc_host_code size).1 = off t.code_pool_ t.code_pool_used_ ∧
      (t.alloc_host_code size).2 = { t with code_pool_used_ := t.code_pool_used_ + size }) ∨
    (t.code_pool_size_ < t.code_pool_used_ + size ∧ (t.alloc_host_code size).1 = 0#64 ∧
      SamePool t (t.alloc_host_code size).2) := by
  obtain ⟨-, hs, hu⟩ := t.evict_cold_samePool
  unfold alloc_host_code
  dsimp only
  rw [hs, hu, Nat.mod_eq_of_lt hsize]
  by_cases h : t.code_pool_used_ + size > t.code_pool_size_
  · refine .inr ⟨h, ?_⟩
    simp only [if_pos h, true_and]
    exact t.evict_cold_samePool
  · refine .inl ⟨by omega, ?_⟩
    simp only [if_neg h, true_and]

/-- A request that does not fit evicts a block, whether or not it then fits. -/
theorem alloc_block_map (t : TranslationCache) (size : ℕ) :
    (t.alloc_host_code size).2.block_map_ =
      if (t.code_pool_used_ + size) % 2 ^ 64 > t.code_pool_size_ then t.evict_cold.block_map_
      else t.block_map_ := by
  unfold alloc_host_code
  dsimp only
  split_ifs <;> rfl

end TranslationCache

end Bbarm64
