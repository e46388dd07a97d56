import Bbarm64.Cache.CacheLog
import Bbarm64.Lib.Trace

/-!
# Cache.CacheSize — when `size()` stays within the capacity

`insert` into a full cache evicts first, but `evict_cold` passes over hot and invalid blocks, and
when it finds no other one the map grows.  The size stays within the capacity exactly as long as every
insert of a new key into a full cache finds a victim (`size_le_iff`).
-/

namespace Bbarm64

open X86

namespace TranslationCache

/-- `size()` -/
def size (t : TranslationCache) : ℕ := t.block_map_.length

/-! ## Victims -/

/-- `!info.is_hot && info.is_valid`, with a time stamp below `min_access`. -/
def Cold (min_access : Word) (info : BlockInfo) : Prop :=
  info.is_hot = false ∧ info.is_valid = true ∧ info.last_access < min_access

/-- A block that `evict_cold` may take. -/
def HasVictim (m : List (Word × BlockInfo)) : Prop := ∃ e ∈ m, Cold (BitVec.allOnes 64) e.2

section Victims

variable {m : List (Word × BlockInfo)}

theorem cold_iff {min_access : Word} {info : BlockInfo} :
    (!info.is_hot && info.is_valid && decide (info.last_access < min_access)) = true ↔
      Cold min_access info := by
  simp [Cold, and_assoc]

theorem coldest_eq_none_iff {min_access : Word} {found : Option Word} :
    coldest m min_access found = none ↔ found = none ∧ ∀ e ∈ m, ¬ Cold min_access e.2 := by
  induction m generalizing min_access found with
  | nil => simp [coldest]
  | cons e m ih =>
    obtain ⟨pc, info⟩ := e
    rw [coldest, List.forall_mem_cons]
    by_cases hc : Cold min_access info
    · rw [if_pos (cold_iff.mpr hc), ih]
      simp [hc]
    · rw [if_neg (fun h => hc (cold_iff.mp h)), ih]
      simp [hc]

/-- The scan keeps the first entry with the smallest time stamp among the cold ones. -/
theorem coldest_eq_some {min_access k : Word} {found : Option Word}
    (h : coldest m min_access found = some k) :
    (found = some k ∧ ∀ e ∈ m, ¬ Cold min_access e.2) ∨
      ∃ e ∈ m, e.1 = k ∧ Cold min_access e.2 ∧
        ∀ e' ∈ m, Cold min_access e'.2 → e.2.last_access ≤ e'.2.last_access := by
  induction m generalizing min_access found with
  | nil => exact .inl ⟨h, nofun⟩
  | cons e m ih =>
    obtain ⟨pc, info⟩ := e
    rw [coldest] at h
    by_cases hc : Cold min_access info
    · rw [if_pos (cold_iff.mpr hc)] at h
      refine .inr ?_
      -- what is not colder than the head has a later stamp
      have hle : ∀ e' : Word × BlockInfo, Cold min_access e'.2 → ¬ Cold info.last_access e'.2 →
          info.last_access ≤ e'.2.last_access := fun e' h₁ h₂ =>
        BitVec.not_lt.mp fun hlt => h₂ ⟨h₁.1, h₁.2.1, hlt⟩
      rcases ih h with ⟨hk, hno⟩ | ⟨e, he, hk, hcold, hmin⟩
      · refine ⟨_, List.mem_cons_self, Option.some.inj hk, hc, fun e' he' hc' => ?_⟩
        rcases List.mem_cons.mp he' with rfl | he'
        · exact BitVec.le_refl _
        · exact hle e' hc' (hno e' he')
      · have hlt : e.2.last_access < info.last_access := hcold.2.2
        refine ⟨e, List.mem_cons_of_mem _ he, hk,
          ⟨hcold.1, hcold.2.1, BitVec.lt_trans hlt hc.2.2⟩, fun e' he' hc' => ?_⟩
        rcases List.mem_cons.mp he' with rfl | he'
        · exact BitVec.le_of_lt hlt
        · by_cases hc'' : Cold info.last_access e'.2
          · exact hmin e' he' hc''
          · exact BitVec.le_trans (BitVec.le_of_lt hlt) (hle e' hc' hc'')
    · rw [if_neg fun h' => hc (cold_iff.mp h')] at h
      rcases ih h with ⟨hk, hno⟩ | ⟨e, he, hk, hcold, hmin⟩
      · exact .inl ⟨hk, List.forall_mem_cons.mpr ⟨hc, hno⟩⟩
      · refine .inr ⟨e, List.mem_cons_of_mem _ he, hk, hcold, fun e' he' hc' => ?_⟩
        rcases List.mem_cons.mp he' with rfl | he'
        · exact absurd hc' hc
        · exact hmin e' he' hc'

/-- Each key has one entry, so erasing a key takes one away. -/
theorem length_erase {k : Word} (hn : (m.map (·.1)).Nodup) (hk : k ∈ m.map (·.1)) :
    (m.filter (·.1 ≠ k)).length + 1 = m.length := by
  induction m with
  | nil => cases hk
  | cons e m ih =>
    obtain ⟨he, hn⟩ := List.nodup_cons.mp hn
    by_cases hek : e.1 = k
    · have hrest : m.filter (·.1 ≠ k) = m := by
        refine List.filter_eq_self.mpr fun a ha => ?_
        have hne : a.1 ≠ k := by
          rintro h
          exact he (List.mem_map.mpr ⟨a, ha, h.trans hek.symm⟩)
        simpa using hne
      rw [List.filter_cons_of_neg (by simpa using hek), hrest, List.length_cons]
    · have hk' : k ∈ m.map (·.1) := by
        rcases List.mem_cons.mp hk with h | h
        · exact absurd h.symm hek
        · exact h
      rw [List.filter_cons_of_pos (by simpa using hek), List.length_cons, List.length_cons, ih hn hk']

theorem length_put (k : Word) (info : BlockInfo) :
    (put m k info).length = if k ∈ m.map (·.1) then m.length else m.length + 1 := by
  unfold put
  by_cases hk : k ∈ m.map (·.1)
  · rw [if_pos (by simpa using hk), if_pos hk, List.length_map]
  · rw [if_neg (by simpa using hk), if_neg hk, List.length_append, List.length_singleton]

end Victims

/-! ## One operation -/

section Step

variable {t : TranslationCache}

theorem size_evict_cold_le : t.evict_cold.size ≤ t.size := by
  unfold evict_cold
  split
  · exact List.length_filter_le _ _
  · exact Nat.le_refl _

/-- Eviction erases the key of a victim with the smallest time stamp. -/
theorem evict_cold_victim (hv : HasVictim t.block_map_) : ∃ e ∈ t.block_map_,
    Cold (BitVec.allOnes 64) e.2 ∧
    (∀ e' ∈ t.block_map_, Cold (BitVec.allOnes 64) e'.2 → e.2.last_access ≤ e'.2.last_access) ∧
    t.evict_cold = { t with block_map_ := t.block_map_.filter (·.1 ≠ e.1) } := by
  unfold evict_cold
  cases hk : coldest t.block_map_ (BitVec.allOnes 64) none with
  | none =>
    obtain ⟨e, he, hc⟩ := hv
    exact absurd hc ((coldest_eq_none_iff.mp hk).2 e he)
  | some k =>
    rcases coldest_eq_some hk with ⟨h, -⟩ | ⟨e, he, rfl, hc, hmin⟩
    · cases h
    · exact ⟨e, he, hc, hmin, rfl⟩

theorem size_evict_cold (hn : t.keys.Nodup) (hv : HasVictim t.block_map_) :
    t.evict_cold.size + 1 = t.size := by
  obtain ⟨e, he, -, -, hev⟩ := evict_cold_victim hv
  rw [hev]
  exact length_erase hn (List.mem_map_of_mem he)

theorem evict_cold_eq_self (hv : ¬ HasVictim t.block_map_) : t.evict_cold = t := by
  have hnone : coldest t.block_map_ (BitVec.allOnes 64) none = none :=
    coldest_eq_none_iff.mpr ⟨rfl, fun e he hc => hv ⟨e, he, hc⟩⟩
  rw [evict_cold, hnone]

/-- The insert has room: the cache is not full, the key is there already, or a block can go. -/
def HasRoom (t : TranslationCache) : Op → Prop
  | .insert arm_pc _ _ _ => t.size < t.capacity_ ∨ arm_pc ∈ t.keys ∨ HasVictim t.block_map_
  | .lookup _ | .invalidate _ | .invalidate_range _ _ | .promote_hot _ | .evict_cold
  | .alloc_host_code _ => True

theorem size_insert_le_iff (hn : t.keys.Nodup) (hs : t.size ≤ t.capacity_)
    (arm_pc host_code : Word) (n k : BitVec 32) :
    (t.insert arm_pc host_code n k).size ≤ t.capacity_ ↔
      t.size < t.capacity_ ∨ arm_pc ∈ t.keys ∨ HasVictim t.block_map_ := by
  have hput : ∀ (t' : TranslationCache) info, (put t'.block_map_ arm_pc info).length =
      if arm_pc ∈ t'.keys then t'.size else t'.size + 1 := fun _ info => length_put arm_pc info
  have hle : ∀ (t' : TranslationCache) info, (put t'.block_map_ arm_pc info).length ≤ t'.size + 1 := by
    intro t' info
    rw [hput]
    split_ifs <;> omega
  unfold insert size
  dsimp only
  by_cases hfull : t.block_map_.length ≥ t.capacity_
  · rw [if_pos hfull]
    have hcap : ¬ t.block_map_.length < t.capacity_ := Nat.not_lt.mpr hfull
    by_cases hv : HasVictim t.block_map_
    · have hev := size_evict_cold hn hv
      exact iff_of_true (Nat.le_trans (hle _ _) (Nat.le_trans (Nat.le_of_eq hev) hs)) (.inr (.inr hv))
    · rw [evict_cold_eq_self hv, hput]
      simp only [hcap, hv, or_false, false_or]
      split_ifs with hk
      · exact iff_of_true hs hk
      · refine iff_of_false (fun h => ?_) hk
        exact hcap h
  · rw [if_neg hfull]
    have hlt : t.block_map_.length < t.capacity_ := Nat.lt_of_not_le hfull
    exact iff_of_true (Nat.le_trans (hle _ _) hlt) (.inl hlt)

theorem size_update (p : Word → Bool) (f : BlockInfo → BlockInfo) :
    size { t with block_map_ := update t.block_map_ p f } = t.size := List.length_map _

theorem size_lookup (pc : Word) : (t.lookup pc).2.size = t.size := by
  rcases lookup_cases t pc with ⟨info, he, -, hl⟩ | ⟨hl, -⟩
  · have hk : pc ∈ t.keys := (entry_isSome _ _).mp (by rw [he]; rfl)
    rw [hl]
    exact (length_put pc _).trans (if_pos hk)
  · rw [hl]

/-- **One operation** keeps the size within the capacity exactly if an insert has room. -/
theorem size_apply_le_iff (hn : t.keys.Nodup) (hs : t.size ≤ t.capacity_) (op : Op) :
    (t.apply op).size ≤ t.capacity_ ↔ t.HasRoom op := by
  cases op with
  | insert arm_pc host_code n k => exact size_insert_le_iff hn hs arm_pc host_code n k
  | lookup arm_pc =>
    refine iff_of_true ?_ trivial
    rw [apply, size_lookup]
    exact hs
  | invalidate arm_pc => exact iff_of_true (Nat.le_trans (Nat.le_of_eq (size_update _ _)) hs) trivial
  | invalidate_range start end_ =>
    exact iff_of_true (Nat.le_trans (Nat.le_of_eq (size_update _ _)) hs) trivial
  | promote_hot arm_pc => exact iff_of_true (Nat.le_trans (Nat.le_of_eq (size_update _ _)) hs) trivial
  | evict_cold => exact iff_of_true (Nat.le_trans size_evict_cold_le hs) trivial
  | alloc_host_code n =>
    refine iff_of_true ?_ trivial
    rw [apply, size, alloc_block_map]
    split_ifs
    · exact Nat.le_trans size_evict_cold_le hs
    · exact hs

theorem evict_cold_capacity : t.evict_cold.capacity_ = t.capacity_ := by
  unfold evict_cold
  split <;> rfl

theorem lookup_capacity (pc : Word) : (t.lookup pc).2.capacity_ = t.capacity_ := by
  rcases lookup_cases t pc with ⟨info, -, -, hl⟩ | ⟨hl, -⟩
  · rw [hl]
  · rw [hl]

theorem apply_capacity (op : Op) : (t.apply op).capacity_ = t.capacity_ := by
  cases op with
  | insert arm_pc host_code n k =>
    show (ite _ _ _ : TranslationCache).capacity_ = _
    split_ifs
    · exact evict_cold_capacity
    · rfl
  | lookup arm_pc => exact lookup_capacity arm_pc
  | invalidate | invalidate_range | promote_hot => rfl
  | evict_cold => exact evict_cold_capacity
  | alloc_host_code n =>
    show (t.alloc_host_code n).2.capacity_ = _
    unfold alloc_host_code
    dsimp only
    split_ifs
    · exact evict_cold_capacity
    · exact evict_cold_capacity
    · rfl

end Step

/-! ## Runs -/

/-- An operation, behind which the map may be iterated in any order. -/
def Step (t : TranslationCache) (op : Op) (t' : TranslationCache) : Prop :=
  ∃ m, (t.apply op).block_map_.Perm m ∧ t' = { t.apply op with block_map_ := m }

/-- The runs of a cache that `init` made. -/
def Runs (capacity : ℕ) (pool : Word) : List (TranslationCache × Op) → TranslationCache → Prop :=
  Trace (· = init capacity pool) Step

theorem runs_nodup {capacity : ℕ} {pool : Word} {es : List (TranslationCache × Op)}
    {t : TranslationCache} (h : Runs capacity pool es t) : Trace.Throughout (·.keys.Nodup) es t := by
  refine h.inv ?_ ?_
  · rintro _ rfl
    exact List.nodup_nil
  · rintro t op _ hn ⟨m, hm, rfl⟩
    exact (hm.map _).nodup_iff.mp (apply_nodup hn op)

/-- **The size of the cache** stays within the capacity throughout a run exactly if every insert of
the run has room: the cache is not full, it holds the key already, or it holds a valid block that is
not hot. -/
theorem size_le_iff {capacity : ℕ} {pool : Word} {es : List (TranslationCache × Op)}
    {t : TranslationCache} (h : Runs capacity pool es t) :
    Trace.Throughout (·.size ≤ capacity) es t ↔ ∀ e ∈ es, e.1.HasRoom e.2 := by
  refine Trace.safe_iff (I := fun t => t.keys.Nodup ∧ t.capacity_ = capacity) ?_ ?_ ?_ h
  · rintro _ rfl
    exact ⟨⟨List.nodup_nil, rfl⟩, Nat.zero_le _⟩
  · rintro t op _ ⟨hn, hc⟩ ⟨m, hm, rfl⟩
    exact ⟨(hm.map _).nodup_iff.mp (apply_nodup hn op), (apply_capacity op).trans hc⟩
  · rintro t op _ ⟨hn, rfl⟩ hs ⟨m, hm, rfl⟩
    rw [← size_apply_le_iff hn hs op, size, size, hm.length_eq]

/-- An operation that keeps the order. -/
theorem step_apply (t : TranslationCache) (op : Op) : Step t op (t.apply op) := ⟨_, .refl _, rfl⟩

theorem runs_init (capacity : ℕ) (pool : Word) : Runs capacity pool [] (init capacity pool) :=
  .nil rfl

theorem Runs.apply {capacity : ℕ} {pool : Word} {es : List (TranslationCache × Op)}
    {t : TranslationCache} (h : Runs capacity pool es t) (op : Op) :
    Runs capacity pool (es ++ [(t, op)]) (t.apply op) := .snoc h (step_apply t op)

/-- `insert` of the block for `arm_pc`. -/
def insertAt (arm_pc : Word) : Op := .insert arm_pc 0x10000#64 22#32 1#32

/-- A second insert into a cache of one block evicts the first. -/
theorem size_le_iff_evicting :
    let t₀ := init 1 0x10000#64
    let t₁ := t₀.apply (insertAt 0x1000#64)
    let t₂ := t₁.apply (insertAt 0x2000#64)
    let es := [(t₀, insertAt 0x1000#64), (t₁, insertAt 0x2000#64)]
    Trace.Throughout (·.size ≤ 1) es t₂ ↔ ∀ e ∈ es, e.1.HasRoom e.2 := by
  intro t₀ t₁ t₂ es
  have h : Runs 1 0x10000#64 es t₂ := ((runs_init 1 0x10000#64).apply _).apply _
  exact size_le_iff h

/-- The first block is hot when the second one comes. -/
theorem size_gt_capacity : ∃ es t, Runs 1 0x10000#64 es t ∧ es.map (·.2) =
    [insertAt 0x1000#64, .promote_hot 0x1000#64, insertAt 0x2000#64] ∧ ¬ t.size ≤ 1 := by
  refine ⟨_, _, (((runs_init 1 0x10000#64).apply (insertAt 0x1000#64)).apply
    (.promote_hot 0x1000#64)).apply (insertAt 0x2000#64), rfl, ?_⟩
  decide

end TranslationCache

end Bbarm64
