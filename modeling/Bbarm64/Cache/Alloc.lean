import Bbarm64.Cache.CacheSize

/-!
# Cache.Alloc — what a refused request for code space costs

When a request does not fit, `alloc_host_code` evicts a block "to compact" and tests again.  Nothing is
compacted: the eviction leaves `code_pool_used_` as it is, so the second test fails as the first did, and
the caller gets null from a cache that has lost a block.  The blocks stay exactly if the request fits or
there is none to evict (`alloc_spares_iff`).
-/

namespace Bbarm64

open X86

namespace TranslationCache

/-- `lookup` finds the same blocks in both caches, at the same addresses. -/
def SameBlocks (t t' : TranslationCache) : Prop := ∀ pc, (t'.lookup pc).1 = (t.lookup pc).1

/-- A null pointer for `size` bytes leaves the blocks as they were. -/
def Spares (t : TranslationCache) (size : ℕ) : Prop :=
  (t.alloc_host_code size).1 = 0#64 → SameBlocks t (t.alloc_host_code size).2

/-- `size` more bytes fit in the pool, or no block is valid and cold. -/
def Harmless (t : TranslationCache) (size : ℕ) : Prop :=
  (t.code_pool_used_ + size) % 2 ^ 64 ≤ t.code_pool_size_ ∨ ¬ HasVictim t.block_map_

section Alloc

variable {t t' : TranslationCache} {size : ℕ}

/-- What `lookup` returns depends on the entry of its key and on the counter. -/
theorem lookup_congr (hc : t'.access_counter_ = t.access_counter_) {pc : Word}
    (he : entry t'.block_map_ pc = entry t.block_map_ pc) : (t'.lookup pc).1 = (t.lookup pc).1 := by
  rcases lookup_cases t pc with ⟨info, hi, hv, hl⟩ | ⟨hl, hno⟩
  · rcases lookup_cases t' pc with ⟨info', hi', -, hl'⟩ | ⟨-, hno'⟩
    · obtain rfl := Option.some.inj ((he.symm.trans hi').symm.trans hi)
      rw [hl, hl', hc]
    · cases (hno' info (he.trans hi)).symm.trans hv
  · rcases lookup_cases t' pc with ⟨info', hi', hv', -⟩ | ⟨hl', -⟩
    · cases (hno info' (he.symm.trans hi')).symm.trans hv'
    · rw [hl, hl']

/-- The victim is found before the eviction and not behind it. -/
theorem not_sameBlocks_evict_cold (hn : t.keys.Nodup) (hv : HasVictim t.block_map_) :
    ¬ SameBlocks t t.evict_cold := by
  obtain ⟨⟨pc, info⟩, he, hc, -, hev⟩ := evict_cold_victim hv
  have hinfo : entry t.block_map_ pc = some info := (entry_eq_some_iff pc hn).mpr he
  have hgone : entry t.evict_cold.block_map_ pc = none := by
    rw [hev, entry_erase, if_pos rfl]
  intro hsame
  have hfound : (t.lookup pc).1.isSome := lookup_isSome_iff.mpr ⟨info, hinfo, hc.2.1⟩
  rw [← hsame pc, lookup_isSome_iff, hgone] at hfound
  obtain ⟨_, h, -⟩ := hfound
  cases h

/-- A request that does not fit is refused behind the eviction. -/
theorem alloc_of_not_fits (h : ¬ (t.code_pool_used_ + size) % 2 ^ 64 ≤ t.code_pool_size_) :
    t.alloc_host_code size = (0#64, t.evict_cold) := by
  obtain ⟨-, hs, hu⟩ := t.evict_cold_samePool
  have hgt : (t.code_pool_used_ + size) % 2 ^ 64 > t.code_pool_size_ := Nat.lt_of_not_le h
  unfold alloc_host_code
  dsimp only
  rw [if_pos hgt, hs, hu, if_pos hgt]

/-- **One request** leaves the blocks as they were exactly if it is harmless. -/
theorem spares_iff (hn : t.keys.Nodup) (size : ℕ) : t.Spares size ↔ t.Harmless size := by
  by_cases hfits : (t.code_pool_used_ + size) % 2 ^ 64 ≤ t.code_pool_size_
  · refine iff_of_true (fun _ pc => lookup_congr ?_ ?_) (.inl hfits)
    · unfold alloc_host_code
      dsimp only
      rw [if_neg (Nat.not_lt.mpr hfits)]
    · rw [alloc_block_map, if_neg (Nat.not_lt.mpr hfits)]
  · rw [Spares, Harmless, alloc_of_not_fits hfits]
    by_cases hv : HasVictim t.block_map_
    · exact iff_of_false (fun h => not_sameBlocks_evict_cold hn hv (h rfl)) (by tauto)
    · rw [evict_cold_eq_self hv]
      exact iff_of_true (fun _ _ => rfl) (.inr hv)

end Alloc

/-- **A refused request in a run**: in every state the blocks stay as they were exactly if the request
fits or no block may go, and so for the requests that the run itself made. -/
theorem alloc_spares_iff {capacity : ℕ} {pool : Word} {es : List (TranslationCache × Op)}
    {t : TranslationCache} (h : Runs capacity pool es t) :
    (∀ size, t.Spares size ↔ t.Harmless size) ∧
    ((∀ e ∈ es, ∀ size, e.2 = .alloc_host_code size → e.1.Spares size) ↔
      ∀ e ∈ es, ∀ size, e.2 = .alloc_host_code size → e.1.Harmless size) := by
  have hn := runs_nodup h
  refine ⟨spares_iff hn.2, forall₂_congr fun e he => forall_congr' fun size => ?_⟩
  exact imp_congr_right fun _ => spares_iff (hn.1 e he) size

/-- With the pool used up, a request for a slot is refused, and a hot block stays. -/
theorem alloc_spares_iff_hot : ∃ es t, Runs 16 0x10000#64 es t ∧
    es.map (·.2) =
      [.alloc_host_code DEFAULT_CODE_POOL_SIZE, insertAt 0x1000#64, .promote_hot 0x1000#64] ∧
    (t.alloc_host_code 4096).1 = 0#64 ∧ (t.lookup 0x1000#64).1.isSome ∧ t.Spares 4096 := by
  have h := (((runs_init 16 0x10000#64).apply (.alloc_host_code DEFAULT_CODE_POOL_SIZE)).apply
    (insertAt 0x1000#64)).apply (.promote_hot 0x1000#64)
  refine ⟨_, _, h, rfl, by decide, by decide, ((alloc_spares_iff h).1 4096).mpr (.inr ?_)⟩
  unfold HasVictim Cold
  decide

/-- With the pool used up, a request for a slot costs the only block. -/
theorem not_alloc_spares : ∃ es t, Runs 16 0x10000#64 es t ∧
    es.map (·.2) = [.alloc_host_code DEFAULT_CODE_POOL_SIZE, insertAt 0x1000#64] ∧
    (t.alloc_host_code 4096).1 = 0#64 ∧ ¬ t.Spares 4096 := by
  have h := ((runs_init 16 0x10000#64).apply (.alloc_host_code DEFAULT_CODE_POOL_SIZE)).apply
    (insertAt 0x1000#64)
  refine ⟨_, _, h, rfl, by decide, fun hs => ?_⟩
  have hsame := hs (by decide) 0x1000#64
  revert hsame
  decide

end TranslationCache

end Bbarm64
