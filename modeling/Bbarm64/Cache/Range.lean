import Bbarm64.Cache.Alloc

/-!
# Cache.Range — which blocks `invalidate_range` reaches

A block stands for an interval of guest code, but `invalidate_range` looks at the key, which is where
the block starts.  A block that starts outside of the range and reaches into it stays, and a block of
no instructions that starts in the range goes.  The blocks that meet the range are gone and the others
stay exactly if neither of the two is there (`range_invalidated_iff`).
-/

namespace Bbarm64

open X86

namespace BlockInfo

/-- The address is one of the guest code of the block. -/
def Covers (info : BlockInfo) (a : Word) : Prop :=
  (a - info.arm_pc).toNat < 4 * info.arm_instr_count.toNat

/-- The guest code of the block meets `[start, end_)`. -/
def Meets (info : BlockInfo) (start end_ : Word) : Prop :=
  ∃ a, start ≤ a ∧ a < end_ ∧ info.Covers a

/-- The block starts in `[start, end_)`. -/
def StartsIn (info : BlockInfo) (start end_ : Word) : Prop :=
  start ≤ info.arm_pc ∧ info.arm_pc < end_

/-- A block meets a range in its own first address or in the first address of the range. -/
theorem meets_iff {info : BlockInfo} {start end_ : Word} (h : start < end_) :
    info.Meets start end_ ↔
      (info.StartsIn start end_ → 0 < info.arm_instr_count.toNat) ∧
      (¬ info.StartsIn start end_ → (start - info.arm_pc).toNat < 4 * info.arm_instr_count.toNat) := by
  rw [BitVec.lt_def] at h
  constructor
  · rintro ⟨a, hlo, hhi, ha⟩
    rw [Covers] at ha
    refine ⟨fun _ => by omega, fun hout => ?_⟩
    -- walking on from the block, the range is entered at its first address
    have hfirst : (start - info.arm_pc).toNat ≤ (a - info.arm_pc).toNat := by
      rw [StartsIn, BitVec.le_def, BitVec.lt_def] at hout
      rw [BitVec.le_def] at hlo
      rw [BitVec.lt_def] at hhi
      rw [BitVec.toNat_sub, BitVec.toNat_sub]
      omega
    exact Nat.lt_of_le_of_lt hfirst ha
  · rintro ⟨hin, hout⟩
    by_cases hs : info.StartsIn start end_
    · refine ⟨info.arm_pc, hs.1, hs.2, ?_⟩
      have hpos := hin hs
      rw [Covers, BitVec.sub_self]
      exact Nat.mul_pos (Nat.zero_lt_succ 3) hpos
    · exact ⟨start, BitVec.le_refl start, h, hout hs⟩

end BlockInfo

namespace TranslationCache

/-! ## Keys -/

/-- Every entry has the address of its block as its key. -/
def OwnKeys (t : TranslationCache) : Prop := ∀ e ∈ t.block_map_, e.2.arm_pc = e.1

section Keys

variable {m : List (Word × BlockInfo)} {t : TranslationCache}

theorem mem_put {k : Word} {info : BlockInfo} {e : Word × BlockInfo} (h : e ∈ put m k info) :
    e = (k, info) ∨ e ∈ m := by
  unfold put at h
  split_ifs at h
  · obtain ⟨old, hold, rfl⟩ := List.mem_map.mp h
    split_ifs
    · exact .inl rfl
    · exact .inr hold
  · exact (List.mem_append.mp h).symm.imp_left List.mem_singleton.mp

theorem mem_of_entry {pc : Word} {info : BlockInfo} (h : entry m pc = some info) : (pc, info) ∈ m := by
  obtain ⟨e, he, rfl⟩ := Option.map_eq_some_iff.mp h
  have hk : e.1 = pc := by simpa using List.find?_some he
  rw [← hk]
  exact List.mem_of_find?_eq_some he

theorem ownKeys_put (h : ∀ e ∈ m, e.2.arm_pc = e.1) {k : Word} {info : BlockInfo}
    (hk : info.arm_pc = k) : ∀ e ∈ put m k info, e.2.arm_pc = e.1 := by
  intro e he
  rcases mem_put he with rfl | he
  · exact hk
  · exact h e he

theorem ownKeys_update (h : ∀ e ∈ m, e.2.arm_pc = e.1) (p : Word → Bool)
    (f : BlockInfo → BlockInfo) (hf : ∀ info, (f info).arm_pc = info.arm_pc) :
    ∀ e ∈ update m p f, e.2.arm_pc = e.1 := by
  intro e he
  obtain ⟨old, hold, rfl⟩ := List.mem_map.mp he
  split_ifs
  · exact (hf old.2).trans (h old hold)
  · exact h old hold

theorem ownKeys_evict_cold (h : t.OwnKeys) : t.evict_cold.OwnKeys := by
  unfold evict_cold
  split
  · exact fun e he => h e (List.mem_filter.mp he).1
  · exact h

/-- Every operation keeps the keys. -/
theorem ownKeys_apply (h : t.OwnKeys) (op : Op) : (t.apply op).OwnKeys := by
  cases op with
  | lookup arm_pc =>
    show (t.lookup arm_pc).2.OwnKeys
    rcases lookup_cases t arm_pc with ⟨info, he, -, hl⟩ | ⟨hl, -⟩
    · rw [hl]
      have hmem : (arm_pc, info) ∈ t.block_map_ := mem_of_entry he
      exact ownKeys_put h (h _ hmem)
    · rw [hl]
      exact h
  | insert arm_pc host_code n k =>
    refine ownKeys_put (m := TranslationCache.block_map_ _) (?_ : OwnKeys _) rfl
    split_ifs
    · exact ownKeys_evict_cold h
    · exact h
  | invalidate arm_pc =>
    exact ownKeys_update h (· = arm_pc) (fun info => { info with is_valid := false }) fun _ => rfl
  | invalidate_range start end_ =>
    exact ownKeys_update h (fun pc => start ≤ pc ∧ pc < end_)
      (fun info => { info with is_valid := false }) fun _ => rfl
  | promote_hot arm_pc =>
    exact ownKeys_update h (· = arm_pc)
      (fun info => { info with is_hot := true, hit_count := HOT_THRESHOLD }) fun _ => rfl
  | evict_cold => exact ownKeys_evict_cold h
  | alloc_host_code size =>
    show ∀ e ∈ (t.alloc_host_code size).2.block_map_, e.2.arm_pc = e.1
    rw [alloc_block_map]
    split_ifs
    · exact ownKeys_evict_cold h
    · exact h

end Keys

/-! ## Behind `invalidate_range` -/

/-- The operation inserts nothing. -/
def NoInsert (op : Op) : Prop := ∀ arm_pc host_code n k, op ≠ .insert arm_pc host_code n k

/-- `invalidate_range(start, end_)` takes the blocks that meet the range: none of them is found until
a new insert, whatever else is done, and every other block is found as before. -/
structure RangeInvalidated (t : TranslationCache) (start end_ : Word) : Prop where
  gone : ∀ es t', Trace (· = t.invalidate_range start end_) Step es t' → (∀ e ∈ es, NoInsert e.2) →
    ∀ pc info, (t'.lookup pc).1 = some info → ¬ info.Meets start end_
  kept : ∀ pc info, (t.lookup pc).1 = some info → ¬ info.Meets start end_ →
    ((t.invalidate_range start end_).lookup pc).1 = some info

/-- The starts of the blocks tell which of them meet `[start, end_)`: a block that starts in the range
has an instruction, and one that starts outside ends before it comes to `start`. -/
def StartsTell (t : TranslationCache) (start end_ : Word) : Prop :=
  ∀ pc info, (t.lookup pc).1 = some info →
    if start ≤ pc ∧ pc < end_ then 0 < info.arm_instr_count.toNat
    else 4 * info.arm_instr_count.toNat ≤ (start - pc).toNat

section Range

variable {t t' : TranslationCache} {start end_ pc : Word} {info : BlockInfo}

/-- A block that is found starts at the key. -/
theorem lookup_arm_pc (h : t.OwnKeys) (hl : (t.lookup pc).1 = some info) : info.arm_pc = pc := by
  rcases lookup_cases t pc with ⟨old, he, -, hfound⟩ | ⟨hnone, -⟩
  · rw [hfound] at hl
    obtain rfl := Option.some.inj hl
    exact h _ (mem_of_entry he)
  · rw [hnone] at hl
    cases hl

/-- Where the starts tell, a block meets the range exactly if it starts in it. -/
theorem meets_iff_of_startsTell (h : t.OwnKeys) (hlt : start < end_) (hs : t.StartsTell start end_)
    (hl : (t.lookup pc).1 = some info) : info.Meets start end_ ↔ start ≤ pc ∧ pc < end_ := by
  have hpc := lookup_arm_pc h hl
  have htell := hs pc info hl
  rw [BlockInfo.meets_iff hlt, BlockInfo.StartsIn, hpc]
  split_ifs at htell with hin
  · exact iff_of_true ⟨fun _ => htell, fun hout => absurd hin hout⟩ hin
  · refine iff_of_false (fun hm => ?_) hin
    exact Nat.not_lt.mpr htell (hm.2 hin)

theorem ownKeys_step {op : Op} (h : t.OwnKeys) (hs : Step t op t') : t'.OwnKeys := by
  obtain ⟨m, hm, rfl⟩ := hs
  exact fun e he => ownKeys_apply h op e (hm.mem_iff.mpr he)

/-- An operation that inserts nothing adds no block. -/
theorem view_step {op : Op} (hn : t.keys.Nodup) (hno : NoInsert op) (hs : Step t op t')
    {block : Translated} (hv : t'.view pc = some block) : t.view pc = some block := by
  obtain ⟨m, hm, rfl⟩ := hs
  have hview : (t.apply op).view pc = some block := by
    rw [← hv, view, view, entry_perm pc hm (apply_nodup hn op)]
  refine (view_of_apply _ hview).resolve_right fun hi => ?_
  cases op with
  | insert arm_pc host_code n k => exact hno arm_pc host_code n k rfl
  | lookup | promote_hot | evict_cold | alloc_host_code => cases hi
  | invalidate | invalidate_range => cases List.mem_singleton.mp hi

/-- The facts of a cache that hold as long as nothing is inserted. -/
structure FoundIn (t t' : TranslationCache) : Prop where
  nodup : t'.keys.Nodup
  ownKeys : t'.OwnKeys
  view : ∀ pc block, t'.view pc = some block → t.view pc = some block

/-- **A run without an insert** finds no other blocks. -/
theorem foundIn_of_run {es : List (TranslationCache × Op)} (h : Trace (· = t) Step es t')
    (hn : t.keys.Nodup) (hk : t.OwnKeys) (hno : ∀ e ∈ es, NoInsert e.2) : FoundIn t t' := by
  refine (h.inv_of_good (I := FoundIn t) (G := fun _ op => NoInsert op) ?_ ?_ hno).2
  · rintro _ rfl
    exact ⟨hn, hk, fun _ _ hv => hv⟩
  · intro s op s' hs hop hstep
    refine ⟨?_, ownKeys_step hs.ownKeys hstep, fun pc block hv => ?_⟩
    · obtain ⟨m, hm, rfl⟩ := hstep
      exact (hm.map _).nodup_iff.mp (apply_nodup hs.nodup op)
    · exact hs.view pc block (view_step hs.nodup hop hstep hv)

/-- The map behind `invalidate_range`. -/
theorem entry_invalidate_range : entry (t.invalidate_range start end_).block_map_ pc =
    (entry t.block_map_ pc).map fun info =>
      if start ≤ pc ∧ pc < end_ then { info with is_valid := false } else info := by
  rw [invalidate_range, entry_update]
  simp only [decide_eq_true_eq]

theorem lookup_invalidate_range_of_in (h : start ≤ pc ∧ pc < end_) :
    ((t.invalidate_range start end_).lookup pc).1 = none := by
  rcases lookup_cases (t.invalidate_range start end_) pc with ⟨info, he, hv, -⟩ | ⟨hl, -⟩
  · rw [entry_invalidate_range, Option.map_eq_some_iff] at he
    obtain ⟨old, -, rfl⟩ := he
    rw [if_pos h] at hv
    cases hv
  · rw [hl]

theorem lookup_invalidate_range_of_out (h : ¬ (start ≤ pc ∧ pc < end_)) :
    ((t.invalidate_range start end_).lookup pc).1 = (t.lookup pc).1 := by
  have hcounter : (t.invalidate_range start end_).access_counter_ = t.access_counter_ := rfl
  refine lookup_congr hcounter ?_
  rw [entry_invalidate_range]
  simp only [if_neg h, Option.map_id']

/-- A block found in one of two caches with the same translation there is found in the other, with the
same guest code. -/
theorem lookup_of_view (hk : t.OwnKeys) (hk' : t'.OwnKeys)
    (hv : ∀ block, t'.view pc = some block → t.view pc = some block)
    (hl : (t'.lookup pc).1 = some info) : ∃ old, (t.lookup pc).1 = some old ∧
      old.arm_pc = info.arm_pc ∧ old.arm_instr_count = info.arm_instr_count := by
  have hinfo := lookup_arm_pc hk' hl
  have hview := t'.lookup_translated pc
  rw [hl, Option.map_some] at hview
  have hold := hv _ hview.symm
  rw [← lookup_translated, Option.map_eq_some_iff] at hold
  obtain ⟨old, hold, htr⟩ := hold
  exact ⟨old, hold, (lookup_arm_pc hk hold).trans hinfo.symm, congrArg Translated.arm_instr_count htr⟩

theorem meets_congr {old : BlockInfo} (hpc : old.arm_pc = info.arm_pc)
    (hcount : old.arm_instr_count = info.arm_instr_count) :
    old.Meets start end_ ↔ info.Meets start end_ := by
  simp only [BlockInfo.Meets, BlockInfo.Covers, hpc, hcount]

theorem startsTell_of_invalidated (hk : t.OwnKeys) (hlt : start < end_)
    (h : RangeInvalidated t start end_) : t.StartsTell start end_ := by
  intro pc info hl
  have hpc := lookup_arm_pc hk hl
  have hmeets : info.Meets start end_ ↔ _ := BlockInfo.meets_iff hlt
  rw [BlockInfo.StartsIn, hpc] at hmeets
  split_ifs with hin
  · -- a block of no instructions would have to stay
    by_contra hzero
    have hstays := h.kept pc info hl fun hm => hzero ((hmeets.mp hm).1 hin)
    rw [lookup_invalidate_range_of_in hin] at hstays
    cases hstays
  · -- a block that comes to `start` would have to go
    have hfound : ((t.invalidate_range start end_).lookup pc).1 = some info :=
      (lookup_invalidate_range_of_out hin).trans hl
    have hno := h.gone [] _ (.nil rfl) (List.forall_mem_nil _) pc info hfound
    by_contra hlong
    exact hno (hmeets.mpr ⟨fun hin' => absurd hin' hin, fun _ => Nat.lt_of_not_le hlong⟩)

theorem invalidated_of_startsTell (hn : t.keys.Nodup) (hk : t.OwnKeys) (hlt : start < end_)
    (h : t.StartsTell start end_) : RangeInvalidated t start end_ := by
  constructor
  · intro es t' hrun hno pc info hl
    have hk₁ : (t.invalidate_range start end_).OwnKeys := ownKeys_apply hk (.invalidate_range start end_)
    have hfound := foundIn_of_run hrun (apply_nodup hn (.invalidate_range start end_)) hk₁ hno
    obtain ⟨old, hold, hpc, hcount⟩ := lookup_of_view hk₁ hfound.ownKeys (hfound.view pc) hl
    by_cases hin : start ≤ pc ∧ pc < end_
    · rw [lookup_invalidate_range_of_in hin] at hold
      cases hold
    · rw [lookup_invalidate_range_of_out hin] at hold
      rw [← meets_congr hpc hcount, meets_iff_of_startsTell hk hlt h hold]
      exact hin
  · intro pc info hl hno
    have hout : ¬ (start ≤ pc ∧ pc < end_) := fun hin =>
      hno ((meets_iff_of_startsTell hk hlt h hl).mpr hin)
    exact (lookup_invalidate_range_of_out hout).trans hl

end Range

theorem runs_ownKeys {capacity : ℕ} {pool : Word} {es : List (TranslationCache × Op)}
    {t : TranslationCache} (h : Runs capacity pool es t) : Trace.Throughout OwnKeys es t := by
  refine h.inv ?_ fun t op t' hk hs => ownKeys_step hk hs
  rintro _ rfl
  exact List.forall_mem_nil _

/-- **Invalidating a range**: in every state of every run, the blocks that meet the range are gone until
a new insert and the others are found as before exactly if the starts of the blocks tell which of them
meet it; and so for the ranges that the run itself invalidated. -/
theorem range_invalidated_iff {capacity : ℕ} {pool : Word} {es : List (TranslationCache × Op)}
    {t : TranslationCache} (h : Runs capacity pool es t) :
    (∀ start end_, start < end_ → (RangeInvalidated t start end_ ↔ t.StartsTell start end_)) ∧
    ((∀ e ∈ es, ∀ start end_, e.2 = .invalidate_range start end_ → start < end_ →
        RangeInvalidated e.1 start end_) ↔
      ∀ e ∈ es, ∀ start end_, e.2 = .invalidate_range start end_ → start < end_ →
        e.1.StartsTell start end_) := by
  have hn := runs_nodup h
  have hk := runs_ownKeys h
  have hiff : ∀ {s : TranslationCache}, s.keys.Nodup → s.OwnKeys → ∀ start end_, start < end_ →
      (RangeInvalidated s start end_ ↔ s.StartsTell start end_) := fun hn hk start end_ hlt =>
    ⟨startsTell_of_invalidated hk hlt, invalidated_of_startsTell hn hk hlt⟩
  refine ⟨hiff hn.2 hk.2, forall₂_congr fun e he => forall₂_congr fun start end_ => ?_⟩
  exact forall₂_congr fun _ hlt => hiff (hn.1 e he) (hk.1 e he) start end_ hlt

/-- `insert` of a block of `n` instructions for `arm_pc`. -/
def insertOf (arm_pc : Word) (n : BitVec 32) : Op := .insert arm_pc 0x10000#64 22#32 n

/-- A block of 4 instructions at the start of the range. -/
theorem range_invalidated_iff_start : ∃ es t, Runs 16 0x10000#64 es t ∧
    es.map (·.2) = [insertOf 0x1000#64 4#32] ∧ 0x1000#64 < 0x2000#64 ∧
    (RangeInvalidated t 0x1000#64 0x2000#64 ↔ t.StartsTell 0x1000#64 0x2000#64) := by
  have h := (runs_init 16 0x10000#64).apply (insertOf 0x1000#64 4#32)
  exact ⟨_, _, h, rfl, by decide, (range_invalidated_iff h).1 _ _ (by decide)⟩

/-- A block of 4 instructions at 0xFF8 is found although its second half is in the range. -/
theorem not_range_invalidated : ∃ es t, Runs 16 0x10000#64 es t ∧
    es.map (·.2) = [insertOf 0xFF8#64 4#32] ∧ 0x1000#64 < 0x2000#64 ∧
    ¬ RangeInvalidated t 0x1000#64 0x2000#64 := by
  have h := (runs_init 16 0x10000#64).apply (insertOf 0xFF8#64 4#32)
  refine ⟨_, _, h, rfl, by decide, fun hr => ?_⟩
  refine hr.gone [] _ (.nil rfl) (List.forall_mem_nil _) 0xFF8#64 _ rfl ?_
  exact ⟨0x1000#64, by decide, by decide, by unfold BlockInfo.Covers; decide⟩

end TranslationCache

end Bbarm64
