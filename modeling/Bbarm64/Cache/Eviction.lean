import Bbarm64.Cache.CacheSize
import Bbarm64.Lib.Recency

/-!
# Cache.Eviction — the block that `evict_cold` takes

`evict_cold` goes by the time stamps and the hot bits in the map.  Over a run they say what the history
says: the stamps are in the order of the last inserts and successful lookups, and a block is hot exactly
if it was promoted, or found a hundred times, since it was inserted (`Aged`).  So the victim is the
least recently used of the blocks that are not hot, whatever the order of the map is (`evict_cold_run`).
-/

namespace Bbarm64

open X86 Recency

namespace TranslationCache

/-! ## The history of a block -/

/-- The key that an insert sets. -/
def Op.inserted : Op → Option Word
  | .insert arm_pc _ _ _ => some arm_pc
  | .lookup _ | .invalidate _ | .invalidate_range _ _ | .promote_hot _ | .evict_cold
  | .alloc_host_code _ => none

section History

variable (pc : Word) (e : TranslationCache × Op)

def Inserts : Prop := e.2.inserted = some pc

/-- The step is a successful lookup of `pc`. -/
def Finds : Prop := e.2 = .lookup pc ∧ (e.1.lookup pc).1.isSome

def Promotes : Prop := e.2 = .promote_hot pc

/-- The step gives the block at `pc` a new time stamp. -/
def Touches : Prop := Inserts pc e ∨ Finds pc e

instance : DecidablePred (Inserts pc) := fun _ => inferInstanceAs (Decidable (_ = _))

instance : DecidablePred (Finds pc) := fun _ => inferInstanceAs (Decidable (_ ∧ _))

instance : DecidablePred (Promotes pc) := fun _ => inferInstanceAs (Decidable (_ = _))

instance : DecidablePred (Touches pc) := fun _ => inferInstanceAs (Decidable (_ ∨ _))

end History

/-- The steps since the last insert of `pc`. -/
def history (es : List (TranslationCache × Op)) (pc : Word) : List (TranslationCache × Op) :=
  since (Inserts pc) es

/-- The successful lookups of `pc` since its last insert. -/
def finds (es : List (TranslationCache × Op)) (pc : Word) : ℕ :=
  (history es pc).countP fun e => Finds pc e

/-- The position of the last insert or successful lookup of `pc`. -/
def lastUse (es : List (TranslationCache × Op)) (pc : Word) : ℕ := lastAt (Touches pc) es

/-- The block at `pc` is valid and, since its last insert, was found fewer than a hundred times and not
promoted. -/
structure Evictable (es : List (TranslationCache × Op)) (t : TranslationCache) (pc : Word) : Prop where
  valid : (t.lookup pc).1.isSome
  few : finds es pc < 100
  kept : ∀ e ∈ history es pc, ¬ Promotes pc e

section Snoc

variable (es : List (TranslationCache × Op)) (e : TranslationCache × Op) (pc : Word)

theorem history_snoc : history (es ++ [e]) pc = if Inserts pc e then [] else history es pc ++ [e] :=
  since_snoc _ es e

theorem finds_snoc : finds (es ++ [e]) pc =
    if Inserts pc e then 0 else finds es pc + if Finds pc e then 1 else 0 := by
  rw [finds, history_snoc]
  split_ifs with hi hf
  · rfl
  · rw [List.countP_append, List.countP_singleton, if_pos (by simpa using hf), finds]
  · rw [List.countP_append, List.countP_singleton, if_neg (by simpa using hf), finds]

end Snoc

/-! ## One operation -/

section Step

variable {t : TranslationCache} {op : Op} {pc : Word} {es : List (TranslationCache × Op)}

/-- The hot bit, the hit count and the time stamp are the same. -/
structure SameUse (info info' : BlockInfo) : Prop where
  hot : info'.is_hot = info.is_hot
  hits : info'.hit_count = info.hit_count
  last : info'.last_access = info.last_access

/-- What `op` makes of the use of a block that is in the map behind it. -/
inductive Ages (t : TranslationCache) (op : Op) (pc : Word) (info' : BlockInfo) : Prop where
  | kept {info : BlockInfo} (hb : entry t.block_map_ pc = some info) (hn : ¬ Touches pc (t, op))
    (hp : ¬ Promotes pc (t, op)) (hs : SameUse info info')
  | promoted {info : BlockInfo} (hb : entry t.block_map_ pc = some info) (hp : Promotes pc (t, op))
    (hhot : info'.is_hot = true) (hhits : info'.hit_count = HOT_THRESHOLD)
    (hlast : info'.last_access = info.last_access)
  | found {info : BlockInfo} (hb : entry t.block_map_ pc = some info) (hf : Finds pc (t, op))
    (he : info' = info.found (t.access_counter_ + 1#64))
  | inserted (hi : Inserts pc (t, op)) (hhot : info'.is_hot = false) (hhits : info'.hit_count = 0#64)
    (hlast : info'.last_access = t.access_counter_ + 1#64)

theorem evict_cold_counter : t.evict_cold.access_counter_ = t.access_counter_ := by
  unfold evict_cold
  split <;> rfl

/-- The entry that was there, its use as it was. -/
theorem Ages.of_entry {info info' : BlockInfo} (hb : entry t.block_map_ pc = some info)
    (hs : SameUse info info') (hi : op.inserted ≠ some pc) (hl : op ≠ .lookup pc)
    (hp : op ≠ .promote_hot pc) : Ages t op pc info' :=
  .kept hb (fun ht => ht.elim hi fun hf => hl hf.1) hp hs

theorem SameUse.rfl {info : BlockInfo} : SameUse info info := ⟨Eq.refl _, Eq.refl _, Eq.refl _⟩

theorem ages_lookup {k : Word} {info' : BlockInfo}
    (h : entry (t.lookup k).2.block_map_ pc = some info') : Ages t (.lookup k) pc info' := by
  rcases lookup_cases t k with ⟨info, he, -, hl⟩ | ⟨hl, -⟩
  · rw [hl] at h
    dsimp only at h
    rw [entry_put] at h
    split_ifs at h with hpc
    · subst hpc
      exact .found he ⟨rfl, by rw [hl]; rfl⟩ (Option.some.inj h).symm
    · exact .of_entry h .rfl nofun (fun ho => hpc (Op.lookup.inj ho).symm) nofun
  · rw [hl] at h
    refine .kept h (fun ht => ?_) nofun .rfl
    rcases ht with hi | ⟨ho, hs⟩
    · cases hi
    · obtain rfl := Op.lookup.inj ho
      rw [hl] at hs
      cases hs

theorem ages_insert {k host_code : Word} {n m : BitVec 32} {info' : BlockInfo}
    (h : entry (t.insert k host_code n m).block_map_ pc = some info') :
    Ages t (.insert k host_code n m) pc info' := by
  have hmap : ∃ l info, (t.insert k host_code n m).block_map_ = put l k info ∧
      info.is_hot = false ∧ info.hit_count = 0#64 ∧ info.last_access = t.access_counter_ + 1#64 ∧
      (entry l pc = none ∨ entry l pc = entry t.block_map_ pc) := by
    unfold insert
    split_ifs
    · exact ⟨_, _, rfl, rfl, rfl, by rw [evict_cold_counter], t.evict_cold_entry pc⟩
    · exact ⟨_, _, rfl, rfl, rfl, rfl, .inr rfl⟩
  obtain ⟨l, info, hm, hhot, hhits, hlast, hl⟩ := hmap
  rw [hm, entry_put] at h
  split_ifs at h with hpc
  · obtain rfl := Option.some.inj h
    exact .inserted (hpc ▸ rfl) hhot hhits hlast
  · rcases hl with hl | hl
    · cases hl.symm.trans h
    · exact .of_entry (hl.symm.trans h) .rfl (fun hi => hpc (Option.some.inj hi).symm) nofun nofun

/-- Eviction, by itself or from `alloc_host_code`. -/
theorem ages_evicting {info' : BlockInfo} (h : entry (t.apply op).block_map_ pc = some info')
    (hm : (t.apply op).block_map_ = t.block_map_ ∨ (t.apply op).block_map_ = t.evict_cold.block_map_)
    (hop : op = .evict_cold ∨ ∃ size, op = .alloc_host_code size) : Ages t op pc info' := by
  have hb : entry t.block_map_ pc = some info' := by
    rcases hm with hm | hm
    · rw [← hm, h]
    · rw [hm] at h
      rcases t.evict_cold_entry pc with he | he
      · cases he.symm.trans h
      · rw [← he, h]
  rcases hop with rfl | ⟨size, rfl⟩
  · exact .of_entry hb .rfl nofun nofun nofun
  · exact .of_entry hb .rfl nofun nofun nofun

/-- An update of the entries that leaves their use alone. -/
theorem ages_update {p : Word → Bool} {f : BlockInfo → BlockInfo} {info' : BlockInfo}
    (h : entry (update t.block_map_ p f) pc = some info') (hf : ∀ info, SameUse info (f info))
    (hi : op.inserted ≠ some pc) (hl : op ≠ .lookup pc) (hp : op ≠ .promote_hot pc) :
    Ages t op pc info' := by
  rw [entry_update] at h
  obtain ⟨info, hb, rfl⟩ := Option.map_eq_some_iff.mp h
  refine .of_entry hb ?_ hi hl hp
  split_ifs
  · exact hf info
  · exact .rfl

theorem ages_promote {k : Word} {info' : BlockInfo}
    (h : entry (t.promote_hot k).block_map_ pc = some info') : Ages t (.promote_hot k) pc info' := by
  rw [promote_hot, entry_update] at h
  obtain ⟨info, hb, rfl⟩ := Option.map_eq_some_iff.mp h
  by_cases hpc : pc = k
  · subst hpc
    simp only [decide_true, if_true]
    exact .promoted hb rfl rfl rfl rfl
  · simp only [hpc, decide_false, Bool.false_eq_true, if_false]
    exact .of_entry hb .rfl nofun nofun fun ho => hpc (Op.promote_hot.inj ho).symm

theorem ages_apply {info' : BlockInfo} (h : entry (t.apply op).block_map_ pc = some info') :
    Ages t op pc info' := by
  cases op with
  | lookup k => exact ages_lookup h
  | insert k host_code n m => exact ages_insert h
  | invalidate k =>
    exact ages_update (p := (· = k)) (f := fun info => { info with is_valid := false }) h
      (fun _ => ⟨rfl, rfl, rfl⟩) nofun nofun nofun
  | invalidate_range start end_ =>
    exact ages_update (p := fun pc => start ≤ pc ∧ pc < end_)
      (f := fun info => { info with is_valid := false }) h (fun _ => ⟨rfl, rfl, rfl⟩) nofun nofun nofun
  | promote_hot k => exact ages_promote h
  | evict_cold => exact ages_evicting h (.inr rfl) (.inl rfl)
  | alloc_host_code size =>
    refine ages_evicting h ?_ (.inr ⟨size, rfl⟩)
    rw [apply, alloc_block_map]
    split_ifs
    · exact .inr rfl
    · exact .inl rfl

/-- The counter goes up exactly with a touch. -/
theorem counter_apply (t : TranslationCache) (op : Op) :
    (∃ k, (∀ pc, Touches pc (t, op) ↔ pc = k) ∧
      (t.apply op).access_counter_ = t.access_counter_ + 1#64) ∨
    ((∀ pc, ¬ Touches pc (t, op)) ∧ (t.apply op).access_counter_ = t.access_counter_) := by
  have hnone : op.inserted = none → (∀ k, op ≠ .lookup k) → ∀ pc, ¬ Touches pc (t, op) := by
    rintro hi hl pc (h | h)
    · cases hi.symm.trans h
    · exact hl pc h.1
  cases op with
  | lookup k =>
    rcases lookup_cases t k with ⟨info, -, -, hl⟩ | ⟨hl, -⟩
    · refine .inl ⟨k, fun pc => ⟨?_, ?_⟩, by rw [apply, hl]⟩
      · rintro (h | h)
        · cases h
        · exact (Op.lookup.inj h.1).symm
      · rintro rfl
        exact .inr ⟨rfl, by rw [hl]; rfl⟩
    · refine .inr ⟨fun pc => ?_, by rw [apply, hl]⟩
      rintro (h | ⟨ho, hs⟩)
      · cases h
      · obtain rfl := Op.lookup.inj ho
        rw [hl] at hs
        cases hs
  | insert k host_code n m =>
    refine .inl ⟨k, fun pc => ⟨?_, ?_⟩, ?_⟩
    · rintro (h | h)
      · exact (Option.some.inj h).symm
      · cases h.1
    · rintro rfl
      exact .inl rfl
    · rw [apply, insert]
      dsimp only
      split_ifs
      · rw [evict_cold_counter]
      · rfl
  | invalidate | invalidate_range | promote_hot => exact .inr ⟨hnone rfl (by simp), rfl⟩
  | evict_cold => exact .inr ⟨hnone rfl (by simp), evict_cold_counter⟩
  | alloc_host_code size =>
    refine .inr ⟨hnone rfl (by simp), ?_⟩
    rw [apply, alloc_host_code]
    dsimp only
    split_ifs
    · exact evict_cold_counter
    · exact evict_cold_counter
    · rfl

end Step

/-! ## Runs -/

/-- The entry of `pc` says how the block was used since its last insert. -/
structure Counted (es : List (TranslationCache × Op)) (pc : Word) (info : BlockInfo) : Prop where
  hot : info.is_hot = true ↔ HOT_THRESHOLD ≤ info.hit_count
  le : info.hit_count.toNat ≤ es.length + 100
  promoted : (∃ e ∈ history es pc, Promotes pc e) → 100 ≤ info.hit_count.toNat
  found : (∀ e ∈ history es pc, ¬ Promotes pc e) → info.hit_count.toNat = finds es pc

/-- The hit counts and the time stamps of the map are those of the run. -/
structure Aged (es : List (TranslationCache × Op)) (t : TranslationCache) : Prop where
  nodup : t.keys.Nodup
  counted : ∀ pc info, entry t.block_map_ pc = some info → Counted es pc info
  stamped : Stamped Touches es t.access_counter_.toNat fun pc =>
    (entry t.block_map_ pc).map (·.last_access.toNat)

section Runs

variable {capacity : ℕ} {pool : Word} {es : List (TranslationCache × Op)} {t : TranslationCache}
  {op : Op} {pc : Word}

theorem hot_iff {n : Word} : HOT_THRESHOLD ≤ n ↔ 100 ≤ n.toNat := BitVec.le_def

/-- A step that does not insert a block at `pc` belongs to its history. -/
theorem forall_history_snoc {e : TranslationCache × Op} (hi : ¬ Inserts pc e)
    {P : TranslationCache × Op → Prop} :
    (∀ x ∈ history (es ++ [e]) pc, P x) ↔ (∀ x ∈ history es pc, P x) ∧ P e := by
  rw [history_snoc, if_neg hi, List.forall_mem_append, List.forall_mem_singleton]

theorem Counted.of_kept {info info' : BlockInfo} (hc : Counted es pc info)
    (hn : ¬ Touches pc (t, op)) (hp : ¬ Promotes pc (t, op)) (hs : SameUse info info') :
    Counted (es ++ [(t, op)]) pc info' := by
  have hi : ¬ Inserts pc (t, op) := fun h => hn (.inl h)
  have hf : ¬ Finds pc (t, op) := fun h => hn (.inr h)
  refine ⟨by rw [hs.hot, hs.hits]; exact hc.hot, ?_, fun ⟨x, hx, hpx⟩ => ?_, fun h => ?_⟩
  · rw [hs.hits, List.length_append, List.length_singleton]
    have hle := hc.le
    omega
  · rw [hs.hits]
    rw [history_snoc, if_neg hi, List.mem_append, List.mem_singleton] at hx
    rcases hx with hx | rfl
    · exact hc.promoted ⟨x, hx, hpx⟩
    · exact absurd hpx hp
  · rw [hs.hits, finds_snoc, if_neg hi, if_neg hf]
    exact hc.found ((forall_history_snoc hi).mp h).1

theorem counted_promoted {info' : BlockInfo} (hp : Promotes pc (t, op)) (hhot : info'.is_hot = true)
    (hhits : info'.hit_count = HOT_THRESHOLD) : Counted (es ++ [(t, op)]) pc info' := by
  have hi : ¬ Inserts pc (t, op) := by
    obtain rfl : op = .promote_hot pc := hp
    exact nofun
  have hhundred : info'.hit_count.toNat = 100 := by
    rw [hhits]
    rfl
  refine ⟨iff_of_true hhot (hhits ▸ BitVec.le_refl _), by omega, fun _ => by omega, fun h => ?_⟩
  exact absurd hp ((forall_history_snoc hi).mp h).2

theorem Counted.of_found {info : BlockInfo} (hlen : es.length < 2 ^ 63) (hc : Counted es pc info)
    (hf : Finds pc (t, op)) (counter : Word) : Counted (es ++ [(t, op)]) pc (info.found counter) := by
  have hop : op = .lookup pc := hf.1
  have hi : ¬ Inserts pc (t, op) := by
    rw [Inserts, hop]
    exact nofun
  have hle := hc.le
  have hhits : (info.found counter).hit_count.toNat = info.hit_count.toNat + 1 := by
    show (info.hit_count + 1#64).toNat = _
    rw [BitVec.toNat_add, BitVec.toNat_ofNat]
    omega
  refine ⟨?_, ?_, fun ⟨x, hx, hpx⟩ => ?_, fun h => ?_⟩
  · rw [hot_iff, hhits]
    show (if info.hit_count + 1#64 ≥ HOT_THRESHOLD then true else info.is_hot) = true ↔ _
    have hthr : info.hit_count + 1#64 ≥ HOT_THRESHOLD ↔ 100 ≤ info.hit_count.toNat + 1 := by
      rw [← hhits]
      exact hot_iff
    split_ifs with h
    · exact iff_of_true rfl (hthr.mp h)
    · rw [hthr] at h
      rw [hc.hot, hot_iff]
      omega
  · rw [hhits, List.length_append, List.length_singleton]
    omega
  · rw [history_snoc, if_neg hi, List.mem_append, List.mem_singleton] at hx
    rcases hx with hx | rfl
    · rw [hhits]
      exact Nat.le_succ_of_le (hc.promoted ⟨x, hx, hpx⟩)
    · cases hop.symm.trans hpx
  · rw [hhits, finds_snoc, if_neg hi, if_pos hf, hc.found ((forall_history_snoc hi).mp h).1]

theorem counted_inserted {info' : BlockInfo} (hi : Inserts pc (t, op)) (hhot : info'.is_hot = false)
    (hhits : info'.hit_count = 0#64) : Counted (es ++ [(t, op)]) pc info' := by
  have hzero : info'.hit_count.toNat = 0 := by
    rw [hhits]
    rfl
  refine ⟨?_, by omega, fun ⟨x, hx, _⟩ => ?_, fun _ => ?_⟩
  · rw [hot_iff, hhot, hzero]
    decide
  · rw [history_snoc, if_pos hi] at hx
    cases hx
  · rw [hzero, finds_snoc, if_pos hi]

theorem Counted.snoc {info' : BlockInfo} (hlen : es.length < 2 ^ 63)
    (h : ∀ info, entry t.block_map_ pc = some info → Counted es pc info) (ha : Ages t op pc info') :
    Counted (es ++ [(t, op)]) pc info' := by
  cases ha with
  | kept hb hn hp hs => exact (h _ hb).of_kept hn hp hs
  | promoted _ hp hhot hhits _ => exact counted_promoted hp hhot hhits
  | found hb hf he =>
    rw [he]
    exact (h _ hb).of_found hlen hf _
  | inserted hi hhot hhits _ => exact counted_inserted hi hhot hhits

/-- The time stamp of an entry: the old one, or the next one with a touch. -/
theorem Ages.last {info' : BlockInfo} (ha : Ages t op pc info') :
    (¬ Touches pc (t, op) ∧ ∃ info, entry t.block_map_ pc = some info ∧
      info'.last_access = info.last_access) ∨
    Touches pc (t, op) ∧ info'.last_access = t.access_counter_ + 1#64 := by
  cases ha with
  | kept hb hn _ hs => exact .inl ⟨hn, _, hb, hs.last⟩
  | promoted hb hp _ _ hlast =>
    obtain rfl : op = .promote_hot pc := hp
    exact .inl ⟨nofun, _, hb, hlast⟩
  | found _ hf he =>
    rw [he]
    exact .inr ⟨.inr hf, rfl⟩
  | inserted hi _ _ hlast => exact .inr ⟨.inl hi, hlast⟩

theorem Aged.apply (hlen : es.length < 2 ^ 63) (h : Aged es t) (op : Op) :
    Aged (es ++ [(t, op)]) (t.apply op) := by
  refine ⟨apply_nodup h.nodup op, fun pc info hi => ?_, ?_⟩
  · exact .snoc hlen (h.counted pc) (ages_apply hi)
  have hle := h.stamped.counter_le
  rcases counter_apply t op with ⟨k, hk, hc⟩ | ⟨hno, hc⟩
  · have hnat : (t.access_counter_ + 1#64).toNat = t.access_counter_.toNat + 1 := by
      rw [BitVec.toNat_add, BitVec.toNat_ofNat]
      omega
    rw [hc, hnat]
    refine h.stamped.touch hk fun pc s hs => ?_
    obtain ⟨info, hi, rfl⟩ := Option.map_eq_some_iff.mp hs
    rcases (ages_apply hi).last with ⟨hn, old, hb, hlast⟩ | ⟨ht, hlast⟩
    · refine .inr ⟨fun hpc => hn ((hk pc).mpr hpc), ?_⟩
      rw [hb, Option.map_some, hlast]
    · exact .inl ⟨(hk pc).mp ht, by rw [hlast, hnat]⟩
  · rw [hc]
    refine h.stamped.skip hno fun pc s hs => ?_
    obtain ⟨info, hi, rfl⟩ := Option.map_eq_some_iff.mp hs
    rcases (ages_apply hi).last with ⟨-, old, hb, hlast⟩ | ⟨ht, -⟩
    · rw [hb, Option.map_some, hlast]
    · exact absurd ht (hno pc)

theorem Aged.reorder (h : Aged es t) {m : List (Word × BlockInfo)} (hm : t.block_map_.Perm m) :
    Aged es { t with block_map_ := m } := by
  have he : ∀ pc, entry m pc = entry t.block_map_ pc := fun pc => entry_perm pc hm h.nodup
  refine ⟨(hm.map _).nodup_iff.mp h.nodup, ?_, ?_⟩
  · intro pc info hi
    exact h.counted pc info ((he pc).symm.trans hi)
  · simp only [he]
    exact h.stamped

theorem runs_aged (h : Runs capacity pool es t) (hlen : es.length < 2 ^ 63) : Aged es t := by
  induction h with
  | nil h =>
    rw [h]
    exact ⟨List.nodup_nil, nofun, stamped_nil⟩
  | @snoc es s t op _ ht ih =>
    rw [List.length_append, List.length_singleton] at hlen
    obtain ⟨m, hm, rfl⟩ := ht
    exact ((ih (by omega)).apply (by omega) op).reorder hm

/-! ## The victim -/

theorem Counted.not_hot_iff {info : BlockInfo} (h : Counted es pc info) :
    info.is_hot = false ↔ finds es pc < 100 ∧ ∀ e ∈ history es pc, ¬ Promotes pc e := by
  rw [← Bool.not_eq_true, h.hot, hot_iff]
  by_cases hp : ∃ e ∈ history es pc, Promotes pc e
  · have hle := h.promoted hp
    obtain ⟨e, he, hpe⟩ := hp
    exact iff_of_false (not_not.mpr hle) fun hf => hf.2 e he hpe
  · have hno : ∀ e ∈ history es pc, ¬ Promotes pc e := fun e he hpe => hp ⟨e, he, hpe⟩
    rw [h.found hno, Nat.not_le, and_iff_left hno]

/-- The blocks that may go, by the history and by the entries. -/
theorem Aged.evictable_iff (h : Aged es t) (hlen : es.length < 2 ^ 63) : Evictable es t pc ↔
    ∃ info, entry t.block_map_ pc = some info ∧ Cold (BitVec.allOnes 64) info := by
  have hstamp : ∀ info, entry t.block_map_ pc = some info → info.last_access < BitVec.allOnes 64 := by
    intro info hi
    have hle := h.stamped.le pc info.last_access.toNat (by rw [hi]; rfl)
    have hcounter := h.stamped.counter_le
    rw [BitVec.lt_def, BitVec.toNat_allOnes]
    omega
  constructor
  · rintro ⟨hvalid, hfew, hkept⟩
    obtain ⟨info, hi, hv⟩ := lookup_isSome_iff.mp hvalid
    exact ⟨info, hi, (h.counted pc info hi).not_hot_iff.mpr ⟨hfew, hkept⟩, hv, hstamp info hi⟩
  · rintro ⟨info, hi, hhot, hv, -⟩
    obtain ⟨hfew, hkept⟩ := (h.counted pc info hi).not_hot_iff.mp hhot
    exact ⟨lookup_isSome_iff.mpr ⟨info, hi, hv⟩, hfew, hkept⟩

/-- The cache without the entry of `v`, which was there. -/
structure Erases (v : Word) (t t' : TranslationCache) : Prop where
  eq : t' = { t with block_map_ := t.block_map_.filter (·.1 ≠ v) }
  size : t'.size + 1 = t.size

/-- `v` may go, and everything else that may was used after it. -/
structure Oldest (es : List (TranslationCache × Op)) (t : TranslationCache) (v : Word) : Prop where
  evictable : Evictable es t v
  lt : ∀ pc, Evictable es t pc → pc ≠ v → lastUse es v < lastUse es pc

theorem Oldest.unique {v v' : Word} (h : Oldest es t v) (h' : Oldest es t v') : v = v' := by
  by_contra hne
  have h₁ := h.lt v' h'.evictable (Ne.symm hne)
  have h₂ := h'.lt v h.evictable hne
  omega

theorem Aged.evict_cold_eq_self (h : Aged es t) (hlen : es.length < 2 ^ 63)
    (hno : ∀ pc, ¬ Evictable es t pc) : t.evict_cold = t := by
  refine TranslationCache.evict_cold_eq_self ?_
  rintro ⟨⟨pc, info⟩, hmem, hc⟩
  exact hno pc ((h.evictable_iff hlen).mpr ⟨info, (entry_eq_some_iff pc h.nodup).mpr hmem, hc⟩)

theorem Aged.evict_cold_oldest (h : Aged es t) (hlen : es.length < 2 ^ 63)
    (hev : ∃ pc, Evictable es t pc) : ∃ v, Oldest es t v ∧ Erases v t t.evict_cold := by
  have hmem : ∀ {pc info}, entry t.block_map_ pc = some info ↔ (pc, info) ∈ t.block_map_ :=
    entry_eq_some_iff _ h.nodup
  obtain ⟨pc, hpc⟩ := hev
  obtain ⟨info, hi, hc⟩ := (h.evictable_iff hlen).mp hpc
  have hvictim : HasVictim t.block_map_ := ⟨(pc, info), hmem.mp hi, hc⟩
  obtain ⟨⟨v, old⟩, he, hcold, hmin, hev⟩ := evict_cold_victim hvictim
  have hold : entry t.block_map_ v = some old := hmem.mpr he
  refine ⟨v, ⟨(h.evictable_iff hlen).mpr ⟨old, hold, hcold⟩, fun pc' hpc' hne => ?_⟩, hev,
    size_evict_cold h.nodup hvictim⟩
  obtain ⟨info', hi', hc'⟩ := (h.evictable_iff hlen).mp hpc'
  -- the stamps are distinct, so the smallest is below the other ones
  have hle : old.last_access.toNat ≤ info'.last_access.toNat :=
    BitVec.le_def.mp (hmin _ (hmem.mp hi') hc')
  have hstamp : (entry t.block_map_ v).map (·.last_access.toNat) = some old.last_access.toNat := by
    rw [hold]
    rfl
  have hstamp' : (entry t.block_map_ pc').map (·.last_access.toNat) =
      some info'.last_access.toNat := by
    rw [hi']
    rfl
  refine (h.stamped.lt_iff v pc' _ _ hstamp hstamp').mp (Nat.lt_of_le_of_ne hle fun heq => hne ?_)
  exact h.stamped.inj pc' v _ hstamp' (heq ▸ hstamp)

theorem Aged.evictable_reorder (h : Aged es t) {m : List (Word × BlockInfo)}
    (hm : t.block_map_.Perm m) : Evictable es { t with block_map_ := m } pc ↔ Evictable es t pc := by
  have hvalid : (lookup { t with block_map_ := m } pc).1.isSome ↔ (t.lookup pc).1.isSome := by
    rw [lookup_isSome_iff, lookup_isSome_iff, entry_perm pc hm h.nodup]
  exact ⟨fun he => ⟨hvalid.mp he.valid, he.few, he.kept⟩, fun he => ⟨hvalid.mpr he.valid, he.few, he.kept⟩⟩

/-- The order of the map does not matter. -/
theorem Aged.evict_cold_reorder (h : Aged es t) (hlen : es.length < 2 ^ 63)
    {m : List (Word × BlockInfo)} (hm : t.block_map_.Perm m) :
    t.evict_cold.block_map_.Perm (evict_cold { t with block_map_ := m }).block_map_ := by
  have h' := h.reorder hm
  by_cases hev : ∃ pc, Evictable es t pc
  · have hev' := hev.imp fun pc hpc => (h.evictable_reorder hm).mpr hpc
    obtain ⟨v, hv, he⟩ := h.evict_cold_oldest hlen hev
    obtain ⟨v', hv', he'⟩ := h'.evict_cold_oldest hlen hev'
    have hold : Oldest es t v' := ⟨(h.evictable_reorder hm).mp hv'.evictable,
      fun pc hpc hne => hv'.lt pc ((h.evictable_reorder hm).mpr hpc) hne⟩
    rw [he.eq, he'.eq, hv.unique hold]
    exact hm.filter _
  · have hno : ∀ pc, ¬ Evictable es t pc := not_exists.mp hev
    rw [h.evict_cold_eq_self hlen hno,
      h'.evict_cold_eq_self hlen fun pc hpc => hno pc ((h.evictable_reorder hm).mp hpc)]
    exact hm

theorem Aged.hot_stays (h : Aged es t) (hlen : es.length < 2 ^ 63) {info : BlockInfo}
    (hi : entry t.block_map_ pc = some info) (hhot : info.is_hot = true) :
    entry t.evict_cold.block_map_ pc = some info := by
  by_cases hev : ∃ pc, Evictable es t pc
  · obtain ⟨v, hv, he⟩ := h.evict_cold_oldest hlen hev
    have hne : pc ≠ v := by
      rintro rfl
      obtain ⟨info', hi', hc⟩ := (h.evictable_iff hlen).mp hv.evictable
      obtain rfl := Option.some.inj (hi.symm.trans hi')
      cases hhot.symm.trans hc.1
    rw [he.eq, entry_erase, if_neg hne, hi]
  · rw [h.evict_cold_eq_self hlen (not_exists.mp hev), hi]

/-- The operation calls `evict_cold`. -/
def Evicts (t : TranslationCache) : Op → Prop
  | .evict_cold => True
  | .insert _ _ _ _ => t.block_map_.length ≥ t.capacity_
  | .alloc_host_code size => (t.code_pool_used_ + size) % 2 ^ 64 > t.code_pool_size_
  | .lookup _ | .invalidate _ | .invalidate_range _ _ | .promote_hot _ => False

/-- All three callers evict first; an insert then sets its key. -/
theorem entry_evicts (h : t.Evicts op) (hi : op.inserted ≠ some pc) :
    entry (t.apply op).block_map_ pc = entry t.evict_cold.block_map_ pc := by
  cases op with
  | evict_cold => rfl
  | insert k host_code n m =>
    have hpc : pc ≠ k := fun hpc => hi (congrArg some hpc.symm)
    have hfull : t.block_map_.length ≥ t.capacity_ := h
    rw [apply, insert, if_pos hfull]
    dsimp only
    rw [entry_put, if_neg hpc]
  | alloc_host_code size =>
    have hfull : (t.code_pool_used_ + size) % 2 ^ 64 > t.code_pool_size_ := h
    rw [apply, alloc_block_map, if_pos hfull]
  | lookup | invalidate | invalidate_range | promote_hot => exact h.elim

/-- **Eviction in a run**: `evict_cold` erases the least recently used of the valid blocks that since
their insert were found fewer than a hundred times and not promoted, and nothing if there is none; so it
does from its three callers.  The order of the map does not matter, and a hot block stays. -/
theorem evict_cold_run (h : Runs capacity pool es t) (hlen : es.length < 2 ^ 63) :
    ((∃ pc, Evictable es t pc) → ∃ v, Oldest es t v ∧ Erases v t t.evict_cold) ∧
    ((∀ pc, ¬ Evictable es t pc) → t.evict_cold = t) ∧
    (∀ op, t.Evicts op → ∀ pc, op.inserted ≠ some pc →
      entry (t.apply op).block_map_ pc = entry t.evict_cold.block_map_ pc) ∧
    (∀ m, t.block_map_.Perm m →
      t.evict_cold.block_map_.Perm (evict_cold { t with block_map_ := m }).block_map_) ∧
    ∀ pc info, entry t.block_map_ pc = some info →
      (info.is_hot = true ↔ HOT_THRESHOLD ≤ info.hit_count) ∧
      (info.is_hot = true → entry t.evict_cold.block_map_ pc = some info) := by
  have ha := runs_aged h hlen
  refine ⟨ha.evict_cold_oldest hlen, ha.evict_cold_eq_self hlen, fun op ho pc => entry_evicts ho,
    fun m hm => ha.evict_cold_reorder hlen hm, fun pc info hi => ?_⟩
  exact ⟨(ha.counted pc info hi).hot, ha.hot_stays hlen hi⟩

/-- Of two blocks the one that was looked up stays. -/
theorem evict_cold_run_lookup : ∃ es t, Runs 2 0x10000#64 es t ∧
    es.map (·.2) = [insertAt 0x1000#64, insertAt 0x2000#64, .lookup 0x1000#64] ∧
    ∃ v, Oldest es t v ∧ Erases v t t.evict_cold := by
  have h := (((runs_init 2 0x10000#64).apply (insertAt 0x1000#64)).apply (insertAt 0x2000#64)).apply
    (.lookup 0x1000#64)
  exact ⟨_, _, h, rfl, (evict_cold_run h (by decide)).1 ⟨0x2000#64, by decide, by decide, by decide⟩⟩

end Runs

end TranslationCache

end Bbarm64
