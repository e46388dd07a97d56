import Bbarm64.Cache.TranslationCache
import Bbarm64.Lib.KeyedLog

/-!
# Cache.CacheLog — the cache as the replay of its log

The log of a run of cache operations records what each did to the set of blocks: the inserts, the
invalidations, and the keys whose entries it erased.  The blocks that `lookup` finds are those of
the replayed log (`view_run`): invalid entries stay in the map but count as dropped, and an insert
brings them back.  The iteration order of the map is arbitrary, so a run may permute it at any time.
-/

namespace Bbarm64

open X86 KeyedLog

/-- What `insert` records of a translation. -/
structure Translated where
  host_code : Word
  host_code_size : BitVec 32
  arm_instr_count : BitVec 32
  deriving DecidableEq, Repr

def BlockInfo.translated (info : BlockInfo) : Translated :=
  ⟨info.host_code, info.host_code_size, info.arm_instr_count⟩

/-- The entry of a block that was looked up, with its new time stamp. -/
def BlockInfo.found (info : BlockInfo) (counter : Word) : BlockInfo :=
  let hits := info.hit_count + 1#64
  { info with
    hit_count := hits, last_access := counter,
    is_hot := if hits ≥ TranslationCache.HOT_THRESHOLD then true else info.is_hot }

namespace TranslationCache

/-! ## Entries -/

/-- `block_map_.find(arm_pc)` -/
def entry (m : List (Word × BlockInfo)) (arm_pc : Word) : Option BlockInfo :=
  (m.find? (·.1 = arm_pc)).map (·.2)

section Entry

variable (m : List (Word × BlockInfo)) (pc : Word)

@[simp] theorem entry_nil : entry [] pc = none := rfl

theorem entry_cons (e : Word × BlockInfo) :
    entry (e :: m) pc = if e.1 = pc then some e.2 else entry m pc := by
  unfold entry
  by_cases h : e.1 = pc <;> simp [h]

theorem entry_isSome : (entry m pc).isSome ↔ pc ∈ m.map (·.1) := by
  induction m with
  | nil => simp
  | cons e m ih =>
    rw [entry_cons, List.map_cons, List.mem_cons, ← ih]
    by_cases h : e.1 = pc
    · simp [h]
    · simp [h, Ne.symm h]

theorem entry_update (p : Word → Bool) (f : BlockInfo → BlockInfo) :
    entry (update m p f) pc = (entry m pc).map fun info => if p pc then f info else info := by
  unfold update
  induction m with
  | nil => rfl
  | cons e m ih =>
    rw [List.map_cons, entry_cons, entry_cons, ih]
    by_cases h : e.1 = pc
    · subst h
      by_cases hp : p e.1 = true <;> simp [hp]
    · have h' : (if p e.1 = true then (e.1, f e.2) else e).1 ≠ pc := by
        split_ifs <;> exact h
      rw [if_neg h, if_neg h']

theorem entry_erase (k : Word) :
    entry (m.filter (·.1 ≠ k)) pc = if pc = k then none else entry m pc := by
  induction m with
  | nil => simp
  | cons e m ih =>
    by_cases hk : e.1 = k
    · rw [List.filter_cons_of_neg (by simpa using hk), ih, entry_cons]
      by_cases hpc : pc = k
      · rw [if_pos hpc, if_pos hpc]
      · have he : e.1 ≠ pc := fun h => hpc (h.symm.trans hk)
        rw [if_neg hpc, if_neg hpc, if_neg he]
    · rw [List.filter_cons_of_pos (by simpa using hk), entry_cons, entry_cons, ih]
      by_cases he : e.1 = pc
      · have hpc : pc ≠ k := fun h => hk (he.trans h)
        rw [if_pos he, if_pos he, if_neg hpc]
      · rw [if_neg he, if_neg he]

theorem entry_put (k : Word) (info : BlockInfo) :
    entry (put m k info) pc = if pc = k then some info else entry m pc := by
  have hsnoc : entry (m ++ [(k, info)]) pc =
      (entry m pc).or (if k = pc then some info else none) := by
    unfold entry
    rw [List.find?_append, Option.map_or]
    by_cases h : k = pc <;> simp [h]
  have hmap : entry (m.map fun e => if e.1 = k then (k, info) else e) pc =
      (entry m pc).map fun old => if pc = k then info else old := by
    have h := entry_update m pc (· = k) fun _ => info
    simp only [decide_eq_true_eq] at h
    rw [← h, update]
    congr 2
    funext e
    by_cases he : e.1 = k
    · simp [he]
    · simp [he]
  unfold put
  by_cases hk : k ∈ m.map (·.1)
  · have hany : m.any (fun e => e.1 = k) = true := by simpa using hk
    rw [if_pos hany, hmap]
    by_cases hpc : pc = k
    · subst hpc
      obtain ⟨old, ho⟩ := Option.isSome_iff_exists.mp ((entry_isSome m pc).mpr hk)
      simp [ho]
    · simp [hpc]
  · have hany : ¬ m.any (fun e => e.1 = k) = true := by simpa using hk
    rw [if_neg hany, hsnoc]
    by_cases hpc : pc = k
    · subst hpc
      have hn : entry m pc = none := by
        rwa [← entry_isSome, Option.not_isSome_iff_eq_none] at hk
      simp [hn]
    · simp [hpc, Ne.symm hpc]

variable {m}

/-- The order of the entries does not matter, as each key has one entry. -/
theorem entry_perm {m' : List (Word × BlockInfo)} (hp : m.Perm m') (hn : (m.map (·.1)).Nodup) :
    entry m' pc = entry m pc := by
  induction hp with
  | nil => rfl
  | cons e _ ih => rw [entry_cons, entry_cons, ih (List.nodup_cons.mp hn).2]
  | swap e e' m =>
    have hne : e'.1 ≠ e.1 := by
      rintro h
      exact (List.nodup_cons.mp hn).1 (by simp [h])
    rw [entry_cons, entry_cons, entry_cons, entry_cons]
    by_cases h : e.1 = pc
    · have h' : e'.1 ≠ pc := fun h' => hne (h'.trans h.symm)
      rw [if_pos h, if_neg h', if_pos h]
    · rw [if_neg h, if_neg h]
  | trans h₁ _ ih₁ ih₂ => rw [ih₂ ((h₁.map _).nodup_iff.mp hn), ih₁ hn]

theorem entry_eq_some_iff (hn : (m.map (·.1)).Nodup) {info : BlockInfo} :
    entry m pc = some info ↔ (pc, info) ∈ m := by
  induction m with
  | nil => simp
  | cons e m ih =>
    obtain ⟨k, old⟩ := e
    obtain ⟨hk, hn⟩ := List.nodup_cons.mp hn
    rw [entry_cons, List.mem_cons]
    by_cases h : k = pc
    · subst h
      have hno : (k, info) ∉ m := fun hm => hk (List.mem_map.mpr ⟨_, hm, rfl⟩)
      simp [hno, eq_comm]
    · rw [if_neg h, ih hn]
      simp [Ne.symm h]

/-- **lookup**: the block of a valid entry is found; otherwise nothing changes. -/
theorem lookup_cases (t : TranslationCache) (pc : Word) :
    (∃ info, entry t.block_map_ pc = some info ∧ info.is_valid = true ∧
      t.lookup pc = (some (info.found (t.access_counter_ + 1#64)), { t with
        block_map_ := put t.block_map_ pc (info.found (t.access_counter_ + 1#64)),
        access_counter_ := t.access_counter_ + 1#64 })) ∨
    (t.lookup pc = (none, t) ∧ ∀ info, entry t.block_map_ pc = some info → info.is_valid = false) := by
  unfold lookup entry
  cases t.block_map_.find? (·.1 = pc) with
  | none => exact .inr ⟨rfl, nofun⟩
  | some e =>
    dsimp only
    by_cases hv : e.2.is_valid = true
    · rw [if_pos hv]
      exact .inl ⟨e.2, rfl, hv, rfl⟩
    · rw [if_neg hv]
      refine .inr ⟨rfl, fun info he => ?_⟩
      rw [← Option.some.inj he]
      simpa using hv

theorem lookup_isSome_iff {t : TranslationCache} {pc : Word} :
    (t.lookup pc).1.isSome ↔ ∃ info, entry t.block_map_ pc = some info ∧ info.is_valid = true := by
  rcases lookup_cases t pc with ⟨info, he, hv, hl⟩ | ⟨hl, hno⟩
  · rw [hl]
    exact iff_of_true rfl ⟨info, he, hv⟩
  · rw [hl]
    refine iff_of_false nofun ?_
    rintro ⟨info, he, hv⟩
    cases (hno info he).symm.trans hv

end Entry

/-! ## Operations and the log -/

/-- The public operations on the block map and the pool. -/
inductive Op where
  | lookup (arm_pc : Word)
  | insert (arm_pc host_code : Word) (host_code_size arm_instr_count : BitVec 32)
  | invalidate (arm_pc : Word)
  | invalidate_range (start end_ : Word)
  | promote_hot (arm_pc : Word)
  | evict_cold
  | alloc_host_code (size : ℕ)
  deriving DecidableEq, Repr

/-- The cache after an operation. -/
def apply (t : TranslationCache) : Op → TranslationCache
  | .lookup arm_pc => (t.lookup arm_pc).2
  | .insert arm_pc host_code host_code_size arm_instr_count =>
    t.insert arm_pc host_code host_code_size arm_instr_count
  | .invalidate arm_pc => t.invalidate arm_pc
  | .invalidate_range start end_ => t.invalidate_range start end_
  | .promote_hot arm_pc => t.promote_hot arm_pc
  | .evict_cold => t.evict_cold
  | .alloc_host_code size => (t.alloc_host_code size).2

/-- What a log records. -/
inductive Event where
  | insert (arm_pc : Word) (block : Translated)
  | invalidate (arm_pc : Word)
  | invalidate_range (start end_ : Word)
  | evict (arm_pc : Word)
  deriving DecidableEq, Repr

namespace Event

/-- The event ends the block at `pc`: it is invalidated, by its key or in a range, or evicted. -/
def Removes (e : Event) (pc : Word) : Prop :=
  match e with
  | .insert _ _ => False
  | .invalidate arm_pc => pc = arm_pc
  | .invalidate_range start end_ => start ≤ pc ∧ pc < end_
  | .evict arm_pc => pc = arm_pc

/-- The event inserts a block at `pc`. -/
def Inserts (e : Event) (pc : Word) : Prop := ∃ block, e = .insert pc block

/-- The event as an update of the keyed store. -/
def toUpdate : Event → Update Word Translated
  | .insert arm_pc block => .set arm_pc block
  | .invalidate arm_pc => .drop (· = arm_pc)
  | .invalidate_range start end_ => .drop fun pc => start ≤ pc ∧ pc < end_
  | .evict arm_pc => .drop (· = arm_pc)

theorem drops_toUpdate {e : Event} {pc : Word} : e.toUpdate.Drops pc ↔ e.Removes pc := by
  cases e <;> simp [toUpdate, Update.Drops, Removes]

theorem sets_toUpdate {e : Event} {pc : Word} : e.toUpdate.Sets pc ↔ e.Inserts pc := by
  cases e <;> simp [toUpdate, Update.Sets, Inserts]

theorem toUpdate_eq_set {e : Event} {pc : Word} {block : Translated} :
    e.toUpdate = .set pc block ↔ e = .insert pc block := by
  cases e <;> simp [toUpdate]

end Event

/-- The event of the operation itself. -/
def Op.events : Op → List Event
  | .insert arm_pc host_code host_code_size arm_instr_count =>
    [.insert arm_pc ⟨host_code, host_code_size, arm_instr_count⟩]
  | .invalidate arm_pc => [.invalidate arm_pc]
  | .invalidate_range start end_ => [.invalidate_range start end_]
  | .lookup _ | .promote_hot _ | .evict_cold | .alloc_host_code _ => []

def keys (t : TranslationCache) : List Word := t.block_map_.map (·.1)

/-- The keys whose entries the operation erased. -/
def evicted (t : TranslationCache) (op : Op) : List Word :=
  t.keys.filter fun pc => (entry (t.apply op).block_map_ pc).isNone

def log (t : TranslationCache) (op : Op) : List Event := (t.evicted op).map .evict ++ op.events

/-- The states of a cache with their logs: from the initial state by operations, the map being
iterated in any order. -/
inductive Run (capacity : ℕ) (pool : Word) : List Event → TranslationCache → Prop where
  | init : Run capacity pool [] (TranslationCache.init capacity pool)
  | op {es : List Event} {t : TranslationCache} (op : Op) (h : Run capacity pool es t) :
    Run capacity pool (es ++ t.log op) (t.apply op)
  | reorder {es : List Event} {t : TranslationCache} {m : List (Word × BlockInfo)}
    (hm : t.block_map_.Perm m) (h : Run capacity pool es t) :
    Run capacity pool es { t with block_map_ := m }

/-! ## One operation -/

/-- What `op` makes of the entry of `pc`. -/
inductive Change (op : Op) (pc : Word) (before : Option BlockInfo) : Option BlockInfo → Prop where
  | inserted {info : BlockInfo} (he : op.events = [.insert pc info.translated])
    (hv : info.is_valid = true) : Change op pc before (some info)
  | absent (hi : ∀ e ∈ op.events, ¬ e.Inserts pc) : Change op pc before none
  | kept {info info' : BlockInfo} (hi : ∀ e ∈ op.events, ¬ e.Inserts pc) (hb : before = some info)
    (ht : info'.translated = info.translated)
    (hv : info'.is_valid = true ↔ info.is_valid = true ∧ ∀ e ∈ op.events, ¬ e.Removes pc) :
    Change op pc before (some info')

section Step

variable (t : TranslationCache) {op : Op} {pc : Word}

/-- An update of the valid bit, the counters or the hot bit. -/
theorem Change.of_map {f : BlockInfo → BlockInfo} (hi : ∀ e ∈ op.events, ¬ e.Inserts pc)
    (ht : ∀ info, (f info).translated = info.translated)
    (hv : ∀ info, (f info).is_valid = true ↔
      info.is_valid = true ∧ ∀ e ∈ op.events, ¬ e.Removes pc) {before : Option BlockInfo} :
    Change op pc before (before.map f) := by
  cases before with
  | none => exact .absent hi
  | some info => exact .kept hi rfl (ht info) (hv info)

theorem Change.of_eq (hi : op.events = []) {before : Option BlockInfo} :
    Change op pc before before := by
  have h : Change op pc before (before.map id) :=
    .of_map (by simp [hi]) (fun _ => rfl) (by simp [hi])
  rwa [Option.map_id] at h

/-- Eviction erases an entry or nothing. -/
theorem evict_cold_entry (pc : Word) : entry t.evict_cold.block_map_ pc = none ∨
    entry t.evict_cold.block_map_ pc = entry t.block_map_ pc := by
  unfold evict_cold
  split
  · rename_i k _
    rw [entry_erase]
    split_ifs
    · exact .inl rfl
    · exact .inr rfl
  · exact .inr rfl

theorem change_lookup (arm_pc : Word) :
    Change (.lookup arm_pc) pc (entry t.block_map_ pc) (entry (t.lookup arm_pc).2.block_map_ pc) := by
  rcases lookup_cases t arm_pc with ⟨info, he, -, hl⟩ | ⟨hl, -⟩
  · rw [hl]
    dsimp only
    rw [entry_put]
    by_cases hpc : pc = arm_pc
    · rw [if_pos hpc, hpc, he]
      exact .kept nofun rfl rfl ⟨fun h => ⟨h, nofun⟩, fun h => h.1⟩
    · rw [if_neg hpc]
      exact .of_eq rfl
  · rw [hl]
    exact .of_eq rfl

theorem change_evicting {t' : TranslationCache} (hi : op.events = [])
    (h : t'.block_map_ = t.block_map_ ∨ t'.block_map_ = t.evict_cold.block_map_) :
    Change op pc (entry t.block_map_ pc) (entry t'.block_map_ pc) := by
  rcases h with h | h
  · rw [h]
    exact .of_eq hi
  · rw [h]
    rcases t.evict_cold_entry pc with he | he
    · rw [he]
      exact .absent (by simp [hi])
    · rw [he]
      exact .of_eq hi

theorem change_insert (arm_pc host_code : Word) (n k : BitVec 32) :
    Change (.insert arm_pc host_code n k) pc (entry t.block_map_ pc)
      (entry (t.insert arm_pc host_code n k).block_map_ pc) := by
  have hmap : ∃ m info, (t.insert arm_pc host_code n k).block_map_ = put m arm_pc info ∧
      info.translated = ⟨host_code, n, k⟩ ∧ info.is_valid = true ∧
      (entry m pc = none ∨ entry m pc = entry t.block_map_ pc) := by
    refine ⟨_, _, rfl, rfl, rfl, ?_⟩
    split_ifs
    · exact t.evict_cold_entry pc
    · exact .inr rfl
  obtain ⟨m, info, hm, ht, hv, he⟩ := hmap
  rw [hm, entry_put]
  split_ifs with hpc
  · subst hpc
    exact .inserted (by rw [ht]; rfl) hv
  · have hi : ∀ e ∈ (Op.insert arm_pc host_code n k).events, ¬ e.Inserts pc := by
      simp only [Op.events, List.mem_singleton, forall_eq]
      rintro ⟨block, h⟩
      exact hpc (Event.insert.inj h).1.symm
    rcases he with he | he
    · rw [he]
      exact .absent hi
    · rw [he]
      have h := @Change.of_map _ pc id hi (fun _ => rfl) (by simp [Op.events, Event.Removes])
        (entry t.block_map_ pc)
      rwa [Option.map_id] at h

theorem change_update (p : Word → Bool) (f : BlockInfo → BlockInfo)
    (hm : (t.apply op).block_map_ = update t.block_map_ p f)
    (hi : ∀ e ∈ op.events, ¬ e.Inserts pc) (ht : ∀ info, (f info).translated = info.translated)
    (hv : ∀ info, (if p pc then f info else info).is_valid = true ↔
      info.is_valid = true ∧ ∀ e ∈ op.events, ¬ e.Removes pc) :
    Change op pc (entry t.block_map_ pc) (entry (t.apply op).block_map_ pc) := by
  rw [hm, entry_update]
  refine .of_map hi (fun info => ?_) hv
  split_ifs
  · exact ht info
  · rfl

/-- **One operation**, entry by entry. -/
theorem change_apply (op : Op) (pc : Word) :
    Change op pc (entry t.block_map_ pc) (entry (t.apply op).block_map_ pc) := by
  cases op with
  | lookup arm_pc => exact t.change_lookup arm_pc
  | insert arm_pc host_code n k => exact t.change_insert arm_pc host_code n k
  | invalidate arm_pc =>
    refine t.change_update (· = arm_pc) (fun info => { info with is_valid := false }) rfl
      (by simp [Op.events, Event.Inserts]) (fun _ => rfl) fun info => ?_
    by_cases h : pc = arm_pc <;> simp [Op.events, Event.Removes, h]
  | invalidate_range start end_ =>
    refine t.change_update (fun pc => start ≤ pc ∧ pc < end_)
      (fun info => { info with is_valid := false }) rfl (by simp [Op.events, Event.Inserts])
      (fun _ => rfl) fun info => ?_
    simp only [Op.events, Event.Removes, List.mem_singleton, forall_eq, decide_eq_true_eq]
    by_cases h : start ≤ pc ∧ pc < end_
    · simp [h]
    · simp [h]
  | promote_hot arm_pc =>
    refine t.change_update (· = arm_pc)
      (fun info => { info with is_hot := true, hit_count := HOT_THRESHOLD }) rfl nofun (fun _ => rfl)
      fun info => ?_
    split_ifs <;> simp [Op.events]
  | evict_cold => exact t.change_evicting rfl (.inr rfl)
  | alloc_host_code size =>
    refine t.change_evicting rfl ?_
    rw [apply, alloc_block_map]
    split_ifs
    · exact .inr rfl
    · exact .inl rfl

/-! ## The view -/

/-- The abstract content: the translations that `lookup` finds. -/
def view (t : TranslationCache) (pc : Word) : Option Translated :=
  ((entry t.block_map_ pc).filter (·.is_valid)).map (·.translated)

/-- `lookup` finds what the view holds; the counters it changes are not part of it. -/
theorem lookup_translated (pc : Word) : (t.lookup pc).1.map (·.translated) = t.view pc := by
  unfold view
  rcases lookup_cases t pc with ⟨info, he, hv, hl⟩ | ⟨hl, hno⟩
  · rw [hl, he, Option.filter_some, if_pos hv]
    rfl
  · rw [hl]
    cases he : entry t.block_map_ pc with
    | none => rfl
    | some info =>
      rw [Option.filter_some, hno info he]
      rfl

/-- A block in the view was there before, or the operation inserted it. -/
theorem view_of_apply {block : Translated} (h : (t.apply op).view pc = some block) :
    t.view pc = some block ∨ Event.insert pc block ∈ op.events := by
  have hchange := t.change_apply op pc
  have hview : t.view pc = ((entry t.block_map_ pc).filter (·.is_valid)).map (·.translated) := rfl
  rw [view] at h
  generalize entry (t.apply op).block_map_ pc = after at hchange h
  cases hchange with
  | @inserted info he hv =>
    rw [he]
    simp only [Option.filter, hv, if_true, Option.map_some, Option.some.injEq] at h
    exact .inr (List.mem_singleton.mpr (congrArg _ h.symm))
  | absent _ => cases h
  | @kept info info' _ hb ht hv =>
    rw [hview, hb]
    by_cases hv' : info'.is_valid = true
    · simp only [Option.filter, hv', if_true, Option.map_some] at h
      simp only [Option.filter, (hv.mp hv').1, if_true, Option.map_some, ← ht]
      exact .inl h
    · simp [Option.filter, hv'] at h

theorem mem_evicted : pc ∈ t.evicted op ↔
    (entry t.block_map_ pc).isSome ∧ ¬ (entry (t.apply op).block_map_ pc).isSome := by
  rw [evicted, List.mem_filter, entry_isSome, Option.not_isSome_iff_eq_none, Option.isNone_iff_eq_none]
  rfl

/-- **Refinement, one operation**: the view changes by the log of the operation. -/
theorem view_apply (op : Op) :
    (t.apply op).view = replayFrom t.view ((t.log op).map Event.toUpdate) := by
  funext pc
  have hmem := @mem_evicted t op pc
  have hview : t.view pc = ((entry t.block_map_ pc).filter (·.is_valid)).map (·.translated) := rfl
  have hchange := t.change_apply op pc
  rw [view]
  generalize entry (t.apply op).block_map_ pc = after at hchange hmem ⊢
  -- without an insert of `pc`, the log can only drop it
  have hkeep : (∀ e ∈ op.events, ¬ e.Inserts pc) →
      (∃ e ∈ t.log op, e.Removes pc) ∧
        replayFrom t.view ((t.log op).map Event.toUpdate) pc = none ∨
      (∀ e ∈ t.log op, ¬ e.Removes pc) ∧
        replayFrom t.view ((t.log op).map Event.toUpdate) pc = t.view pc := by
    intro hi
    have hs : ∀ u ∈ (t.log op).map Event.toUpdate, ¬ u.Sets pc := by
      simp only [log, List.forall_mem_map, Event.sets_toUpdate]
      intro e he
      rcases List.mem_append.mp he with he | he
      · obtain ⟨k, -, rfl⟩ := List.mem_map.mp he
        exact nofun
      · exact hi e he
    rcases replayFrom_of_not_sets (m := t.view) hs with ⟨⟨u, hu, hd⟩, h⟩ | ⟨hn, h⟩
    · obtain ⟨e, he, rfl⟩ := List.mem_map.mp hu
      exact .inl ⟨⟨e, he, Event.drops_toUpdate.mp hd⟩, h⟩
    · exact .inr ⟨fun e he hr => hn _ (List.mem_map_of_mem he) (Event.drops_toUpdate.mpr hr), h⟩
  cases hchange with
  | @inserted info he hv =>
    simp only [log, he, List.map_append, List.map_cons, List.map_nil, replayFrom_append,
      replayFrom_cons, replayFrom_nil, Event.toUpdate, Update.apply, Function.update_self]
    simp [hv]
  | absent hi =>
    rcases hkeep hi with ⟨-, h⟩ | ⟨hn, h⟩
    · rw [h]
      rfl
    · rw [h, hview]
      cases hb : entry t.block_map_ pc with
      | none => rfl
      | some info =>
        have hev : Event.evict pc ∈ t.log op :=
          List.mem_append_left _ (List.mem_map_of_mem (hmem.mpr (by simp [hb])))
        exact absurd rfl (hn _ hev)
  | @kept info info' hi hb ht hv =>
    have hnot : pc ∉ t.evicted op := fun h => (hmem.mp h).2 rfl
    have hlog : (∀ e ∈ t.log op, ¬ e.Removes pc) ↔ ∀ e ∈ op.events, ¬ e.Removes pc := by
      refine ⟨fun h e he => h e (List.mem_append_right _ he), fun h e he => ?_⟩
      rcases List.mem_append.mp he with he | he
      · obtain ⟨k, hk, rfl⟩ := List.mem_map.mp he
        rintro (rfl : pc = k)
        exact hnot hk
      · exact h e he
    rw [← hlog] at hv
    rcases hkeep hi with ⟨⟨e, he, hr⟩, h⟩ | ⟨hn, h⟩
    · have hv' : ¬ info'.is_valid = true := fun h' => (hv.mp h').2 e he hr
      rw [h]
      simp [hv']
    · have hv' : info'.is_valid = info.is_valid := by
        rw [Bool.eq_iff_iff, hv]
        exact and_iff_left hn
      rw [h, hview, hb]
      simp [hv', ht, Option.filter]

end Step

/-! ## Runs -/

theorem update_nodup {m : List (Word × BlockInfo)} (h : (m.map (·.1)).Nodup) (p : Word → Bool)
    (f : BlockInfo → BlockInfo) : ((update m p f).map (·.1)).Nodup := by
  have hkeys : (update m p f).map (·.1) = m.map (·.1) := by
    rw [update, List.map_map]
    refine List.map_congr_left fun e _ => ?_
    simp only [Function.comp_apply]
    split_ifs <;> rfl
  rwa [hkeys]

theorem put_nodup {m : List (Word × BlockInfo)} (h : (m.map (·.1)).Nodup) (k : Word)
    (info : BlockInfo) : ((put m k info).map (·.1)).Nodup := by
  unfold put
  by_cases hk : k ∈ m.map (·.1)
  · have hkeys : (m.map fun e => if e.1 = k then (k, info) else e).map (·.1) = m.map (·.1) := by
      rw [List.map_map]
      refine List.map_congr_left fun e _ => ?_
      by_cases he : e.1 = k <;> simp [he]
    rwa [if_pos (by simpa using hk), hkeys]
  · rw [if_neg (by simpa using hk), List.map_append, List.map_singleton]
    refine List.nodup_append.mpr ⟨h, by simp, fun a ha b hb he => hk ?_⟩
    obtain rfl : b = k := List.mem_singleton.mp hb
    exact he ▸ ha

theorem evict_cold_nodup {t : TranslationCache} (h : t.keys.Nodup) : t.evict_cold.keys.Nodup := by
  unfold evict_cold
  split
  · exact h.sublist (List.filter_sublist.map _)
  · exact h

/-- Every operation keeps one entry for each key. -/
theorem apply_nodup {t : TranslationCache} (h : t.keys.Nodup) (op : Op) : (t.apply op).keys.Nodup := by
  cases op with
  | lookup arm_pc =>
    show (t.lookup arm_pc).2.keys.Nodup
    rcases lookup_cases t arm_pc with ⟨info, -, -, hl⟩ | ⟨hl, -⟩
    · rw [hl]
      exact put_nodup h _ _
    · rw [hl]
      exact h
  | insert arm_pc host_code n k =>
    refine put_nodup (?_ : List.Nodup (List.map _ (TranslationCache.block_map_ _))) arm_pc _
    split_ifs
    · exact evict_cold_nodup h
    · exact h
  | invalidate arm_pc =>
    exact update_nodup h (· = arm_pc) fun info => { info with is_valid := false }
  | invalidate_range start end_ =>
    exact update_nodup h (fun pc => start ≤ pc ∧ pc < end_) fun info => { info with is_valid := false }
  | promote_hot arm_pc =>
    exact update_nodup h (· = arm_pc) fun info =>
      { info with is_hot := true, hit_count := HOT_THRESHOLD }
  | evict_cold => exact evict_cold_nodup h
  | alloc_host_code size =>
    rw [apply, keys, alloc_block_map]
    split_ifs
    · exact evict_cold_nodup h
    · exact h

section Run

variable {capacity : ℕ} {pool : Word} {es : List Event} {t : TranslationCache}

theorem run_nodup (h : Run capacity pool es t) : t.keys.Nodup := by
  induction h with
  | init => exact List.nodup_nil
  | op op _ ih => exact apply_nodup ih op
  | reorder hm _ ih => exact (hm.map _).nodup_iff.mp ih

/-- **Refinement, whole runs**: the view is the replay of the log. -/
theorem view_run (h : Run capacity pool es t) : t.view = replay (es.map Event.toUpdate) := by
  induction h with
  | init => rfl
  | op op _ ih => rw [List.map_append, replay_append, ← ih, view_apply]
  | reorder hm h ih =>
    rw [← ih]
    funext pc
    rw [view, view, entry_perm pc hm (run_nodup h)]

/-- **The cache is a map**: `lookup` finds a block at `pc` exactly if one was inserted there and
neither invalidated nor evicted since, and it is the one inserted last. -/
theorem lookup_of_run (h : Run capacity pool es t) (pc : Word) :
    ((t.lookup pc).1.isSome ↔ ∃ es₁ block es₂, es = es₁ ++ .insert pc block :: es₂ ∧
      ∀ e ∈ es₂, ¬ e.Removes pc) ∧
    ∀ info, (t.lookup pc).1 = some info → ∃ es₁ es₂,
      es = es₁ ++ .insert pc info.translated :: es₂ ∧ ∀ e ∈ es₂, ¬ e.Inserts pc := by
  have hview : (t.lookup pc).1.map (·.translated) = replay (es.map Event.toUpdate) pc := by
    rw [lookup_translated, view_run h]
  constructor
  · rw [← Option.isSome_map (f := BlockInfo.translated), hview, replay_isSome_iff]
    constructor
    · rintro ⟨us₁, block, us₂, he, hd⟩
      obtain ⟨es₁, es', rfl, rfl, h'⟩ := List.map_eq_append_iff.mp he
      obtain ⟨e, es₂, rfl, hu, rfl⟩ := List.map_eq_cons_iff.mp h'
      rw [Event.toUpdate_eq_set.mp hu]
      exact ⟨es₁, block, es₂, rfl, fun e he hr =>
        hd _ (List.mem_map_of_mem he) (Event.drops_toUpdate.mpr hr)⟩
    · rintro ⟨es₁, block, es₂, rfl, hr⟩
      refine ⟨es₁.map Event.toUpdate, block, es₂.map Event.toUpdate, by simp [Event.toUpdate], ?_⟩
      simpa only [List.forall_mem_map, Event.drops_toUpdate] using hr
  · intro info hl
    rw [hl, Option.map_some] at hview
    obtain ⟨us₁, us₂, he, hd⟩ := replay_eq_some_iff.mp hview.symm
    obtain ⟨es₁, es', rfl, rfl, h'⟩ := List.map_eq_append_iff.mp he
    obtain ⟨e, es₂, rfl, hu, rfl⟩ := List.map_eq_cons_iff.mp h'
    rw [Event.toUpdate_eq_set.mp hu]
    exact ⟨es₁, es₂, rfl, fun e he hi =>
      (hd _ (List.mem_map_of_mem he)).1 (Event.sets_toUpdate.mpr hi)⟩

end Run

/-- In a full cache of one block, another insert evicts the block; the third brings it back. -/
theorem lookup_of_run_evicted :
    let t := (((init 1 0x10000#64).apply (.insert 0x1000#64 0x10000#64 22#32 1#32)).apply
      (.insert 0x2000#64 0x11000#64 22#32 1#32)).apply (.insert 0x1000#64 0x12000#64 31#32 2#32)
    let es : List Event := [.insert 0x1000#64 ⟨0x10000#64, 22#32, 1#32⟩, .evict 0x1000#64,
      .insert 0x2000#64 ⟨0x11000#64, 22#32, 1#32⟩, .evict 0x2000#64,
      .insert 0x1000#64 ⟨0x12000#64, 31#32, 2#32⟩]
    ((t.lookup 0x1000#64).1.isSome ↔ ∃ es₁ block es₂, es = es₁ ++ .insert 0x1000#64 block :: es₂ ∧
      ∀ e ∈ es₂, ¬ e.Removes 0x1000#64) ∧
    ∀ info, (t.lookup 0x1000#64).1 = some info → ∃ es₁ es₂,
      es = es₁ ++ .insert 0x1000#64 info.translated :: es₂ ∧ ∀ e ∈ es₂, ¬ e.Inserts 0x1000#64 := by
  intro t es
  have h₀ : Run 1 0x10000#64 [] (init 1 0x10000#64) := .init
  have h₁ := Run.op (.insert 0x1000#64 0x10000#64 22#32 1#32) h₀
  have h₂ := Run.op (.insert 0x2000#64 0x11000#64 22#32 1#32) h₁
  have h₃ : Run 1 0x10000#64 es t := Run.op (.insert 0x1000#64 0x12000#64 31#32 2#32) h₂
  exact lookup_of_run h₃ 0x1000#64

end TranslationCache

end Bbarm64
