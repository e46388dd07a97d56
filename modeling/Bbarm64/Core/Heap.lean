import Bbarm64.Core.Bump

/-!
# Core.Heap — the break and the bump pointer

`init` starts the heap and the mappings at the same address, and `set_brk` refuses what is below the
bump pointer.  So behind the first mapping the break either stays where it was or moves over the
mappings.  The heap is apart from the regions and grows over free addresses exactly as long as no
mapping is made below the break, no break is set behind a mapping, and no refused request moves the bump
pointer past the break (`heap_apart_run`).
-/

namespace Bbarm64

open X86

namespace MemoryManager

/-- `set_brk`, and `mmap` without a hint. -/
inductive HeapOp where
  | set_brk (new_brk : Word)
  | mmap (q : Request)

def HeapOp.op : HeapOp → MapOp
  | .set_brk new_brk => .set_brk new_brk
  | .mmap q => q.op

/-- The runs of these calls behind `init`. -/
def HeapRuns (host : Mem) (base total_size : Word) :
    List (MemoryManager × HeapOp) → MemoryManager → Prop :=
  Trace (· = init host base total_size) fun m op m' => m' = m.apply op.op

/-- No region has an address in `[lo, hi)`. -/
def FreeRange (m : MemoryManager) (lo hi : Word) : Prop :=
  ∀ r ∈ m.regions_, ∀ a, ¬ (r.Covers a ∧ lo ≤ a ∧ a < hi)

/-- The heap from its start to the break is apart from the regions, and it can grow to where the
addresses are free. -/
structure HeapApart (heap_start : Word) (m : MemoryManager) : Prop where
  apart : m.FreeRange heap_start m.get_brk
  grows : ∀ new_brk, m.get_brk < new_brk → m.FreeRange m.get_brk new_brk →
    (m.set_brk new_brk).1 = 0#32

/-- The break goes nowhere, or no mapping holds an address; a mapping is not made below the break, and
behind the request the bump pointer is not past the break or the break is in a region. -/
def KeepsApart (m : MemoryManager) : HeapOp → Prop
  | .set_brk new_brk => new_brk < m.mmap_base_ ∨ ∀ r ∈ m.regions_, r.size = 0#64
  | .mmap q => (m.Maps q.host_ok q.size q.prot 0#64 →
        page_align q.size = 0#64 ∨ m.brk_ ≤ m.mmap_base_) ∧
      ((m.mmap_base_ + page_align q.size).toNat ≤ m.brk_.toNat + 1 ∨
        (∃ r ∈ m.regions_, r.Covers m.brk_) ∨
        m.Maps q.host_ok q.size q.prot 0#64 ∧ (m.mmap_region q.size q.prot 0#64).Covers m.brk_)

/-- The request does not take the bump pointer round the end of the address space. -/
def NoPointerWrap (m : MemoryManager) : HeapOp → Prop
  | .set_brk _ => True
  | .mmap q => m.mmap_base_.toNat + (page_align q.size).toNat < 2 ^ 64

/-- The regions lie between the start of the heap and the bump pointer. -/
structure HeapInv (heap_start : Word) (m : MemoryManager) : Prop where
  pointer : heap_start.toNat ≤ m.mmap_base_.toNat
  regions : ∀ r ∈ m.regions_, heap_start.toNat ≤ r.addr.toNat ∧
    r.addr.toNat + r.size.toNat ≤ m.mmap_base_.toNat

section Heap

variable {m : MemoryManager} {heap_start : Word}

theorem set_brk_eq_zero_iff {new_brk : Word} :
    (m.set_brk new_brk).1 = 0#32 ↔ ¬ new_brk < m.mmap_base_ := by
  have hne : -1#32 ≠ 0#32 := by decide
  unfold set_brk
  split_ifs with h
  · exact iff_of_false hne (not_not_intro h)
  · exact iff_of_true rfl h

/-- The heap can grow exactly if the bump pointer is at most one past the break, or the break is not
free. -/
theorem grows_iff : (∀ new_brk, m.get_brk < new_brk → m.FreeRange m.get_brk new_brk →
      (m.set_brk new_brk).1 = 0#32) ↔
    m.mmap_base_.toNat ≤ m.brk_.toNat + 1 ∨ ∃ r ∈ m.regions_, r.Covers m.brk_ := by
  have hbase := m.mmap_base_.isLt
  constructor
  · intro hgrows
    by_contra hno
    rw [not_or, not_exists] at hno
    obtain ⟨hpast, hfree⟩ := hno
    -- the break cannot grow by one byte
    have hnext : (m.brk_ + 1#64).toNat = m.brk_.toNat + 1 := by
      rw [BitVec.toNat_add, BitVec.toNat_ofNat]
      omega
    have hset := hgrows (m.brk_ + 1#64) (by rw [get_brk, BitVec.lt_def]; omega) ?_
    · rw [set_brk_eq_zero_iff, BitVec.lt_def] at hset
      omega
    · rintro r hr a ⟨ha, hlo, hhi⟩
      rw [get_brk, BitVec.le_def] at hlo
      rw [BitVec.lt_def] at hhi
      have he : a = m.brk_ := BitVec.eq_of_toNat_eq (by omega)
      exact hfree r ⟨hr, he ▸ ha⟩
  · rintro (hnear | ⟨r, hr, hbrk⟩) new_brk hlt hfree
    · rw [set_brk_eq_zero_iff, BitVec.lt_def]
      rw [get_brk, BitVec.lt_def] at hlt
      omega
    · exact absurd ⟨hbrk, BitVec.le_refl _, hlt⟩ (hfree r hr m.brk_)

theorem heapApart_iff : HeapApart heap_start m ↔ m.FreeRange heap_start m.brk_ ∧
    (m.mmap_base_.toNat ≤ m.brk_.toNat + 1 ∨ ∃ r ∈ m.regions_, r.Covers m.brk_) := by
  rw [← grows_iff]
  exact ⟨fun h => ⟨h.apart, h.grows⟩, fun h => ⟨h.1, h.2⟩⟩

/-! ## One call -/

/-- A range behind the start of the heap is apart from it exactly if it is empty or begins behind the
break. -/
theorem range_apart_iff {lo hi : Word} {r : MemRegion} (hw : NoWrap r) (hlo : lo.toNat ≤ r.addr.toNat) :
    (∀ a, ¬ (r.Covers a ∧ lo ≤ a ∧ a < hi)) ↔ r.size = 0#64 ∨ hi ≤ r.addr := by
  constructor
  · intro hapart
    by_contra hno
    rw [not_or, BitVec.le_def, Nat.not_le] at hno
    have hpos : r.size.toNat ≠ 0 := fun h0 => hno.1 (BitVec.eq_of_toNat_eq h0)
    refine hapart r.addr ⟨?_, BitVec.le_def.mpr hlo, BitVec.lt_def.mpr hno.2⟩
    rw [MemRegion.Covers, BitVec.sub_self]
    exact Nat.pos_of_ne_zero hpos
  · rintro hor a ⟨ha, -, hhi⟩
    rw [NoWrap] at hw
    rw [MemRegion.Covers, sub_toNat_lt_iff (Nat.le_of_lt hw)] at ha
    rw [BitVec.lt_def] at hhi
    rcases hor with hsize | hbehind
    · rw [hsize, BitVec.toNat_ofNat] at ha
      omega
    · rw [BitVec.le_def] at hbehind
      omega

/-- A break that is set. -/
theorem heapApart_set_brk_iff (hi : HeapInv heap_start m) (hm : HeapApart heap_start m)
    (new_brk : Word) : HeapApart heap_start (m.apply (.set_brk new_brk)) ↔
      m.KeepsApart (.set_brk new_brk) := by
  have happly : m.apply (.set_brk new_brk) =
      if new_brk < m.mmap_base_ then m else { m with brk_ := new_brk } := by
    show (m.set_brk new_brk).2 = _
    unfold set_brk
    split_ifs
    · rfl
    · rfl
  rw [happly, KeepsApart]
  split_ifs with hlt
  · exact iff_of_true hm (.inl hlt)
  · rw [or_iff_right hlt, heapApart_iff]
    rw [BitVec.lt_def, Nat.not_lt] at hlt
    have hbehind : ∀ r ∈ m.regions_, NoWrap r ∧ (r.size = 0#64 ∨ new_brk ≤ r.addr ↔ r.size = 0#64) := by
      intro r hr
      obtain ⟨-, hhi⟩ := hi.regions r hr
      have hbase := m.mmap_base_.isLt
      refine ⟨Nat.lt_of_le_of_lt hhi hbase, or_iff_left_of_imp fun hle => BitVec.eq_of_toNat_eq ?_⟩
      rw [BitVec.le_def] at hle
      show r.size.toNat = 0
      omega
    rw [and_iff_left (.inl (Nat.le_succ_of_le hlt))]
    refine forall₂_congr fun r hr => ?_
    obtain ⟨hw, hempty⟩ := hbehind r hr
    exact (range_apart_iff hw (hi.regions r hr).1).trans hempty

/-- A request that is made. -/
theorem heapApart_mmap_iff (hi : HeapInv heap_start m) (hm : HeapApart heap_start m) {q : Request}
    (hdoc : q.op.Documented) :
    HeapApart heap_start (m.apply q.op) ↔ m.KeepsApart (.mmap q) := by
  have hregions : (m.apply q.op).regions_ = _ := mmap_regions q.host_ok q.size q.prot 0#64
  have hbrk : (m.apply q.op).brk_ = m.brk_ := (mmap_spec q.host_ok q.size q.prot 0#64).2.2
  rw [heapApart_iff, hbrk, request_mmap_base, FreeRange, hregions, KeepsApart]
  refine and_congr ?_ (or_congr_right ?_)
  · by_cases hmaps : m.Maps q.host_ok q.size q.prot 0#64
    · have hw : NoWrap (m.mmap_region q.size q.prot 0#64) := hdoc _ _ _ hmaps.2
      have hold : ∀ r ∈ m.regions_, ∀ a, ¬ (r.Covers a ∧ heap_start ≤ a ∧ a < m.brk_) := hm.apart
      rw [if_pos hmaps, List.forall_mem_append, List.forall_mem_singleton, and_iff_right hold,
        imp_iff_right hmaps]
      exact range_apart_iff hw hi.pointer
    · rw [if_neg hmaps]
      exact iff_of_true hm.apart fun h => absurd h hmaps
  · by_cases hmaps : m.Maps q.host_ok q.size q.prot 0#64
    · rw [if_pos hmaps, and_iff_right hmaps]
      simp only [List.mem_append, List.mem_singleton, or_and_right, exists_or, exists_eq_left]
    · rw [if_neg hmaps]
      simp only [hmaps, false_and, or_false]

/-- **One call** keeps the heap and the regions apart, and the way free, exactly if it meets the
condition. -/
theorem heapApart_apply_iff (hi : HeapInv heap_start m) (hm : HeapApart heap_start m) {op : HeapOp}
    (hdoc : op.op.Documented) : HeapApart heap_start (m.apply op.op) ↔ m.KeepsApart op := by
  cases op with
  | set_brk new_brk => exact heapApart_set_brk_iff hi hm new_brk
  | mmap q => exact heapApart_mmap_iff hi hm hdoc

theorem heapInv_apply (hi : HeapInv heap_start m) {op : HeapOp} (hw : m.NoPointerWrap op) :
    HeapInv heap_start (m.apply op.op) := by
  obtain ⟨hpointer, hregions⟩ := hi
  cases op with
  | set_brk new_brk =>
    have hsame : (m.set_brk new_brk).2.mmap_base_ = m.mmap_base_ ∧
        (m.set_brk new_brk).2.regions_ = m.regions_ := by
      unfold set_brk
      split_ifs
      · exact ⟨rfl, rfl⟩
      · exact ⟨rfl, rfl⟩
    constructor
    · show _ ≤ (m.set_brk new_brk).2.mmap_base_.toNat
      rw [hsame.1]
      exact hpointer
    · show ∀ r ∈ (m.set_brk new_brk).2.regions_, _ ∧ _ ≤ (m.set_brk new_brk).2.mmap_base_.toNat
      rw [hsame.1, hsame.2]
      exact hregions
  | mmap q =>
    have hmoved : (m.apply q.op).mmap_base_.toNat =
        m.mmap_base_.toNat + (page_align q.size).toNat := by
      rw [request_mmap_base, BitVec.toNat_add, Nat.mod_eq_of_lt hw]
    have hlist : (m.apply q.op).regions_ = _ := mmap_regions q.host_ok q.size q.prot 0#64
    have hold : ∀ r ∈ m.regions_, heap_start.toNat ≤ r.addr.toNat ∧
        r.addr.toNat + r.size.toNat ≤ (m.apply q.op).mmap_base_.toNat := by
      intro r hr
      obtain ⟨hlo, hhi⟩ := hregions r hr
      exact ⟨hlo, by omega⟩
    constructor
    · show _ ≤ (m.apply q.op).mmap_base_.toNat
      omega
    · show ∀ r ∈ (m.apply q.op).regions_, _ ∧ _ ≤ (m.apply q.op).mmap_base_.toNat
      rw [hlist]
      split_ifs with hmaps
      · refine List.forall_mem_append.mpr ⟨hold, List.forall_mem_singleton.mpr ⟨hpointer, ?_⟩⟩
        exact Nat.le_of_eq hmoved.symm
      · exact hold

end Heap

section Run

variable {host : Mem} {base total_size : Word} {es : List (MemoryManager × HeapOp)} {m : MemoryManager}

theorem heapApart_init : HeapInv (init host base total_size).get_brk (init host base total_size) ∧
    HeapApart (init host base total_size).get_brk (init host base total_size) := by
  refine ⟨⟨Nat.le_refl _, List.forall_mem_nil _⟩, heapApart_iff.mpr ⟨List.forall_mem_nil _, ?_⟩⟩
  exact .inl (Nat.le_succ _)

/-- **The heap and the mappings**: in a run whose calls all meet the condition and do not take the bump
pointer round the end, the heap from the initial break on is always apart from the regions and can grow
over free addresses; and the next call, whatever it is, keeps this up exactly if it meets the
condition. -/
theorem heap_apart_run (h : HeapRuns host base total_size es m)
    (hdoc : ∀ e ∈ es, e.2.op.Documented)
    (hes : ∀ e ∈ es, e.1.NoPointerWrap e.2 ∧ e.1.KeepsApart e.2) :
    Trace.Throughout (HeapApart (init host base total_size).get_brk) es m ∧
    ∀ op : HeapOp, op.op.Documented →
      (HeapApart (init host base total_size).get_brk (m.apply op.op) ↔ m.KeepsApart op) := by
  have hrun : Trace.Throughout (fun m => HeapInv (init host base total_size).get_brk m ∧
      HeapApart (init host base total_size).get_brk m) es m := by
    refine h.inv_of_good
      (G := fun m op => op.op.Documented ∧ m.NoPointerWrap op ∧ m.KeepsApart op) ?_ ?_
      fun e he => ⟨hdoc e he, hes e he⟩
    · rintro _ rfl
      exact heapApart_init
    · rintro m op _ ⟨hi, hm⟩ ⟨hop, hw, hk⟩ rfl
      exact ⟨heapInv_apply hi hw, (heapApart_apply_iff hi hm hop).mpr hk⟩
  exact ⟨⟨fun e he => (hrun.1 e he).2, hrun.2.2⟩, fun op hop => heapApart_apply_iff hrun.2.1 hrun.2.2 hop⟩

end Run

/-- The break in a mapped page does not move. -/
theorem heap_apart_run_refused : ∃ es m, HeapRuns (fun _ => 0#8) 0x100000000#64 0x100000000#64 es m ∧
    es.map (·.2) = [.mmap (request 4096#64), .set_brk 0x180000800#64] ∧
    Trace.Throughout (HeapApart fresh.get_brk) es m ∧
    ∀ op : HeapOp, op.op.Documented → (HeapApart fresh.get_brk (m.apply op.op) ↔ m.KeepsApart op) := by
  have hmapped : HeapRuns (fun _ => 0#8) 0x100000000#64 0x100000000#64 _ _ :=
    .snoc (.nil rfl) (a := .mmap (request 4096#64)) rfl
  have h : HeapRuns (fun _ => 0#8) 0x100000000#64 0x100000000#64 _ _ :=
    .snoc hmapped (a := .set_brk 0x180000800#64) rfl
  refine ⟨_, _, h, rfl, heap_apart_run h ?_ ?_⟩
  · rw [List.forall_mem_append]
    exact ⟨List.forall_mem_singleton.mpr fun _ _ prot hok => (@maps_user_lt _ _ prot hok).2,
      List.forall_mem_singleton.mpr trivial⟩
  · rw [List.forall_mem_append]
    have hwrap : fresh.NoPointerWrap (.mmap (request 4096#64)) := by
      show fresh.mmap_base_.toNat + (page_align 4096#64).toNat < 2 ^ 64
      decide
    refine ⟨List.forall_mem_singleton.mpr ⟨hwrap, fun _ => .inr (by decide), .inr (.inr ?_)⟩,
      List.forall_mem_singleton.mpr ⟨trivial, .inl (by decide)⟩⟩
    exact ⟨by decide, by decide⟩

/-- The first mapping is made at the break, which then moves over it. -/
theorem not_heap_apart : ∃ es m, HeapRuns (fun _ => 0#8) 0x100000000#64 0x100000000#64 es m ∧
    es.map (·.2) = [.mmap (request 4096#64), .set_brk 0x180002000#64] ∧
    (∀ e ∈ es, e.2.op.Documented) ∧ ¬ HeapApart fresh.get_brk m := by
  refine ⟨_, _, .snoc (.snoc (.nil rfl) rfl) rfl, rfl, ?_, fun h => ?_⟩
  · rw [List.forall_mem_append]
    exact ⟨List.forall_mem_singleton.mpr fun _ _ prot hok => (@maps_user_lt _ _ prot hok).2,
      List.forall_mem_singleton.mpr trivial⟩
  · exact h.apart _ (List.mem_singleton_self _) 0x180000000#64
      ⟨by decide, by decide, by decide⟩

end MemoryManager

end Bbarm64
