import Bbarm64.Elf.Segments
import Bbarm64.Lib.Trace

/-!
# Core.Regions — the recorded regions over a run of mapping calls

`mmap` records the range it was asked for without a look at the ranges recorded before, so the regions
stay disjoint exactly as long as every successful `mmap` goes to a free range
(`regions_disjoint_iff`).  `munmap` drops the regions that start in the unmapped range, whole, and no
others: the single bytes that `check_perms` grants are those of the page map exactly when the regions
that grant the access lie in the range or outside of it (`munmap_exact_iff`).
-/

namespace Bbarm64

open X86

/-- The address lies in the region. -/
def MemRegion.Covers (region : MemRegion) (a : Word) : Prop :=
  (a - region.addr).toNat < region.size.toNat

instance (region : MemRegion) (a : Word) : Decidable (region.Covers a) :=
  inferInstanceAs (Decidable (_ < _))

namespace MemoryManager

open ELFLoader (allows)

/-! ## Runs -/

/-- The calls that map memory, with the answers of the host, and everything that changes only the
contents of memory and the marks for translated pages. -/
inductive MapOp where
  | mmap (host_ok : Word → Word → BitVec 32 → Bool) (size : Word) (prot : BitVec 32)
    (hint_addr : Word)
  | munmap (ret : BitVec 32) (host : Mem) (addr size : Word)
  | mprotect (ret : BitVec 32) (addr : Word) (prot : BitVec 32)
  | set_brk (new_brk : Word)
  | access (host : Mem) (pages : List Word)

def apply (m : MemoryManager) : MapOp → MemoryManager
  | .mmap host_ok size prot hint_addr => (m.mmap host_ok size prot hint_addr).2
  | .munmap ret host addr size => (m.munmap ret host addr size).2
  | .mprotect ret addr prot => (m.mprotect ret addr prot).2
  | .set_brk new_brk => (m.set_brk new_brk).2
  | .access host pages => { m with host := host, translated_pages_ := pages }

/-- The runs from `init`. -/
def Runs (host : Mem) (base total_size : Word) : List (MemoryManager × MapOp) → MemoryManager → Prop :=
  Trace (· = init host base total_size) fun m op m' => m' = m.apply op

/-- The address `mmap` goes to. -/
def mmap_addr (m : MemoryManager) (hint_addr : Word) : Word :=
  if hint_addr ≠ 0#64 then hint_addr else m.mmap_base_

/-- The region a successful `mmap` records. -/
def mmap_region (m : MemoryManager) (size : Word) (prot : BitVec 32) (hint_addr : Word) : MemRegion :=
  { addr := m.mmap_addr hint_addr, size := page_align size, perms := prot }

/-- `mmap` succeeds. -/
def Maps (m : MemoryManager) (host_ok : Word → Word → BitVec 32 → Bool) (size : Word)
    (prot : BitVec 32) (hint_addr : Word) : Prop :=
  m.mmap_addr hint_addr ≠ 0#64 ∧ host_ok (m.mmap_addr hint_addr) (page_align size) prot = true

instance (m : MemoryManager) (host_ok : Word → Word → BitVec 32 → Bool) (size : Word)
    (prot : BitVec 32) (hint_addr : Word) : Decidable (m.Maps host_ok size prot hint_addr) :=
  inferInstanceAs (Decidable (_ ∧ _))

/-! ## The region list behind an operation -/

section Lists

variable {m : MemoryManager}

/-- **`mmap`**: the pointer moves if there is no hint; a call that succeeds gets zero pages and records
them. -/
theorem mmap_eq (host_ok : Word → Word → BitVec 32 → Bool) (size : Word) (prot : BitVec 32)
    (hint_addr : Word) : m.mmap host_ok size prot hint_addr =
      let base := if hint_addr ≠ 0#64 then m.mmap_base_ else m.mmap_base_ + page_align size
      if m.Maps host_ok size prot hint_addr then
        (m.mmap_addr hint_addr, { m with
          mmap_base_ := base
          host := fill m.host (m.mmap_addr hint_addr) (page_align size).toNat fun _ => 0#8
          regions_ := m.regions_ ++ [m.mmap_region size prot hint_addr] })
      else (0#64, { m with mmap_base_ := base }) := by
  have hfree : (if hint_addr ≠ 0#64 then (hint_addr, m) else m.find_free_region (page_align size) 0#64) =
      (m.mmap_addr hint_addr, { m with mmap_base_ :=
        if hint_addr ≠ 0#64 then m.mmap_base_ else m.mmap_base_ + page_align size }) := by
    unfold mmap_addr
    by_cases h : hint_addr ≠ 0#64
    · rw [if_pos h, if_pos h, if_pos h]
    · rw [if_neg h, if_neg h, if_neg h]
      rfl
  unfold mmap
  dsimp only
  rw [hfree]
  dsimp only
  by_cases h0 : m.mmap_addr hint_addr = 0#64
  · have hmaps : ¬ m.Maps host_ok size prot hint_addr := fun h => h.1 h0
    rw [if_pos h0, if_neg hmaps]
  · rw [if_neg h0]
    by_cases hok : host_ok (m.mmap_addr hint_addr) (page_align size) prot = true
    · have hmaps : m.Maps host_ok size prot hint_addr := ⟨h0, hok⟩
      rw [if_pos hok, if_pos hmaps]
      rfl
    · have hmaps : ¬ m.Maps host_ok size prot hint_addr := fun h => hok h.2
      rw [if_neg hok, if_neg hmaps]

theorem mmap_regions (host_ok : Word → Word → BitVec 32 → Bool) (size : Word) (prot : BitVec 32)
    (hint_addr : Word) : (m.mmap host_ok size prot hint_addr).2.regions_ =
      if m.Maps host_ok size prot hint_addr then m.regions_ ++ [m.mmap_region size prot hint_addr]
      else m.regions_ := by
  rw [mmap_eq]
  by_cases hmaps : m.Maps host_ok size prot hint_addr
  · simp only [if_pos hmaps]
  · simp only [if_neg hmaps]

/-- `mprotect` keeps the ranges. -/
theorem set_perms_ranges (addr : Word) (prot : BitVec 32) (regions : List MemRegion) :
    (set_perms addr prot regions).map (fun r => (r.addr, r.size)) =
      regions.map fun r => (r.addr, r.size) := by
  induction regions with
  | nil => rfl
  | cons r regions ih =>
    unfold set_perms
    split_ifs
    · rfl
    · rw [List.map_cons, List.map_cons, ih]

theorem munmap_regions (ret : BitVec 32) (host : Mem) (addr size : Word) :
    (m.munmap ret host addr size).2.regions_ =
      m.regions_.filter fun region => !starts_in addr (page_align size) region := by
  unfold munmap
  dsimp only
  split_ifs <;> rfl

end Lists

/-! ## Disjoint regions -/

/-- No address lies in two regions. -/
def RegionsDisjoint (regions : List MemRegion) : Prop :=
  regions.Pairwise fun r r' => ∀ a, ¬ (r.Covers a ∧ r'.Covers a)

/-- No address of the region lies in a recorded one. -/
def Free (m : MemoryManager) (region : MemRegion) : Prop :=
  ∀ r ∈ m.regions_, ∀ a, ¬ (r.Covers a ∧ region.Covers a)

/-- A successful `mmap` goes to a free range. -/
def GoesToFree (m : MemoryManager) : MapOp → Prop
  | .mmap host_ok size prot hint_addr =>
    m.Maps host_ok size prot hint_addr → m.Free (m.mmap_region size prot hint_addr)
  | .munmap _ _ _ _ | .mprotect _ _ _ | .set_brk _ | .access _ _ => True

section Disjoint

variable {m : MemoryManager}

/-- Disjointness is about the ranges only. -/
theorem regionsDisjoint_congr {rs rs' : List MemRegion}
    (h : rs.map (fun r => (r.addr, r.size)) = rs'.map fun r => (r.addr, r.size)) :
    RegionsDisjoint rs ↔ RegionsDisjoint rs' := by
  have hmap : ∀ l : List MemRegion, RegionsDisjoint l ↔
      (l.map fun r => (r.addr, r.size)).Pairwise fun r r' =>
        ∀ a : Word, ¬ ((a - r.1).toNat < r.2.toNat ∧ (a - r'.1).toNat < r'.2.toNat) := by
    intro l
    rw [List.pairwise_map]
    rfl
  rw [hmap, hmap, h]

/-- **One call** keeps the regions disjoint exactly if an `mmap` goes to a free range. -/
theorem regionsDisjoint_apply (h : RegionsDisjoint m.regions_) (op : MapOp) :
    RegionsDisjoint (m.apply op).regions_ ↔ m.GoesToFree op := by
  cases op with
  | mmap host_ok size prot hint_addr =>
    show RegionsDisjoint (m.mmap host_ok size prot hint_addr).2.regions_ ↔ _
    rw [mmap_regions]
    unfold GoesToFree
    split_ifs with hmaps
    · rw [RegionsDisjoint, List.pairwise_append]
      constructor
      · rintro ⟨-, -, hfree⟩ _ r hr
        exact hfree r hr _ (List.mem_singleton_self _)
      · intro hfree
        refine ⟨h, List.pairwise_singleton _ _, fun r hr q hq => ?_⟩
        obtain rfl := List.mem_singleton.mp hq
        exact hfree hmaps r hr
    · exact iff_of_true h fun hm => absurd hm hmaps
  | munmap ret host addr size =>
    refine iff_of_true ?_ trivial
    show RegionsDisjoint (m.munmap ret host addr size).2.regions_
    rw [munmap_regions]
    exact List.Pairwise.filter _ h
  | mprotect ret addr prot =>
    exact iff_of_true ((regionsDisjoint_congr (set_perms_ranges addr prot m.regions_)).mpr h) trivial
  | set_brk new_brk =>
    refine iff_of_true ?_ trivial
    show RegionsDisjoint (m.set_brk new_brk).2.regions_
    unfold set_brk
    split_ifs
    · exact h
    · exact h
  | access host pages => exact iff_of_true h trivial

/-- **Disjoint regions**: the recorded regions are disjoint throughout a run exactly if every
successful `mmap` of the run went to a range free of the regions recorded then. -/
theorem regions_disjoint_iff {host : Mem} {base total_size : Word}
    {es : List (MemoryManager × MapOp)} (h : Runs host base total_size es m) :
    Trace.Throughout (RegionsDisjoint ·.regions_) es m ↔ ∀ e ∈ es, e.1.GoesToFree e.2 := by
  refine Trace.safe_iff (I := fun _ => True) ?_ (fun _ _ _ _ _ => trivial) ?_ h
  · rintro _ rfl
    exact ⟨trivial, List.Pairwise.nil⟩
  · rintro m op _ _ hs rfl
    exact regionsDisjoint_apply hs op

end Disjoint

theorem Runs.apply {host : Mem} {base total_size : Word} {es : List (MemoryManager × MapOp)}
    {m : MemoryManager} (h : Runs host base total_size es m) (op : MapOp) :
    Runs host base total_size (es ++ [(m, op)]) (m.apply op) := .snoc h rfl

/-- A host that maps every page range below `2 ^ 47`. -/
def maps_user (addr size : Word) (_ : BitVec 32) : Bool :=
  addr &&& 0xFFF#64 = 0#64 ∧ 0 < size.toNat ∧ addr.toNat + size.toNat < 2 ^ 47

/-- `mmap` of `size` read-write bytes at `hint_addr`. -/
def map_at (hint_addr size : Word) : MapOp := .mmap maps_user size (PROT_READ ||| PROT_WRITE) hint_addr

/-- The manager of a fresh process with its 4 GB at `2 ^ 32`. -/
def fresh : MemoryManager := init (fun _ => 0#8) 0x100000000#64 0x100000000#64

theorem runs_fresh : Runs (fun _ => 0#8) 0x100000000#64 0x100000000#64 [] fresh := .nil rfl

/-- Behind a hint and the bump pointer. -/
theorem regions_disjoint_iff_two :
    let m₁ := fresh.apply (map_at 0x10000#64 4096#64)
    let m₂ := m₁.apply (map_at 0#64 4096#64)
    let es := [(fresh, map_at 0x10000#64 4096#64), (m₁, map_at 0#64 4096#64)]
    Trace.Throughout (RegionsDisjoint ·.regions_) es m₂ ↔ ∀ e ∈ es, e.1.GoesToFree e.2 :=
  regions_disjoint_iff ((runs_fresh.apply (map_at 0x10000#64 4096#64)).apply (map_at 0#64 4096#64))

/-- The second `mmap` at an address leaves the region of the first one. -/
theorem regions_overlap : ∃ es m, Runs (fun _ => 0#8) 0x100000000#64 0x100000000#64 es m ∧
    es.map (·.2) = [map_at 0x10000#64 4096#64, map_at 0x10000#64 4096#64] ∧
      ¬ RegionsDisjoint m.regions_ := by
  refine ⟨_, _, (runs_fresh.apply (map_at 0x10000#64 4096#64)).apply (map_at 0x10000#64 4096#64),
    rfl, fun h => ?_⟩
  have hfirst := (List.pairwise_cons.mp h).1 _ (List.mem_singleton_self _)
  exact hfirst 0x10000#64 ⟨by decide, by decide⟩

/-! ## Single bytes -/

/-- The region ends below `2 ^ 64`. -/
def NoWrap (region : MemRegion) : Prop := region.addr.toNat + region.size.toNat < 2 ^ 64

/-- `::mmap` maps ranges of the address space only. -/
def MapOp.Documented : MapOp → Prop
  | .mmap host_ok _ _ _ => ∀ addr size prot, host_ok addr size prot = true →
      addr.toNat + size.toNat < 2 ^ 64
  | .munmap _ _ _ _ | .mprotect _ _ _ | .set_brk _ | .access _ _ => True

/-- The ranges that a call maps lie in `P`. -/
def MapOp.MapsIn (P : Word → Word → Prop) : MapOp → Prop
  | .mmap host_ok size _ _ =>
    ∀ addr prot, host_ok addr (page_align size) prot = true → P addr (page_align size)
  | .munmap _ _ _ _ | .mprotect _ _ _ | .set_brk _ | .access _ _ => True

section Bytes

variable {m : MemoryManager} {regions : List MemRegion} {b : Word} {needed : BitVec 32}

theorem contains_byte_iff {region : MemRegion} (hw : NoWrap region) (hb : b.toNat + 1 < 2 ^ 64) :
    (region.addr ≤ b ∧ b + 1#64 ≤ region.addr + region.size) ↔ region.Covers b := by
  unfold NoWrap at hw
  rw [MemRegion.Covers, sub_toNat_lt_iff (Nat.le_of_lt hw), BitVec.le_def, BitVec.le_def,
    BitVec.toNat_add, BitVec.toNat_add, BitVec.toNat_ofNat]
  omega

/-- With disjoint regions a byte is granted by the region it lies in. -/
theorem check_byte_iff (hw : ∀ r ∈ regions, NoWrap r) (hd : RegionsDisjoint regions)
    (hb : b.toNat + 1 < 2 ^ 64) : check_perms_in b 1#64 needed regions = true ↔
      ∃ r ∈ regions, r.Covers b ∧ allows r needed = true := by
  induction regions with
  | nil => simp [check_perms_in]
  | cons r regions ih =>
    obtain ⟨hr, hw⟩ := List.forall_mem_cons.mp hw
    obtain ⟨hrd, hd⟩ := List.pairwise_cons.mp hd
    unfold check_perms_in
    simp only [List.mem_cons, exists_eq_or_imp]
    by_cases hc : r.Covers b
    · -- no other region holds the byte
      have hrest : ¬ ∃ q ∈ regions, q.Covers b ∧ allows q needed = true := by
        rintro ⟨q, hq, hqb, -⟩
        exact hrd q hq b ⟨hc, hqb⟩
      rw [if_pos ((contains_byte_iff hr hb).mpr hc), or_iff_left hrest, and_iff_right hc]
      rfl
    · rw [if_neg fun h => hc ((contains_byte_iff hr hb).mp h), ih hw hd]
      simp only [hc, false_and, false_or]

/-- The sum of the last address and 1 is 0, so that the first region answers for the last byte. -/
theorem check_last_byte : check_perms_in (BitVec.allOnes 64) 1#64 needed regions =
    regions.head?.any (allows · needed) := by
  cases regions with
  | nil => rfl
  | cons r regions =>
    have hin : r.addr ≤ BitVec.allOnes 64 ∧ BitVec.allOnes 64 + 1#64 ≤ r.addr + r.size := by
      have h0 : BitVec.allOnes 64 + 1#64 = 0#64 := by decide
      rw [h0, BitVec.le_def, BitVec.le_def, BitVec.toNat_allOnes]
      exact ⟨Nat.le_sub_one_of_lt r.addr.isLt, Nat.zero_le _⟩
    unfold check_perms_in
    rw [if_pos hin]
    rfl

section Ranges

variable {P : Word → Word → Prop}

theorem ranges_congr {rs rs' : List MemRegion}
    (h : rs.map (fun r => (r.addr, r.size)) = rs'.map fun r => (r.addr, r.size)) :
    (∀ r ∈ rs, P r.addr r.size) ↔ ∀ r ∈ rs', P r.addr r.size := by
  have hmap : ∀ l : List MemRegion, (∀ r ∈ l, P r.addr r.size) ↔
      ∀ p ∈ l.map fun r => (r.addr, r.size), P p.1 p.2 := by
    intro l
    rw [List.forall_mem_map]
  rw [hmap, hmap, h]

/-- What holds of every recorded range and of those that are mapped keeps holding. -/
theorem ranges_apply (h : ∀ r ∈ m.regions_, P r.addr r.size) {op : MapOp} (hop : op.MapsIn P) :
    ∀ r ∈ (m.apply op).regions_, P r.addr r.size := by
  cases op with
  | mmap host_ok size prot hint_addr =>
    show ∀ r ∈ (m.mmap host_ok size prot hint_addr).2.regions_, P r.addr r.size
    rw [mmap_regions]
    split_ifs with hmaps
    · rw [List.forall_mem_append]
      exact ⟨h, List.forall_mem_singleton.mpr (hop _ _ hmaps.2)⟩
    · exact h
  | munmap ret host addr size =>
    show ∀ r ∈ (m.munmap ret host addr size).2.regions_, P r.addr r.size
    rw [munmap_regions]
    exact fun r hr => h r (List.mem_filter.mp hr).1
  | mprotect ret addr prot => exact (ranges_congr (set_perms_ranges addr prot m.regions_)).mpr h
  | set_brk new_brk =>
    show ∀ r ∈ (m.set_brk new_brk).2.regions_, P r.addr r.size
    unfold set_brk
    split_ifs
    · exact h
    · exact h
  | access host pages => exact h

/-- The ranges of a run are those that were mapped. -/
theorem ranges_of_runs {host : Mem} {base total_size : Word} {es : List (MemoryManager × MapOp)}
    (h : Runs host base total_size es m) (hes : ∀ e ∈ es, e.2.MapsIn P) :
    ∀ r ∈ m.regions_, P r.addr r.size := by
  refine (Trace.inv_of_good (I := fun m => ∀ r ∈ m.regions_, P r.addr r.size)
    (G := fun _ op => op.MapsIn P) ?_ ?_ h hes).2
  · rintro _ rfl
    exact List.forall_mem_nil _
  · rintro m op _ hm hop rfl
    exact ranges_apply hm hop

end Ranges

theorem MapOp.Documented.mapsIn {op : MapOp} (h : op.Documented) :
    op.MapsIn fun addr size => addr.toNat + size.toNat < 2 ^ 64 := by
  cases op with
  | mmap host_ok size prot hint_addr => exact fun addr prot hok => h addr _ prot hok
  | munmap ret host addr size => trivial
  | mprotect ret addr prot => trivial
  | set_brk new_brk => trivial
  | access host pages => trivial

/-- No region of a run wraps. -/
theorem noWrap_of_runs {host : Mem} {base total_size : Word} {es : List (MemoryManager × MapOp)}
    (h : Runs host base total_size es m) (hdoc : ∀ e ∈ es, e.2.Documented) :
    ∀ r ∈ m.regions_, NoWrap r := ranges_of_runs h fun e he => (hdoc e he).mapsIn

end Bytes

/-! ## Unmapping -/

/-- `[addr, addr + size)` with the size rounded up to a page. -/
def InPages (addr size a : Word) : Prop :=
  addr.toNat ≤ a.toNat ∧ a.toNat < addr.toNat + (size.toNat + 4095) / 4096 * 4096

/-- `::munmap` accepts nonempty ranges of the address space only. -/
def HostMunmap (host_munmap : Word → Word → BitVec 32) : Prop :=
  ∀ addr size, host_munmap addr size = 0#32 → size ≠ 0#64 ∧ addr.toNat + size.toNat < 2 ^ 64

/-- Behind the unmapping a byte is granted exactly if it was before and lies outside of the range. -/
def UnmapExact (m m' : MemoryManager) (addr size : Word) (needed : BitVec 32) : Prop :=
  ∀ b, m'.check_perms b 1#64 needed = true ↔
    m.check_perms b 1#64 needed = true ∧ ¬ InPages addr size b

/-- The range cuts no region that grants the access, and the first region that stays answers like the
first region did. -/
structure UnmapsWhole (m : MemoryManager) (addr size : Word) (needed : BitVec 32) : Prop where
  whole : ∀ r ∈ m.regions_, allows r needed = true →
    (∀ b, r.Covers b → InPages addr size b) ∨ ∀ b, r.Covers b → ¬ InPages addr size b
  first : (m.regions_.filter fun r => !starts_in addr (page_align size) r).head?.any
    (allows · needed) = m.regions_.head?.any (allows · needed)

section Unmap

variable {m : MemoryManager} {addr size : Word} {needed : BitVec 32}

theorem page_align_toNat (h : page_align size ≠ 0#64) :
    (page_align size).toNat = (size.toNat + 4095) / 4096 * 4096 := by
  have he : (page_align size).toNat = (size + 4095#64).toNat / 4096 * 4096 :=
    ELFLoader.and_not_mask (size + 4095#64)
  have hne : (page_align size).toNat ≠ 0 := fun h0 => h (BitVec.eq_of_toNat_eq h0)
  have hsize := size.isLt
  rw [BitVec.toNat_add, BitVec.toNat_ofNat] at he
  rw [he] at hne ⊢
  omega

theorem starts_in_iff (hne : page_align size ≠ 0#64)
    (hw : addr.toNat + (page_align size).toNat < 2 ^ 64) (r : MemRegion) :
    starts_in addr (page_align size) r = true ↔ InPages addr size r.addr := by
  rw [starts_in, decide_eq_true_iff, BitVec.le_def, BitVec.lt_def, BitVec.toNat_add,
    Nat.mod_eq_of_lt hw, page_align_toNat hne]
  rfl

/-- A region with a byte in it has its first address in it. -/
theorem covers_addr {r : MemRegion} {b : Word} (h : r.Covers b) : r.Covers r.addr := by
  unfold MemRegion.Covers at *
  rw [BitVec.sub_self]
  exact Nat.lt_of_le_of_lt (Nat.zero_le _) h

/-- The regions that hold a byte are one. -/
theorem eq_of_covers {regions : List MemRegion} (hd : RegionsDisjoint regions) {r q : MemRegion}
    (hr : r ∈ regions) (hq : q ∈ regions) {b : Word} (hrb : r.Covers b) (hqb : q.Covers b) :
    r = q := by
  have hsymm : Std.Symm fun r q : MemRegion => ∀ a, ¬ (r.Covers a ∧ q.Covers a) :=
    ⟨fun _ _ h a ha => h a ha.symm⟩
  by_contra hne
  exact hd.forall hr hq hne b ⟨hrb, hqb⟩

variable (hw : ∀ r ∈ m.regions_, NoWrap r) (hd : RegionsDisjoint m.regions_)
  (hne : page_align size ≠ 0#64) (hend : addr.toNat + (page_align size).toNat < 2 ^ 64)
include hw hd hne hend

omit hw hd in
theorem last_notIn : ¬ InPages addr size (BitVec.allOnes 64) := by
  rintro ⟨-, h⟩
  rw [page_align_toNat hne] at hend
  rw [BitVec.toNat_allOnes] at h
  omega

/-- The bytes granted behind the unmapping. -/
theorem check_byte_munmap (ret : BitVec 32) (host : Mem) {b : Word} (hb : b.toNat + 1 < 2 ^ 64) :
    (m.munmap ret host addr size).2.check_perms b 1#64 needed = true ↔
      ∃ r ∈ m.regions_, ¬ InPages addr size r.addr ∧ r.Covers b ∧ allows r needed = true := by
  rw [check_perms, munmap_regions, check_byte_iff (fun r hr => hw r (List.mem_filter.mp hr).1)
    (List.Pairwise.filter _ hd) hb]
  simp only [List.mem_filter, Bool.not_eq_true', ← Bool.not_eq_true, starts_in_iff hne hend,
    and_assoc]

theorem unmapsWhole_of_exact {ret : BitVec 32} {host : Mem}
    (h : UnmapExact m (m.munmap ret host addr size).2 addr size needed) :
    UnmapsWhole m addr size needed := by
  constructor
  · intro r hr hallow
    by_contra hcut
    simp only [not_or, not_forall, Classical.not_not] at hcut
    obtain ⟨⟨out, hout, hnotin⟩, inn, hinn, hin⟩ := hcut
    have hlt : ∀ b, r.Covers b → b.toNat + 1 < 2 ^ 64 := by
      intro b hb
      have hr := hw r hr
      unfold NoWrap at hr
      rw [MemRegion.Covers, sub_toNat_lt_iff (Nat.le_of_lt hr)] at hb
      omega
    have hbefore : ∀ b, r.Covers b → m.check_perms b 1#64 needed = true := fun b hb =>
      (check_byte_iff hw hd (hlt b hb)).mpr ⟨r, hr, hb, hallow⟩
    by_cases hstart : InPages addr size r.addr
    · -- the region is gone, and with it the byte outside of the range
      have hafter := (h out).mpr ⟨hbefore out hout, hnotin⟩
      rw [check_byte_munmap hw hd hne hend _ _ (hlt out hout)] at hafter
      obtain ⟨q, hq, hqstart, hqout, -⟩ := hafter
      exact hqstart (eq_of_covers hd hr hq hout hqout ▸ hstart)
    · -- the region stays, and with it the byte in the range
      have hafter := (check_byte_munmap hw hd hne hend ret host (hlt inn hinn)).mpr
        ⟨r, hr, hstart, hinn, hallow⟩
      exact ((h inn).mp hafter).2 hin
  · have hlast := h (BitVec.allOnes 64)
    rw [check_perms, check_perms, check_last_byte, check_last_byte, munmap_regions,
      and_iff_left (last_notIn hne hend)] at hlast
    exact Bool.eq_iff_iff.mpr hlast

theorem exact_of_unmapsWhole (ret : BitVec 32) (host : Mem) (h : UnmapsWhole m addr size needed) :
    UnmapExact m (m.munmap ret host addr size).2 addr size needed := by
  intro b
  by_cases hb : b.toNat + 1 < 2 ^ 64
  · rw [check_byte_munmap hw hd hne hend ret host hb, check_perms, check_byte_iff hw hd hb]
    constructor
    · rintro ⟨r, hr, hstart, hrb, hallow⟩
      refine ⟨⟨r, hr, hrb, hallow⟩, ?_⟩
      rcases h.whole r hr hallow with hin | hout
      · exact absurd (hin _ (covers_addr hrb)) hstart
      · exact hout b hrb
    · rintro ⟨⟨r, hr, hrb, hallow⟩, hnot⟩
      refine ⟨r, hr, fun hstart => ?_, hrb, hallow⟩
      rcases h.whole r hr hallow with hin | hout
      · exact hnot (hin b hrb)
      · exact hout _ (covers_addr hrb) hstart
  · have hlast : b = BitVec.allOnes 64 := by
      apply BitVec.eq_of_toNat_eq
      rw [BitVec.toNat_allOnes]
      omega
    rw [hlast, check_perms, check_perms, check_last_byte, check_last_byte, munmap_regions, h.first,
      and_iff_left (last_notIn hne hend)]

end Unmap

/-- **Unmapping**: with disjoint regions, behind an accepted `munmap` the single bytes that
`check_perms` grants are those it granted before outside of the range exactly if the range cuts no
region that grants the access; and the last byte, for which the first region answers, stays as it
was. -/
theorem munmap_exact_iff {host : Mem} {base total_size : Word} {es : List (MemoryManager × MapOp)}
    {m : MemoryManager} (h : Runs host base total_size es m) (hdoc : ∀ e ∈ es, e.2.Documented)
    (hd : RegionsDisjoint m.regions_) {host_munmap : Word → Word → BitVec 32}
    (hhost : HostMunmap host_munmap) {addr size : Word}
    (haccept : host_munmap addr (page_align size) = 0#32) (host' : Mem) (needed : BitVec 32) :
    UnmapExact m (m.munmap (host_munmap addr (page_align size)) host' addr size).2 addr size needed ↔
      UnmapsWhole m addr size needed := by
  have hw := noWrap_of_runs h hdoc
  obtain ⟨hne, hend⟩ := hhost _ _ haccept
  exact ⟨unmapsWhole_of_exact hw hd hne hend, exact_of_unmapsWhole hw hd hne hend _ _⟩

/-- A host that unmaps every page range below `2 ^ 47`. -/
def unmaps_user (addr size : Word) : BitVec 32 := if maps_user addr size 0#32 then 0#32 else -1#32

theorem maps_user_lt {addr size : Word} {prot : BitVec 32} (h : maps_user addr size prot = true) :
    size ≠ 0#64 ∧ addr.toNat + size.toNat < 2 ^ 64 := by
  simp only [maps_user, decide_eq_true_eq] at h
  obtain ⟨-, hpos, hlt⟩ := h
  refine ⟨?_, by omega⟩
  rintro rfl
  cases hpos

theorem hostMunmap_user : HostMunmap unmaps_user := by
  intro addr size h
  unfold unmaps_user at h
  split_ifs at h with hok
  · exact maps_user_lt hok
  · exact absurd h (by decide)

/-- Three pages at 0x10000. -/
def three_pages : MemoryManager := fresh.apply (map_at 0x10000#64 0x3000#64)

theorem runs_three_pages : Runs (fun _ => 0#8) 0x100000000#64 0x100000000#64
    [(fresh, map_at 0x10000#64 0x3000#64)] three_pages := runs_fresh.apply _

theorem three_pages_documented :
    ∀ e ∈ [(fresh, map_at 0x10000#64 0x3000#64)], e.2.Documented :=
  List.forall_mem_singleton.mpr fun _ _ _ h => (maps_user_lt h).2

theorem three_pages_disjoint : RegionsDisjoint three_pages.regions_ := List.pairwise_singleton _ _

/-- All three pages. -/
theorem munmap_exact_iff_whole :
    UnmapExact three_pages (three_pages.munmap (unmaps_user 0x10000#64 0x3000#64) (fun _ => 0#8)
        0x10000#64 0x3000#64).2 0x10000#64 0x3000#64 PROT_READ ↔
      UnmapsWhole three_pages 0x10000#64 0x3000#64 PROT_READ :=
  munmap_exact_iff runs_three_pages three_pages_documented three_pages_disjoint hostMunmap_user
    (by decide) _ _

/-- The page in the middle stays readable. -/
theorem munmap_middle : ∃ es m, Runs (fun _ => 0#8) 0x100000000#64 0x100000000#64 es m ∧
    RegionsDisjoint m.regions_ ∧ unmaps_user 0x11000#64 (page_align 4096#64) = 0#32 ∧
      ¬ UnmapExact m (m.munmap 0#32 (fun _ => 0#8) 0x11000#64 4096#64).2 0x11000#64 4096#64
        PROT_READ := by
  refine ⟨_, _, runs_three_pages, three_pages_disjoint, by decide, fun h => ?_⟩
  exact ((h 0x11000#64).mp (by decide)).2 ⟨by decide, by decide⟩

/-! ## Pages -/

/-- A range of whole pages. -/
def OnPages (addr size : Word) : Prop :=
  4096 ∣ addr.toNat ∧ 4096 ∣ size.toNat ∧ addr.toNat + size.toNat < 2 ^ 64

/-- A region of whole pages contains a range within a page exactly if it contains the page. -/
theorem contains_page_iff {region : MemRegion} (hr : OnPages region.addr region.size) {page a : Word}
    {k : ℕ} (hpage : 4096 ∣ page.toNat) (hend : page.toNat + 4096 < 2 ^ 64) (hk : 0 < k)
    (ha : page.toNat ≤ a.toNat) (hak : a.toNat + k ≤ page.toNat + 4096) :
    (region.addr ≤ a ∧ a + BitVec.ofNat 64 k ≤ region.addr + region.size) ↔
      region.addr ≤ page ∧ page + 4096#64 ≤ region.addr + region.size := by
  obtain ⟨haddr, hsize, hwrap⟩ := hr
  rw [BitVec.le_def, BitVec.le_def, BitVec.le_def, BitVec.le_def, BitVec.toNat_add,
    BitVec.toNat_add, BitVec.toNat_add, BitVec.toNat_ofNat, BitVec.toNat_ofNat]
  omega

/-- Within a page, one region answers for all ranges. -/
theorem check_in_page {regions : List MemRegion} (hr : ∀ r ∈ regions, OnPages r.addr r.size)
    {page a : Word} {k : ℕ} (hpage : 4096 ∣ page.toNat) (hend : page.toNat + 4096 < 2 ^ 64)
    (hk : 0 < k) (ha : page.toNat ≤ a.toNat) (hak : a.toNat + k ≤ page.toNat + 4096)
    (needed : BitVec 32) : check_perms_in a (BitVec.ofNat 64 k) needed regions =
      check_perms_in page 4096#64 needed regions := by
  induction regions with
  | nil => rfl
  | cons r regions ih =>
    obtain ⟨hr, hrest⟩ := List.forall_mem_cons.mp hr
    unfold check_perms_in
    simp only [contains_page_iff hr hpage hend hk ha hak, ih hrest]

/-- The region that answers for the accesses within a page. -/
def page_region (page : Word) (regions : List MemRegion) : Option MemRegion :=
  regions.find? fun region => region.addr ≤ page ∧ page + 4096#64 ≤ region.addr + region.size

/-- A writable region behind the others answers where none of them does. -/
theorem check_append_iff {regions : List MemRegion} {page : Word} {last : MemRegion}
    (hlast : last.addr ≤ page ∧ page + 4096#64 ≤ last.addr + last.size)
    (hperms : last.perms &&& PROT_WRITE = PROT_WRITE) :
    check_perms_in page 4096#64 PROT_WRITE (regions ++ [last]) = true ↔
      ∀ r, page_region page regions = some r → r.perms &&& PROT_WRITE = PROT_WRITE := by
  unfold page_region
  induction regions with
  | nil =>
    rw [List.nil_append, List.find?_nil]
    unfold check_perms_in
    rw [if_pos hlast]
    exact iff_of_true (decide_eq_true hperms) fun r he => absurd he.symm (Option.some_ne_none r)
  | cons r regions ih =>
    rw [List.cons_append]
    unfold check_perms_in
    by_cases hin : r.addr ≤ page ∧ page + 4096#64 ≤ r.addr + r.size
    · have hne : PROT_WRITE ≠ PROT_READ := by decide
      rw [if_pos hin, if_neg fun h => hne h.1, decide_eq_true_iff, List.find?_cons,
        decide_eq_true hin]
      exact ⟨fun h _ he => Option.some.inj he ▸ h, fun h => h r rfl⟩
    · rw [if_neg hin, ih, List.find?_cons, decide_eq_false hin]

end MemoryManager

end Bbarm64
