import Bbarm64.Core.Regions

/-!
# Core.Protect — which bytes `mprotect` changes

`mprotect` gives the first region that starts at `addr` the new permissions, all of it, whatever the
size is and whether or not the host accepts the call.  A region that starts elsewhere keeps its
permissions although it may lie in the range.  The single bytes answer as they should exactly if none
of this makes a difference to the answers (`mprotect_exact_iff`).
-/

namespace Bbarm64

open X86

namespace MemoryManager

open ELFLoader (allows)

/-- What a page of protection `prot` grants. -/
def grants (prot needed : BitVec 32) : Bool :=
  if needed = PROT_READ ∧ prot &&& PROT_EXEC ≠ 0 then true else prot &&& needed = needed

/-- The region whose permissions `mprotect` sets. -/
def target (addr : Word) (regions : List MemRegion) : Option MemRegion :=
  regions.find? (·.addr = addr)

/-- Every page of the range is mapped. -/
def RangeMapped (regions : List MemRegion) (addr size : Word) : Prop :=
  ∀ b, InPages addr size b → ∃ r ∈ regions, r.Covers b

/-- Behind the call, a byte of the range answers by `prot` and every other byte as before; if the host
refused, every byte answers as before. -/
structure ProtectExact (m : MemoryManager) (ret : BitVec 32) (addr size : Word)
    (prot needed : BitVec 32) : Prop where
  inside : ret = 0#32 → ∀ b, InPages addr size b →
    (m.mprotect ret addr prot).2.check_perms b 1#64 needed = grants prot needed
  outside : ret = 0#32 → ∀ b, ¬ InPages addr size b →
    (m.mprotect ret addr prot).2.check_perms b 1#64 needed = m.check_perms b 1#64 needed
  refused : ret ≠ 0#32 → ∀ b,
    (m.mprotect ret addr prot).2.check_perms b 1#64 needed = m.check_perms b 1#64 needed

/-- A region with a byte in the range, other than the first one that starts at `addr`, answers by `prot`
already; and so does that one if it has a byte that must keep its answer.  The first region of the list
has one: it answers for the last byte of the address space. -/
structure ProtectsWhole (regions : List MemRegion) (ret : BitVec 32) (addr size : Word)
    (prot needed : BitVec 32) : Prop where
  elsewhere : ret = 0#32 → ∀ r ∈ regions, target addr regions ≠ some r →
    (∃ b, r.Covers b ∧ InPages addr size b) → allows r needed = grants prot needed
  beyond : ∀ r, target addr regions = some r →
    (regions.head? = some r ∨ ∃ b, r.Covers b ∧ ¬ (ret = 0#32 ∧ InPages addr size b)) →
    allows r needed = grants prot needed

/-! ## The region list behind the call -/

section Target

variable {regions : List MemRegion} {addr : Word} {prot : BitVec 32} {r : MemRegion}

theorem mem_set_perms_of_target (h : target addr regions = some r) :
    { r with perms := prot } ∈ set_perms addr prot regions := by
  induction regions with
  | nil => cases h
  | cons q regions ih =>
    unfold set_perms
    rw [target, List.find?_cons] at h
    split_ifs with hq
    · rw [decide_eq_true hq] at h
      obtain rfl := Option.some.inj h
      exact List.mem_cons_self
    · rw [decide_eq_false hq] at h
      exact List.mem_cons_of_mem _ (ih h)

theorem mem_set_perms_of_ne (hr : r ∈ regions) (h : target addr regions ≠ some r) :
    r ∈ set_perms addr prot regions := by
  induction regions with
  | nil => cases hr
  | cons q regions ih =>
    unfold set_perms
    rw [target, List.find?_cons] at h
    split_ifs with hq
    · rw [decide_eq_true hq] at h
      refine List.mem_cons_of_mem _ ((List.mem_cons.mp hr).resolve_left ?_)
      rintro rfl
      exact h rfl
    · rw [decide_eq_false hq] at h
      rcases List.mem_cons.mp hr with rfl | hr
      · exact List.mem_cons_self
      · exact List.mem_cons_of_mem _ (ih hr h)

theorem noWrap_set_perms (hw : ∀ r ∈ regions, NoWrap r) :
    ∀ r ∈ set_perms addr prot regions, NoWrap r :=
  (ranges_congr (P := fun addr size => addr.toNat + size.toNat < 2 ^ 64)
    (set_perms_ranges addr prot regions)).mpr hw

/-- The first region of the list behind the call. -/
theorem head_set_perms : (set_perms addr prot regions).head? = regions.head?.map fun r =>
    if r.addr = addr then { r with perms := prot } else r := by
  cases regions with
  | nil => rfl
  | cons q regions =>
    unfold set_perms
    split_ifs with hq
    · rw [List.head?_cons, List.head?_cons, Option.map_some, if_pos hq]
    · rw [List.head?_cons, List.head?_cons, Option.map_some, if_neg hq]

theorem target_eq_head (hhead : regions.head? = some r) (hr : r.addr = addr) :
    target addr regions = some r := by
  cases regions with
  | nil => cases hhead
  | cons q regions =>
    obtain rfl := Option.some.inj hhead
    rw [target, List.find?_cons, decide_eq_true hr]

end Target

/-! ## Single bytes -/

section Bytes

variable {regions : List MemRegion} {b : Word} {needed : BitVec 32} {r : MemRegion}

/-- A byte is answered for by the region it lies in. -/
theorem check_of_covers (hw : ∀ r ∈ regions, NoWrap r) (hd : RegionsDisjoint regions)
    (hr : r ∈ regions) (hb : r.Covers b) : check_perms_in b 1#64 needed regions = allows r needed := by
  have hlt : b.toNat + 1 < 2 ^ 64 := by
    have hend := hw r hr
    rw [NoWrap] at hend
    rw [MemRegion.Covers, sub_toNat_lt_iff (Nat.le_of_lt hend)] at hb
    omega
  rw [Bool.eq_iff_iff, check_byte_iff hw hd hlt]
  constructor
  · rintro ⟨q, hq, hqb, hallow⟩
    rw [eq_of_covers hd hr hq hb hqb]
    exact hallow
  · intro hallow
    exact ⟨r, hr, hb, hallow⟩

theorem check_of_uncovered (hw : ∀ r ∈ regions, NoWrap r) (hd : RegionsDisjoint regions)
    (hlt : b.toNat + 1 < 2 ^ 64) (hno : ∀ r ∈ regions, ¬ r.Covers b) :
    check_perms_in b 1#64 needed regions = false := by
  rw [← Bool.not_eq_true, check_byte_iff hw hd hlt]
  rintro ⟨r, hr, hb, -⟩
  exact hno r hr hb

end Bytes

section Protect

variable {m : MemoryManager} {ret : BitVec 32} {addr size : Word} {prot needed : BitVec 32} {b : Word}
  {r : MemRegion} (hw : ∀ r ∈ m.regions_, NoWrap r) (hd : RegionsDisjoint m.regions_)
include hw hd

/-- What a byte of a region answers behind the call. -/
theorem check_mprotect_of_covers (hr : r ∈ m.regions_) (hb : r.Covers b) :
    (m.mprotect ret addr prot).2.check_perms b 1#64 needed =
      if target addr m.regions_ = some r then grants prot needed else allows r needed := by
  have hw' : ∀ r ∈ set_perms addr prot m.regions_, NoWrap r := noWrap_set_perms hw
  have hd' := (regionsDisjoint_congr (set_perms_ranges addr prot m.regions_)).mpr hd
  show check_perms_in b 1#64 needed (set_perms addr prot m.regions_) = _
  split_ifs with ht
  · exact check_of_covers (r := { r with perms := prot }) hw' hd' (mem_set_perms_of_target ht) hb
  · exact check_of_covers hw' hd' (mem_set_perms_of_ne hr ht) hb

theorem check_mprotect_of_uncovered (hlt : b.toNat + 1 < 2 ^ 64) (hno : ∀ r ∈ m.regions_, ¬ r.Covers b) :
    (m.mprotect ret addr prot).2.check_perms b 1#64 needed = m.check_perms b 1#64 needed := by
  have hw' : ∀ r ∈ set_perms addr prot m.regions_, NoWrap r := noWrap_set_perms hw
  have hd' := (regionsDisjoint_congr (set_perms_ranges addr prot m.regions_)).mpr hd
  have hno' : ∀ r ∈ set_perms addr prot m.regions_, ¬ r.Covers b :=
    (ranges_congr (P := fun addr size => ¬ (b - addr).toNat < size.toNat)
      (set_perms_ranges addr prot m.regions_)).mpr hno
  exact (check_of_uncovered hw' hd' hlt hno').trans (check_of_uncovered hw hd hlt hno).symm

omit hw hd in
/-- The last byte is answered for by the first region of the list. -/
theorem check_mprotect_last : (m.mprotect ret addr prot).2.check_perms (BitVec.allOnes 64) 1#64 needed =
    m.regions_.head?.any fun r => if r.addr = addr then grants prot needed else allows r needed := by
  show check_perms_in (BitVec.allOnes 64) 1#64 needed (set_perms addr prot m.regions_) = _
  rw [check_last_byte, head_set_perms, Option.any_map]
  congr 1
  funext r
  show allows (if r.addr = addr then _ else r) needed = _
  split_ifs
  · rfl
  · rfl

omit hd in
theorem last_notIn_of_mapped (hmapped : RangeMapped m.regions_ addr size) :
    ¬ InPages addr size (BitVec.allOnes 64) := by
  intro hin
  obtain ⟨r, hr, hb⟩ := hmapped _ hin
  have hend := hw r hr
  rw [NoWrap] at hend
  rw [MemRegion.Covers, sub_toNat_lt_iff (Nat.le_of_lt hend), BitVec.toNat_allOnes] at hb
  omega

theorem protectsWhole_of_exact (hmapped : RangeMapped m.regions_ addr size)
    (h : ProtectExact m ret addr size prot needed) :
    ProtectsWhole m.regions_ ret addr size prot needed := by
  have hkept : ∀ b, ¬ (ret = 0#32 ∧ InPages addr size b) →
      (m.mprotect ret addr prot).2.check_perms b 1#64 needed = m.check_perms b 1#64 needed := by
    intro b hb
    by_cases hret : ret = 0#32
    · exact h.outside hret b fun hin => hb ⟨hret, hin⟩
    · exact h.refused hret b
  constructor
  · rintro hret r hr ht ⟨b, hb, hin⟩
    have hafter := h.inside hret b hin
    rw [check_mprotect_of_covers hw hd hr hb, if_neg ht] at hafter
    exact hafter
  · rintro r ht (hhead | ⟨b, hb, hout⟩)
    · have hlast := hkept (BitVec.allOnes 64) fun hin => last_notIn_of_mapped hw hmapped hin.2
      have haddr : r.addr = addr := by simpa using List.find?_some ht
      rw [check_mprotect_last, check_perms, check_last_byte, hhead, Option.any_some, Option.any_some,
        if_pos haddr] at hlast
      exact hlast.symm
    · have hr := List.mem_of_find?_eq_some ht
      have hsame := hkept b hout
      rw [check_mprotect_of_covers hw hd hr hb, if_pos ht, check_perms,
        check_of_covers hw hd hr hb] at hsame
      exact hsame.symm

theorem exact_of_protectsWhole (hmapped : RangeMapped m.regions_ addr size)
    (h : ProtectsWhole m.regions_ ret addr size prot needed) :
    ProtectExact m ret addr size prot needed := by
  have hkept : ∀ b, ¬ (ret = 0#32 ∧ InPages addr size b) →
      (m.mprotect ret addr prot).2.check_perms b 1#64 needed = m.check_perms b 1#64 needed := by
    intro b hb
    by_cases hlt : b.toNat + 1 < 2 ^ 64
    · by_cases hc : ∃ r ∈ m.regions_, r.Covers b
      · obtain ⟨r, hr, hrb⟩ := hc
        rw [check_mprotect_of_covers hw hd hr hrb, check_perms, check_of_covers hw hd hr hrb]
        split_ifs with ht
        · exact (h.beyond r ht (.inr ⟨b, hrb, hb⟩)).symm
        · rfl
      · exact check_mprotect_of_uncovered hw hd hlt fun r hr hrb => hc ⟨r, hr, hrb⟩
    · have hlast : b = BitVec.allOnes 64 := by
        apply BitVec.eq_of_toNat_eq
        rw [BitVec.toNat_allOnes]
        omega
      rw [hlast, check_mprotect_last, check_perms, check_last_byte]
      cases hhead : m.regions_.head? with
      | none => rfl
      | some r =>
        rw [Option.any_some, Option.any_some]
        split_ifs with haddr
        · exact (h.beyond r (target_eq_head hhead haddr) (.inl hhead)).symm
        · rfl
  refine ⟨fun hret b hin => ?_, fun _ b hout => hkept b fun hin => hout hin.2, fun hret b =>
    hkept b fun hin => hret hin.1⟩
  obtain ⟨r, hr, hrb⟩ := hmapped b hin
  rw [check_mprotect_of_covers hw hd hr hrb]
  split_ifs with ht
  · rfl
  · exact h.elsewhere hret r hr ht ⟨b, hrb, hin⟩

end Protect

/-- **Protecting**: with disjoint regions, behind an `mprotect` of mapped pages the single bytes answer as
they should exactly if no other region with a byte in the range had to change its answer, and the first
one that starts at `addr` has no byte that had to keep it. -/
theorem mprotect_exact_iff {host : Mem} {base total_size : Word} {es : List (MemoryManager × MapOp)}
    {m : MemoryManager} (h : Runs host base total_size es m) (hdoc : ∀ e ∈ es, e.2.Documented)
    (hd : RegionsDisjoint m.regions_) {addr size : Word} (hmapped : RangeMapped m.regions_ addr size)
    (ret prot needed : BitVec 32) : ProtectExact m ret addr size prot needed ↔
      ProtectsWhole m.regions_ ret addr size prot needed := by
  have hw := noWrap_of_runs h hdoc
  exact ⟨protectsWhole_of_exact hw hd hmapped, exact_of_protectsWhole hw hd hmapped⟩

theorem three_pages_mapped {addr size : Word} (hlo : 0x10000 ≤ addr.toNat)
    (hhi : addr.toNat + (size.toNat + 4095) / 4096 * 4096 ≤ 0x13000) :
    RangeMapped three_pages.regions_ addr size := by
  rintro b ⟨hb, hb'⟩
  refine ⟨_, List.mem_singleton_self _, ?_⟩
  show (b - 0x10000#64).toNat < (page_align 0x3000#64).toNat
  rw [sub_toNat_lt_iff (by decide)]
  have hsize : (page_align 0x3000#64).toNat = 0x3000 := by decide
  have hstart : (0x10000#64).toNat = 0x10000 := by decide
  omega

/-- All three pages, read-only from now on. -/
theorem mprotect_exact_iff_whole :
    ProtectExact three_pages 0#32 0x10000#64 0x3000#64 PROT_READ PROT_WRITE ↔
      ProtectsWhole three_pages.regions_ 0#32 0x10000#64 0x3000#64 PROT_READ PROT_WRITE :=
  mprotect_exact_iff runs_three_pages three_pages_documented three_pages_disjoint
    (three_pages_mapped (by decide) (by decide)) 0#32 PROT_READ PROT_WRITE

/-- The page in the middle stays writable. -/
theorem mprotect_middle : ∃ es m, Runs (fun _ => 0#8) 0x100000000#64 0x100000000#64 es m ∧
    (∀ e ∈ es, e.2.Documented) ∧ RegionsDisjoint m.regions_ ∧
    RangeMapped m.regions_ 0x11000#64 0x1000#64 ∧
    ¬ ProtectExact m 0#32 0x11000#64 0x1000#64 PROT_READ PROT_WRITE := by
  refine ⟨_, _, runs_three_pages, three_pages_documented, three_pages_disjoint,
    three_pages_mapped (by decide) (by decide), fun h => ?_⟩
  have hbyte := h.inside rfl 0x11000#64 ⟨by decide, by decide⟩
  exact absurd hbyte (by decide)

end MemoryManager

end Bbarm64
