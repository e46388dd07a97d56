import Bbarm64.Elf.Loader
import Bbarm64.Lib.Patch

/-!
# Elf.Segments — what `load_segments` leaves in memory

A `PT_LOAD` is a patch of memory: on its pages, the file's bytes and zeros around them.  One round of
the loop applies the patch and adds the region with the segment's permissions, since the region that
`mprotect` finds by its start is the one just added.  The loop applies the patches of all headers,
and with disjoint pages every segment is there in the end.
-/

namespace Bbarm64

open X86

namespace ELFLoader

/-! ## Segments -/

/-- What a header must satisfy: no more file bytes than memory, the bytes in the file, not on page 0,
and pages that do not wrap. -/
structure SegmentOk (elf_data : List Byte) (ph : ELFProgramHeader) : Prop where
  filesz_le : ph.filesz.toNat ≤ ph.memsz.toNat
  in_file : ph.offset.toNat + ph.filesz.toNat ≤ elf_data.length
  vaddr_ge : 4096 ≤ ph.vaddr.toNat
  no_wrap : ph.vaddr.toNat + ph.memsz.toNat + 4095 < 2 ^ 64

/-- The first page, and the end of the last one. -/
def page_start (ph : ELFProgramHeader) : ℕ := ph.vaddr.toNat / 4096 * 4096

def page_end (ph : ELFProgramHeader) : ℕ := (ph.vaddr.toNat + ph.memsz.toNat + 4095) / 4096 * 4096

def pages (ph : ELFProgramHeader) : Set Word :=
  {a | page_start ph ≤ a.toNat ∧ a.toNat < page_end ph}

/-- The two segments have no page in common. -/
def PagesApart (p q : ELFProgramHeader) : Prop := Disjoint (pages p) (pages q)

/-- The byte a segment asks for at `a`. -/
def segment_byte (elf_data : List Byte) (ph : ELFProgramHeader) (a : Word) : Byte :=
  if ph.vaddr.toNat ≤ a.toNat ∧ a.toNat < ph.vaddr.toNat + ph.filesz.toNat then
    elf_data.getD (ph.offset.toNat + (a.toNat - ph.vaddr.toNat)) 0#8
  else 0#8

def segment_patch (elf_data : List Byte) (ph : ELFProgramHeader) : Patch Word Byte :=
  ⟨pages ph, segment_byte elf_data ph⟩

def segment_region (ph : ELFProgramHeader) : MemRegion where
  addr := page_vaddr ph
  size := map_size ph
  perms := prot_of ph.flags

/-- The memory manager with these segments loaded. -/
noncomputable def with_segments (elf_data : List Byte) (phs : List ELFProgramHeader)
    (m : MemoryManager) : MemoryManager :=
  { m with host := Patch.applyAll (phs.map (segment_patch elf_data)) m.host
           regions_ := m.regions_ ++ phs.map segment_region }

theorem with_segments_cons (elf_data : List Byte) (ph : ELFProgramHeader)
    (phs : List ELFProgramHeader) (m : MemoryManager) :
    with_segments elf_data (ph :: phs) m =
      with_segments elf_data phs (with_segments elf_data [ph] m) := by
  simp [with_segments]

/-! ## One round -/

section Round

variable {elf_data : List Byte} {ph : ELFProgramHeader}

theorem and_mask (v : Word) : (v &&& 4095#64).toNat = v.toNat % 4096 := by
  rw [BitVec.toNat_and]
  exact Nat.and_two_pow_sub_one_eq_mod v.toNat 12

theorem and_not_mask (v : Word) : (v &&& ~~~4095#64).toNat = v.toNat / 4096 * 4096 := by
  have hdisjoint : (v &&& ~~~4095#64) &&& (v &&& 4095#64) = 0#64 := by
    ext i hi
    simp only [BitVec.getElem_and, BitVec.getElem_not, BitVec.getElem_zero]
    cases v[i] <;> cases (4095#64)[i] <;> rfl
  have hunion : (v &&& ~~~4095#64) ||| (v &&& 4095#64) = v := by
    ext i hi
    simp only [BitVec.getElem_or, BitVec.getElem_and, BitVec.getElem_not]
    cases v[i] <;> cases (4095#64)[i] <;> rfl
  have hsum := BitVec.toNat_add_of_and_eq_zero hdisjoint
  rw [BitVec.add_eq_or_of_and_eq_zero _ _ hdisjoint, hunion, and_mask] at hsum
  omega

theorem page_vaddr_toNat (ph : ELFProgramHeader) : (page_vaddr ph).toNat = page_start ph :=
  and_not_mask ph.vaddr

theorem page_offset_toNat (ph : ELFProgramHeader) : (page_offset ph).toNat = ph.vaddr.toNat % 4096 :=
  and_mask ph.vaddr

theorem page_vaddr_add (ph : ELFProgramHeader) : page_vaddr ph + page_offset ph = ph.vaddr := by
  apply BitVec.eq_of_toNat_eq
  have h := ph.vaddr.isLt
  rw [BitVec.toNat_add, page_vaddr_toNat, page_offset_toNat, page_start]
  omega

variable (ok : SegmentOk elf_data ph)
include ok

theorem map_size_toNat : (map_size ph).toNat = page_end ph - page_start ph := by
  have h := ok.no_wrap
  rw [map_size, and_not_mask, BitVec.toNat_add, BitVec.toNat_add, page_offset_toNat, page_start,
    page_end]
  simp only [BitVec.toNat_ofNat]
  omega

omit ok in
theorem page_align_map_size (ph : ELFProgramHeader) :
    MemoryManager.page_align (map_size ph) = map_size ph := by
  apply BitVec.eq_of_toNat_eq
  have hsize : (map_size ph).toNat = (page_offset ph + ph.memsz + 4095#64).toNat / 4096 * 4096 :=
    and_not_mask _
  have hlt := (page_offset ph + ph.memsz + 4095#64).isLt
  rw [MemoryManager.page_align, PAGE_MASK, and_not_mask, BitVec.toNat_add, hsize]
  simp only [BitVec.toNat_ofNat]
  omega

theorem page_vaddr_ne_zero : page_vaddr ph ≠ 0#64 := by
  have h := ok.vaddr_ge
  intro h0
  have hn := page_vaddr_toNat ph
  rw [h0, page_start] at hn
  simp only [BitVec.toNat_ofNat] at hn
  omega

omit ok in
/-- A test for a range that is not empty makes no difference. -/
theorem ite_poke {c : Prop} [Decidable c] {n : Word} (h : ¬ c → n = 0#64) (m : MemoryManager)
    (dst : Word) (src : ℕ → Byte) : (if c then poke m dst n src else m) = poke m dst n src := by
  split_ifs with hc
  · rfl
  · have hfill : fill m.host dst 0 src = m.host := by
      funext a
      exact fill_of_le (Nat.zero_le _)
    rw [poke, h hc, BitVec.toNat_ofNat, Nat.zero_mod, hfill]

/-- The stores of a round, in order: the fresh pages, the file's bytes, the zeros behind them and the
zeros before. -/
theorem segment_fills (host : Mem) :
    fill (fill (fill (fill host (page_vaddr ph) (map_size ph).toNat fun _ => 0#8) ph.vaddr
      ph.filesz.toNat fun i => elf_data.getD (ph.offset.toNat + i) 0#8) (ph.vaddr + ph.filesz)
      (ph.memsz - ph.filesz).toNat fun _ => 0#8) (page_vaddr ph) (page_offset ph).toNat (fun _ => 0#8) =
    (segment_patch elf_data ph).apply host := by
  have hsize := map_size_toNat ok
  obtain ⟨hle, -, -, hwrap⟩ := ok
  have hstart := page_vaddr_toNat ph
  have hoff := page_offset_toNat ph
  have hbss : (ph.vaddr + ph.filesz).toNat = ph.vaddr.toNat + ph.filesz.toNat := by
    rw [BitVec.toNat_add]
    omega
  have hrest : (ph.memsz - ph.filesz).toNat = ph.memsz.toNat - ph.filesz.toNat :=
    BitVec.toNat_sub_of_le (BitVec.le_def.mpr hle)
  have hpages : page_start ph = ph.vaddr.toNat / 4096 * 4096 ∧
      page_end ph = (ph.vaddr.toNat + ph.memsz.toNat + 4095) / 4096 * 4096 := ⟨rfl, rfl⟩
  funext a
  rw [fill_eq (by omega), fill_eq (by omega), fill_eq (by omega), fill_eq (by omega), hstart, hoff,
    hsize, hbss, hrest]
  by_cases ha : a ∈ pages ph
  · rw [Patch.apply_of_mem ha]
    have hin : page_start ph ≤ a.toNat ∧ a.toNat < page_end ph := ha
    change _ = segment_byte elf_data ph a
    unfold segment_byte
    split_ifs <;> first | rfl | omega
  · rw [Patch.apply_of_notMem ha]
    have hout : ¬ (page_start ph ≤ a.toNat ∧ a.toNat < page_end ph) := ha
    split_ifs <;> first | rfl | omega

omit ok in
/-- `mprotect` finds the region just added. -/
theorem set_perms_append {addr size : Word} {perms prot : BitVec 32} {regions : List MemRegion}
    (h : ∀ region ∈ regions, region.addr ≠ addr) :
    MemoryManager.set_perms addr prot (regions ++ [({ addr, size, perms } : MemRegion)]) =
      regions ++ [{ addr, size, perms := prot }] := by
  induction regions with
  | nil => exact if_pos rfl
  | cons region regions ih =>
    obtain ⟨hne, h⟩ := List.forall_mem_cons.mp h
    rw [List.cons_append, MemoryManager.set_perms, if_neg hne, ih h, List.cons_append]

theorem mmap_eq (host_ok : Word → Word → BitVec 32 → Bool) (m : MemoryManager) (prot : BitVec 32) :
    m.mmap host_ok (map_size ph) prot (page_vaddr ph) =
      if host_ok (page_vaddr ph) (map_size ph) prot then
        (page_vaddr ph, { m with
          host := fill m.host (page_vaddr ph) (map_size ph).toNat fun _ => 0#8
          regions_ := m.regions_ ++ [{ addr := page_vaddr ph, size := map_size ph, perms := prot }] })
      else (0#64, m) := by
  have hne := page_vaddr_ne_zero ok
  unfold MemoryManager.mmap
  simp only [page_align_map_size ph, if_pos hne, if_neg hne]

theorem copy_segment_eq (m : MemoryManager) : copy_segment elf_data m ph =
    some (poke m ph.vaddr ph.filesz fun i => elf_data.getD (ph.offset.toNat + i) 0#8) := by
  have hfile : bytes elf_data ph.offset ph.filesz =
      some fun i => elf_data.getD (ph.offset.toNat + i) 0#8 := if_pos ok.in_file
  have hempty : ¬ 0#64 < ph.filesz → ph.filesz = 0#64 := fun h =>
    BitVec.le_zero_iff.mp (BitVec.not_lt.mp h)
  rw [copy_segment, page_vaddr_add, hfile, Option.map_some, ← ite_poke hempty]
  split_ifs <;> rfl

/-- A round on pages that the host refuses. -/
theorem load_segment_refused {host_ok : Word → Word → BitVec 32 → Bool} (m : MemoryManager)
    (hmap : host_ok (page_vaddr ph) (map_size ph) (prot_of ph.flags ||| PROT_WRITE) = false) :
    load_segment host_ok elf_data m ph = some (false, m) := by
  unfold load_segment
  dsimp only
  rw [mmap_eq ok, hmap]
  rfl

/-- **One round**: the segment is loaded. -/
theorem load_segment_eq {host_ok : Word → Word → BitVec 32 → Bool} {m : MemoryManager}
    (hmap : host_ok (page_vaddr ph) (map_size ph) (prot_of ph.flags ||| PROT_WRITE) = true)
    (hfresh : ∀ region ∈ m.regions_, region.addr ≠ page_vaddr ph) :
    load_segment host_ok elf_data m ph = some (true, with_segments elf_data [ph] m) := by
  have hbss : ¬ ph.filesz < ph.memsz → ph.memsz - ph.filesz = 0#64 := by
    intro h
    have hle := ok.filesz_le
    rw [BitVec.lt_def] at h
    rw [BitVec.toNat_inj.mp (show ph.memsz.toNat = ph.filesz.toNat by omega), BitVec.sub_self]
  have hpad : ¬ 0#64 < page_offset ph → page_offset ph = 0#64 := fun h =>
    BitVec.le_zero_iff.mp (BitVec.not_lt.mp h)
  have hseg : with_segments elf_data [ph] m =
      { m with host := (segment_patch elf_data ph).apply m.host
               regions_ := m.regions_ ++ [segment_region ph] } := rfl
  unfold load_segment
  dsimp only
  rw [mmap_eq ok]
  simp only [if_pos hmap, if_neg (page_vaddr_ne_zero ok), copy_segment_eq ok, ite_poke hbss,
    ite_poke hpad, page_vaddr_add, Option.bind_eq_bind, Option.bind_some]
  rw [hseg, ← segment_fills ok]
  split_ifs with hprot
  · rw [MemoryManager.mprotect, poke, poke, poke, set_perms_append hfresh]
    rfl
  · rw [poke, poke, poke, ← Classical.not_not.mp hprot]
    rfl

end Round

/-! ## The loop -/

/-- The `PT_LOAD`s. -/
def loads (phdrs : List ELFProgramHeader) : List ELFProgramHeader :=
  phdrs.filter fun ph => ph.type = PT_LOAD

theorem loads_cons_of_pos {ph : ELFProgramHeader} (phdrs : List ELFProgramHeader)
    (h : ph.type = PT_LOAD) : loads (ph :: phdrs) = ph :: loads phdrs :=
  List.filter_cons_of_pos (by simpa using h)

theorem loads_cons_of_neg {ph : ELFProgramHeader} (phdrs : List ELFProgramHeader)
    (h : ¬ ph.type = PT_LOAD) : loads (ph :: phdrs) = loads phdrs :=
  List.filter_cons_of_neg (by simpa using h)

section Loop

variable {host_ok : Word → Word → BitVec 32 → Bool} {elf_data : List Byte}

/-- Two segments with pages of their own, the second one not empty, start at different addresses. -/
theorem start_ne {p q : ELFProgramHeader} (hd : PagesApart p q)
    (hp : page_start p < page_end p) (hq : page_start q < page_end q) :
    page_vaddr p ≠ page_vaddr q := by
  have hin : ∀ {s : ELFProgramHeader}, page_start s < page_end s → page_vaddr s ∈ pages s := by
    intro s hs
    rw [pages, Set.mem_ofPred_eq, page_vaddr_toNat]
    exact ⟨Nat.le_refl _, hs⟩
  intro he
  exact Set.disjoint_left.mp hd (hin hp) (he ▸ hin hq)

/-- **The loop**: it reads inside the file, and it returns true exactly if the host accepts all pages;
then every segment is loaded, and none is empty. -/
theorem load_segments_run (hempty : ∀ addr prot, host_ok addr 0#64 prot = false)
    {done phdrs : List ELFProgramHeader} {m : MemoryManager}
    (hregs : m.regions_ = done.map segment_region) (hdone : ∀ p ∈ done, page_start p < page_end p)
    (hok : ∀ ph ∈ loads phdrs, SegmentOk elf_data ph)
    (hd : (done ++ loads phdrs).Pairwise PagesApart) :
    ∃ r, load_segments host_ok elf_data m phdrs = some r ∧ (r.1 = true →
      r.2 = with_segments elf_data (loads phdrs) m ∧
        ∀ p ∈ loads phdrs, page_start p < page_end p) := by
  induction phdrs generalizing done m with
  | nil =>
    refine ⟨(true, m), rfl, fun _ => ⟨?_, nofun⟩⟩
    simp [with_segments, loads]
  | cons ph phdrs ih =>
    unfold load_segments
    by_cases htype : ph.type = PT_LOAD
    · rw [loads_cons_of_pos phdrs htype] at hok hd ⊢
      obtain ⟨hph, hok⟩ := List.forall_mem_cons.mp hok
      rw [if_neg (not_not_intro htype)]
      cases hmap : host_ok (page_vaddr ph) (map_size ph) (prot_of ph.flags ||| PROT_WRITE) with
      | false =>
        rw [load_segment_refused hph m hmap]
        exact ⟨(false, m), rfl, nofun⟩
      | true =>
        have hne : page_start ph < page_end ph := by
          by_contra hle
          have hzero : map_size ph = 0#64 := by
            apply BitVec.eq_of_toNat_eq
            rw [map_size_toNat hph, BitVec.toNat_ofNat]
            omega
          rw [hzero, hempty] at hmap
          cases hmap
        have hfresh : ∀ region ∈ m.regions_, region.addr ≠ page_vaddr ph := by
          intro region hr
          rw [hregs] at hr
          obtain ⟨p, hp, rfl⟩ := List.mem_map.mp hr
          exact start_ne ((List.pairwise_append.mp hd).2.2 p hp ph List.mem_cons_self) (hdone p hp) hne
        rw [load_segment_eq hph hmap hfresh]
        have hdone' : ∀ p ∈ done ++ [ph], page_start p < page_end p :=
          List.forall_mem_append.mpr ⟨hdone, List.forall_mem_singleton.mpr hne⟩
        have hregs' : (with_segments elf_data [ph] m).regions_ = (done ++ [ph]).map segment_region := by
          rw [List.map_append, ← hregs]
          rfl
        rw [List.append_cons] at hd
        obtain ⟨r, hr, hload⟩ := ih hregs' hdone' hok hd
        refine ⟨r, hr, fun h => ?_⟩
        obtain ⟨he, hrest⟩ := hload h
        exact ⟨he.trans (with_segments_cons elf_data ph _ m).symm,
          List.forall_mem_cons.mpr ⟨hne, hrest⟩⟩
    · rw [loads_cons_of_neg phdrs htype] at hok hd ⊢
      rw [if_pos htype]
      exact ih hregs hdone hok hd

end Loop

/-! ## Permissions -/

/-- What `check_perms` answers in a region. -/
def allows (region : MemRegion) (needed : BitVec 32) : Bool :=
  if needed = PROT_READ ∧ region.perms &&& PROT_EXEC ≠ 0 then true
  else region.perms &&& needed = needed

/-- A region that alone contains the range decides. -/
theorem check_perms_in_of_mem {addr len : Word} {needed : BitVec 32} {region : MemRegion}
    {regions : List MemRegion} (hr : region ∈ regions)
    (hin : region.addr ≤ addr ∧ addr + len ≤ region.addr + region.size)
    (hone : ∀ r ∈ regions, r.addr ≤ addr → addr + len ≤ r.addr + r.size → r = region) :
    MemoryManager.check_perms_in addr len needed regions = allows region needed := by
  induction regions with
  | nil => cases hr
  | cons r regions ih =>
    obtain ⟨hhead, hone⟩ := List.forall_mem_cons.mp hone
    unfold MemoryManager.check_perms_in
    by_cases hc : r.addr ≤ addr ∧ addr + len ≤ r.addr + r.size
    · rw [if_pos hc, hhead hc.1 hc.2]
      rfl
    · rw [if_neg hc]
      refine ih ((List.mem_cons.mp hr).resolve_left ?_) hone
      rintro rfl
      exact hc hin

/-- The bytes `addr .. addr + len - 1` are bytes of the segment. -/
def InSegment (ph : ELFProgramHeader) (addr len : Word) : Prop :=
  0 < len.toNat ∧ ph.vaddr.toNat ≤ addr.toNat ∧
    addr.toNat + len.toNat ≤ ph.vaddr.toNat + ph.memsz.toNat

section Permissions

variable {elf_data : List Byte} {ph : ELFProgramHeader} {addr len : Word}

/-- The end of a segment's region. -/
theorem region_end (ok : SegmentOk elf_data ph) :
    ((segment_region ph).addr + (segment_region ph).size).toNat = page_end ph := by
  have h := ok.no_wrap
  rw [segment_region, BitVec.toNat_add, page_vaddr_toNat, map_size_toNat ok, page_start, page_end]
  omega

/-- The region of a segment contains its bytes. -/
theorem contains_of_inSegment (ok : SegmentOk elf_data ph) (h : InSegment ph addr len) :
    (segment_region ph).addr ≤ addr ∧
      addr + len ≤ (segment_region ph).addr + (segment_region ph).size := by
  obtain ⟨hpos, hlo, hhi⟩ := h
  have hwrap := ok.no_wrap
  rw [BitVec.le_def, BitVec.le_def, region_end ok, BitVec.toNat_add]
  change (page_vaddr ph).toNat ≤ _ ∧ _
  rw [page_vaddr_toNat, page_start, page_end]
  omega

/-- A region that contains a byte of the segment shares a page with it. -/
theorem pages_of_contains {q : ELFProgramHeader} (okq : SegmentOk elf_data q)
    (ok : SegmentOk elf_data ph) (h : InSegment ph addr len) (hlo : (segment_region q).addr ≤ addr)
    (hhi : addr + len ≤ (segment_region q).addr + (segment_region q).size) :
    addr ∈ pages q ∧ addr ∈ pages ph := by
  obtain ⟨hpos, hlo', hhi'⟩ := h
  have hwrap := ok.no_wrap
  rw [BitVec.le_def] at hlo hhi
  rw [region_end okq, BitVec.toNat_add] at hhi
  change (page_vaddr q).toNat ≤ _ at hlo
  rw [page_vaddr_toNat] at hlo
  rw [pages, pages, Set.mem_ofPred_eq, Set.mem_ofPred_eq]
  refine ⟨⟨hlo, by omega⟩, ?_, ?_⟩
  · rw [page_start]
    omega
  · rw [page_end]
    omega

/-- What `check_perms` answers on the bytes of a loaded segment. -/
theorem check_perms_of_loaded {phs : List ELFProgramHeader} {m : MemoryManager}
    (hregs : m.regions_ = phs.map segment_region) (hok : ∀ p ∈ phs, SegmentOk elf_data p)
    (hd : phs.Pairwise PagesApart) (hph : ph ∈ phs)
    (h : InSegment ph addr len) (needed : BitVec 32) :
    m.check_perms addr len needed = allows (segment_region ph) needed := by
  have ok := hok ph hph
  rw [MemoryManager.check_perms, hregs]
  refine check_perms_in_of_mem (List.mem_map_of_mem hph) (contains_of_inSegment ok h) ?_
  intro r hr hlo hhi
  obtain ⟨q, hq, rfl⟩ := List.mem_map.mp hr
  obtain ⟨hinq, hin⟩ := pages_of_contains (hok q hq) ok h hlo hhi
  have hsymm : Std.Symm PagesApart := ⟨fun _ _ h => Disjoint.symm h⟩
  by_contra hne
  exact Set.disjoint_left.mp (hd.forall hq hph fun he => hne (by rw [he])) hinq hin

end Permissions

/-- The answers for the three permissions. -/
theorem allows_iff (ph : ELFProgramHeader) :
    (allows (segment_region ph) PROT_READ = true ↔ ph.flags &&& PF_R ≠ 0 ∨ ph.flags &&& PF_X ≠ 0) ∧
    (allows (segment_region ph) PROT_WRITE = true ↔ ph.flags &&& PF_W ≠ 0) ∧
    (allows (segment_region ph) PROT_EXEC = true ↔ ph.flags &&& PF_X ≠ 0) := by
  unfold allows segment_region prot_of
  by_cases hr : ph.flags &&& PF_R = 0 <;> by_cases hw : ph.flags &&& PF_W = 0 <;>
    by_cases hx : ph.flags &&& PF_X = 0 <;> simp +decide only [ne_eq, hr, hw, hx, if_true, if_false]

/-! ## Loaded segments -/

/-- The segment is in memory, with zeros before it on its first page, and `check_perms` answers by its
flags on its bytes. -/
structure Loaded (elf_data : List Byte) (ph : ELFProgramHeader) (m : MemoryManager) : Prop where
  bytes : ∀ i < ph.memsz.toNat, m.host (off ph.vaddr i) =
    if i < ph.filesz.toNat then elf_data.getD (ph.offset.toNat + i) 0#8 else 0#8
  padding : ∀ a : Word, page_start ph ≤ a.toNat → a.toNat < ph.vaddr.toNat → m.host a = 0#8
  read : ∀ addr len, InSegment ph addr len →
    (m.check_perms addr len PROT_READ = true ↔ ph.flags &&& PF_R ≠ 0 ∨ ph.flags &&& PF_X ≠ 0)
  write : ∀ addr len, InSegment ph addr len →
    (m.check_perms addr len PROT_WRITE = true ↔ ph.flags &&& PF_W ≠ 0)
  exec : ∀ addr len, InSegment ph addr len →
    (m.check_perms addr len PROT_EXEC = true ↔ ph.flags &&& PF_X ≠ 0)

/-- With pages of their own, the segments that were loaded are all there. -/
theorem loaded_of_with_segments {elf_data : List Byte} {phs : List ELFProgramHeader}
    {m : MemoryManager} (hregs : m.regions_ = []) (hok : ∀ p ∈ phs, SegmentOk elf_data p)
    (hd : phs.Pairwise PagesApart) {ph : ELFProgramHeader}
    (hph : ph ∈ phs) : Loaded elf_data ph (with_segments elf_data phs m) := by
  have ok := hok ph hph
  have hwrap := ok.no_wrap
  have hpatch : ∀ a ∈ pages ph, (with_segments elf_data phs m).host a = segment_byte elf_data ph a := by
    intro a ha
    exact Patch.applyAll_of_mem (List.pairwise_map.mpr hd) (List.mem_map_of_mem hph) ha
  have hperms : ∀ addr len, InSegment ph addr len → ∀ needed,
      (with_segments elf_data phs m).check_perms addr len needed =
        allows (segment_region ph) needed := by
    intro addr len h
    refine check_perms_of_loaded ?_ hok hd hph h
    change m.regions_ ++ _ = _
    rw [hregs, List.nil_append]
  obtain ⟨hread, hwrite, hexec⟩ := allows_iff ph
  refine ⟨fun i hi => ?_, fun a hlo hhi => ?_, fun addr len h => ?_, fun addr len h => ?_,
    fun addr len h => ?_⟩
  · have ha : (off ph.vaddr i).toNat = ph.vaddr.toNat + i := by
      rw [off, BitVec.toNat_add, BitVec.toNat_ofNat]
      omega
    rw [hpatch _ ⟨by rw [ha, page_start]; omega, by rw [ha, page_end]; omega⟩, segment_byte, ha]
    by_cases hfile : i < ph.filesz.toNat
    · rw [if_pos ⟨by omega, by omega⟩, if_pos hfile, Nat.add_sub_cancel_left]
    · rw [if_neg fun hin => hfile (by omega), if_neg hfile]
  · have hend : a.toNat < page_end ph := by
      rw [page_end]
      omega
    rw [hpatch a ⟨hlo, hend⟩, segment_byte, if_neg fun hin => absurd hin.1 (by omega)]
  · rw [hperms addr len h, hread]
  · rw [hperms addr len h, hwrite]
  · rw [hperms addr len h, hexec]

/-- **Loading**: for headers whose segments fit and have pages of their own, in any order, the loop
reads inside the file; and if it returns true, all segments are loaded.  The host refuses an empty
mapping. -/
theorem load_segments_loaded {host_ok : Word → Word → BitVec 32 → Bool}
    (hempty : ∀ addr prot, host_ok addr 0#64 prot = false) {elf_data : List Byte}
    {phdrs : List ELFProgramHeader} {m : MemoryManager} (hregs : m.regions_ = [])
    (hok : ∀ ph ∈ loads phdrs, SegmentOk elf_data ph)
    (hd : (loads phdrs).Pairwise fun p q => Disjoint (pages p) (pages q)) :
    ∃ r, load_segments host_ok elf_data m phdrs = some r ∧
      (r.1 = true → ∀ ph ∈ phdrs, ph.type = PT_LOAD → Loaded elf_data ph r.2) := by
  obtain ⟨r, hr, hload⟩ := @load_segments_run host_ok elf_data hempty [] phdrs m hregs nofun hok hd
  refine ⟨r, hr, fun h ph hph htype => ?_⟩
  rw [(hload h).1]
  exact loaded_of_with_segments hregs hok hd (List.mem_filter.mpr ⟨hph, by simpa using htype⟩)

/-- A code segment at 0x10040 and a data segment with four bytes of BSS behind it. -/
def two_segments : List ELFProgramHeader :=
  [{ type := PT_LOAD, flags := PF_R ||| PF_X, offset := 0#64, vaddr := 0x10040#64, paddr := 0#64,
     filesz := 8#64, memsz := 8#64, align := 0x1000#64 },
   { type := PT_LOAD, flags := PF_R ||| PF_W, offset := 8#64, vaddr := 0x20010#64, paddr := 0#64,
     filesz := 4#64, memsz := 8#64, align := 0x1000#64 }]

theorem load_segments_loaded_two : ∃ m,
    load_segments (fun _ size _ => size ≠ 0#64) (List.replicate 12 0xAA#8) (.new fun _ => 0xFF#8)
      two_segments = some (true, m) ∧
    ∀ ph ∈ two_segments, ph.type = PT_LOAD → Loaded (List.replicate 12 0xAA#8) ph m := by
  have hfit : ∀ ph ∈ loads two_segments, SegmentOk (List.replicate 12 0xAA#8) ph := by
    intro ph hph
    simp only [two_segments, loads, List.mem_filter, List.mem_cons, List.not_mem_nil, or_false] at hph
    rcases hph.1 with rfl | rfl
    · exact ⟨by decide, by decide, by decide, by decide⟩
    · exact ⟨by decide, by decide, by decide, by decide⟩
  have hpages : (loads two_segments).Pairwise fun p q => Disjoint (pages p) (pages q) := by
    rw [show loads two_segments = two_segments from rfl, two_segments]
    refine List.pairwise_pair.mpr (Set.disjoint_left.mpr fun a ha hb => ?_)
    have h₁ : a.toNat < 0x11000 := ha.2
    have h₂ : 0x20000 ≤ a.toNat := hb.1
    omega
  have hok : (load_segments (fun _ size _ => size ≠ 0#64) (List.replicate 12 0xAA#8)
      (.new fun _ => 0xFF#8) two_segments).map Prod.fst = some true := by decide +kernel
  obtain ⟨⟨ok, m⟩, hr, hload⟩ := @load_segments_loaded (fun _ size _ => size ≠ 0#64)
    (fun _ _ => by simp) _ _ (.new fun _ => 0xFF#8) rfl hfit hpages
  rw [hr] at hok
  obtain rfl : ok = true := Option.some.inj hok
  exact ⟨m, hr, hload rfl⟩

end ELFLoader

end Bbarm64
