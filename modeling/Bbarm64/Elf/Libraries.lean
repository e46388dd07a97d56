import Bbarm64.Core.Bump
import Bbarm64.Elf.Parse
import Bbarm64.Elf.Relocations

/-!
# Elf.Libraries — where `load_library` puts shared objects

The load bias is the page of the lowest link address, not an address that `mmap` chose, so a segment linked
at `v` always goes to the bias plus `v`: the same pages for every object with the same link addresses.
`mmap` is given that page as a hint, and page 0 is no hint.  Bytes are where the recorded base says if no
segment asks for page 0 and the segments of an object do not share pages; and the objects of a sequence of
loads are then apart exactly if the pages that they ask for are (`libraries_iff`).
-/

namespace Bbarm64

open X86

namespace DynLink

open ELFLoader (phdr headers loads loads_cons_of_pos loads_cons_of_neg lowest ehdr image page_offset map_size poke prot_of)
open MemoryManager (mmap_regions mmap_host set_perms_ranges mmap_eq_zero_iff page_align)

/-! ## One segment -/

/-- The pages that a segment asks for. -/
def segment_span (base_addr : Word) (ph : ELFProgramHeader) : Set Word :=
  span (page_vaddr base_addr ph) (map_size ph).toNat

/-- The byte of a segment at distance `k` from the start of its pages. -/
def segment_byte (data : List Byte) (ph : ELFProgramHeader) (k : ℕ) : Byte :=
  if (page_offset ph).toNat ≤ k ∧ k < (page_offset ph).toNat + ph.filesz.toNat then
    data.getD (ph.offset.toNat + (k - (page_offset ph).toNat)) 0#8
  else 0#8

def segment_patch (data : List Byte) (base_addr : Word) (ph : ELFProgramHeader) : Patch Word Byte :=
  ⟨segment_span base_addr ph, fun a => segment_byte data ph (a - page_vaddr base_addr ph).toNat⟩

/-- Not on page 0, no more file bytes than memory, and pages for all of them. -/
structure SegmentOk (base_addr : Word) (ph : ELFProgramHeader) : Prop where
  page_ne : page_vaddr base_addr ph ≠ 0#64
  filesz_le : ph.filesz.toNat ≤ ph.memsz.toNat
  fits : (page_offset ph).toNat + ph.memsz.toNat ≤ (map_size ph).toNat

/-- The ranges of the regions. -/
def ranges (m : MemoryManager) : List (Word × Word) := m.regions_.map fun r => (r.addr, r.size)

section Segment

variable {host_ok : Word → Word → BitVec 32 → Bool} {data : List Byte} {base_addr : Word}
  {m m' : MemoryManager} {ph : ELFProgramHeader}

/-- A filled range, by the distance from an address before it. -/
theorem fill_off {host : Mem} {c a : Word} {o n : ℕ} {f : ℕ → Byte} (h : o + n ≤ 2 ^ 64) :
    fill host (off c o) n f a = if o ≤ (a - c).toNat ∧ (a - c).toNat < o + n then f ((a - c).toNat - o)
      else host a := by
  have hdist : (a - off c o).toNat < n ↔ o ≤ (a - c).toNat ∧ (a - c).toNat < o + n := by
    have ha := a.isLt
    have hc := c.isLt
    rw [off, BitVec.toNat_sub, BitVec.toNat_sub, BitVec.toNat_add, BitVec.toNat_ofNat]
    omega
  have hval : o ≤ (a - c).toNat → (a - off c o).toNat = (a - c).toNat - o := by
    have ha := a.isLt
    have hc := c.isLt
    rw [off, BitVec.toNat_sub, BitVec.toNat_sub, BitVec.toNat_add, BitVec.toNat_ofNat]
    omega
  unfold fill
  simp only [hdist]
  split_ifs with hin
  · rw [hval hin.1]
  · rfl

/-- The copy of the file's bytes, where it is in the file. -/
theorem copy_segment_inv {dst : Word} (h : copy_segment data dst m ph = some m') :
    m'.regions_ = m.regions_ ∧
      m'.host = fill m.host dst ph.filesz.toNat fun i => data.getD (ph.offset.toNat + i) 0#8 := by
  unfold copy_segment ELFLoader.bytes at h
  split_ifs at h with hsize
  · cases h
    exact ⟨rfl, rfl⟩
  · cases h
  · cases h
    refine ⟨rfl, funext fun a => (fill_of_le ?_).symm⟩
    rw [BitVec.lt_def] at hsize
    exact Nat.le_trans (Nat.le_of_not_lt hsize) (Nat.zero_le _)

/-- `memset` of the rest, and the final permissions. -/
theorem finish_host {c : Prop} [Decidable c] {prot : BitVec 32} :
    let p := page_vaddr base_addr ph
    let mem := if ph.filesz < ph.memsz then
      poke m (p + page_offset ph + ph.filesz) (ph.memsz - ph.filesz) fun _ => 0#8 else m
    let mem := if c then (mem.mprotect 0#32 p prot).2 else mem
    ranges mem = ranges m ∧ mem.host =
      fill m.host (off p ((page_offset ph).toNat + ph.filesz.toNat))
        (ph.memsz.toNat - ph.filesz.toNat) fun _ => 0#8 := by
  intro p mem₁ mem₂
  have hdst : off p ((page_offset ph).toNat + ph.filesz.toNat) = p + page_offset ph + ph.filesz := by
    rw [← off_off, off_toNat, off_toNat]
  have hset : ranges mem₂ = ranges mem₁ ∧ mem₂.host = mem₁.host := by
    show ranges (if c then _ else _) = _ ∧ (if c then _ else _ : MemoryManager).host = _
    split_ifs
    · exact ⟨set_perms_ranges p prot mem₁.regions_, rfl⟩
    · exact ⟨rfl, rfl⟩
  have hbss : ranges mem₁ = ranges m ∧ mem₁.host = fill m.host (p + page_offset ph + ph.filesz)
      (ph.memsz.toNat - ph.filesz.toNat) fun _ => 0#8 := by
    show ranges (if ph.filesz < ph.memsz then _ else _) = _ ∧
      (if ph.filesz < ph.memsz then _ else _ : MemoryManager).host = _
    split_ifs with hlt
    · refine ⟨rfl, ?_⟩
      rw [← BitVec.toNat_sub_of_le (BitVec.le_of_lt hlt)]
      rfl
    · refine ⟨rfl, funext fun a => (fill_of_le ?_).symm⟩
      rw [BitVec.lt_def] at hlt
      omega
  exact ⟨hset.1.trans hbss.1, by rw [hset.2, hbss.2, hdst]⟩

/-- The fresh pages, the file's bytes and the zeros behind them are the patch of the segment. -/
theorem fills_eq (ok : SegmentOk base_addr ph) (host : Mem) :
    fill (fill (fill host (page_vaddr base_addr ph) (map_size ph).toNat fun _ => 0#8)
      (off (page_vaddr base_addr ph) (page_offset ph).toNat) ph.filesz.toNat
        fun i => data.getD (ph.offset.toNat + i) 0#8)
      (off (page_vaddr base_addr ph) ((page_offset ph).toNat + ph.filesz.toNat))
        (ph.memsz.toNat - ph.filesz.toNat) (fun _ => 0#8) =
      (segment_patch data base_addr ph).apply host := by
  have hlt := (map_size ph).isLt
  obtain ⟨-, hle, hfits⟩ := ok
  funext a
  rw [fill_off (by omega), fill_off (by omega)]
  unfold fill
  by_cases ha : a ∈ (segment_patch data base_addr ph).dom
  · rw [Patch.apply_of_mem ha]
    have hin : (a - page_vaddr base_addr ph).toNat < (map_size ph).toNat := ha
    show _ = segment_byte data ph (a - page_vaddr base_addr ph).toNat
    unfold segment_byte
    split_ifs <;> first | rfl | omega
  · rw [Patch.apply_of_notMem ha]
    have hout : ¬ (a - page_vaddr base_addr ph).toNat < (map_size ph).toNat := ha
    rw [if_neg (by omega), if_neg (by omega), if_neg hout]

/-- **One segment** patches its pages and adds their range. -/
theorem map_segment_inv (ok : SegmentOk base_addr ph)
    (h : map_segment host_ok data base_addr m ph = some (true, m')) :
    m'.host = (segment_patch data base_addr ph).apply m.host ∧
      ranges m' = ranges m ++ [(page_vaddr base_addr ph, map_size ph)] := by
  unfold map_segment at h
  dsimp only at h
  by_cases h0 : (m.mmap host_ok (map_size ph) (prot_of ph.flags ||| PROT_WRITE)
      (page_vaddr base_addr ph)).1 = 0#64
  · rw [if_pos h0] at h
    cases h
  rw [if_neg h0] at h
  obtain ⟨mem, hcopy, hrest⟩ := Option.bind_eq_some_iff.mp h
  obtain ⟨hregions, hhost⟩ := copy_segment_inv hcopy
  obtain ⟨hranges, hfinish⟩ := @finish_host base_addr mem ph
    (prot_of ph.flags ≠ prot_of ph.flags ||| PROT_WRITE) _ (prot_of ph.flags)
  have hmaps := not_not.mp (mt mmap_eq_zero_iff.mpr h0)
  obtain rfl := (Prod.mk.inj (Option.some.inj hrest)).2
  have haddr : m.mmap_addr (page_vaddr base_addr ph) = page_vaddr base_addr ph := if_pos ok.page_ne
  constructor
  · refine hfinish.trans ?_
    rw [hhost, mmap_host, if_pos hmaps, ELFLoader.page_align_map_size, haddr, ← off_toNat, fills_eq ok]
  · refine hranges.trans ?_
    rw [ranges, hregions, mmap_regions, if_pos hmaps, List.map_append, MemoryManager.mmap_region,
      ELFLoader.page_align_map_size, haddr]
    rfl

end Segment

/-! ## One library -/

/-- The load bias: the page of the lowest link address. -/
def link_base (data : List Byte) : Word :=
  (headers data).foldl lowest (BitVec.allOnes 64) &&& ~~~4095#64

/-- The `PT_LOAD`s of the file. -/
def segments (data : List Byte) : List ELFProgramHeader := loads (headers data)

/-- The segments are in order, and those of one file do not share pages. -/
structure LibraryOk (data : List Byte) : Prop where
  ok : ∀ ph ∈ segments data, SegmentOk (link_base data) ph
  apart : (segments data).Pairwise fun p q =>
    Disjoint (segment_span (link_base data) p) (segment_span (link_base data) q)

section Library

variable {host_ok : Word → Word → BitVec 32 → Bool} {data : List Byte} {base_addr : Word}
  {m m' : MemoryManager}

theorem load_phdr_inv {i : ℕ} {o : Option ELFProgramHeader} (h : load_phdr data (ehdr data) i = some o) :
    o = if (phdr data i).type = PT_LOAD then some (phdr data i) else none := by
  obtain ⟨type, htype, h⟩ := Option.bind_eq_some_iff.mp h
  unfold ELFLoader.u32 ELFLoader.field at htype
  split_ifs at htype
  obtain rfl := Option.some.inj htype
  change (if (phdr data i).type = PT_LOAD then _ else _) = _ at h
  split_ifs at h ⊢ with hload
  · obtain ⟨ph, hph, rfl⟩ := Option.map_eq_some_iff.mp h
    unfold ELFLoader.field at hph
    split_ifs at hph
    exact congrArg some (Option.some.inj hph).symm
  · exact (Option.some.inj h).symm

/-- **The loop** patches the pages of all segments and adds their ranges. -/
theorem map_segments_inv {is : List ℕ}
    (hok : ∀ ph ∈ loads (is.map (phdr data)), SegmentOk base_addr ph)
    (h : map_segments host_ok data (ehdr data) base_addr m is = some (true, m')) :
    m'.host = Patch.applyAll ((loads (is.map (phdr data))).map (segment_patch data base_addr)) m.host ∧
      ranges m' = ranges m ++ (loads (is.map (phdr data))).map fun ph =>
        (page_vaddr base_addr ph, map_size ph) := by
  induction is generalizing m with
  | nil =>
    obtain rfl := (Prod.mk.inj (Option.some.inj h)).2
    exact ⟨rfl, (List.append_nil _).symm⟩
  | cons i is ih =>
    obtain ⟨o, hphdr, h⟩ := Option.bind_eq_some_iff.mp h
    have ho := load_phdr_inv hphdr
    rw [List.map_cons] at hok ⊢
    by_cases htype : (phdr data i).type = PT_LOAD
    · rw [if_pos htype] at ho
      subst ho
      rw [loads_cons_of_pos _ htype] at hok ⊢
      obtain ⟨hhead, hok⟩ := List.forall_mem_cons.mp hok
      obtain ⟨⟨ok, mem⟩, hseg, h⟩ := Option.bind_eq_some_iff.mp h
      cases ok with
      | false => cases h
      | true =>
        obtain ⟨hhost, hranges⟩ := map_segment_inv hhead hseg
        obtain ⟨hhost', hranges'⟩ := ih hok h
        rw [hhost', hhost, hranges', hranges]
        exact ⟨rfl, List.append_assoc _ _ _⟩
    · rw [if_neg htype] at ho
      subst ho
      rw [loads_cons_of_neg _ htype] at hok ⊢
      exact ih hok h

theorem lower_vaddr_inv {min_vaddr v : Word} {i : ℕ}
    (h : lower_vaddr data (ehdr data) min_vaddr i = some v) : v = lowest min_vaddr (phdr data i) := by
  obtain ⟨o, hphdr, h⟩ := Option.bind_eq_some_iff.mp h
  have ho := load_phdr_inv hphdr
  unfold lowest
  split_ifs at ho with htype
  · subst ho
    rw [← Option.some.inj h]
    simp only [htype, true_and]
  · subst ho
    rw [← Option.some.inj h, if_neg fun hin => htype hin.1]

theorem lowest_inv {is : List ℕ} {min_vaddr v : Word}
    (h : is.foldlM (lower_vaddr data (ehdr data)) min_vaddr = some v) :
    v = (is.map (phdr data)).foldl lowest min_vaddr := by
  induction is generalizing min_vaddr with
  | nil => exact (Option.some.inj h).symm
  | cons i is ih =>
    rw [List.foldlM_cons] at h
    obtain ⟨v', hv', h⟩ := Option.bind_eq_some_iff.mp h
    rw [List.map_cons, List.foldl_cons, ← lower_vaddr_inv hv']
    exact ih h

end Library

/-! ## Sequences of loads -/

/-- What `load_library` is given. -/
structure Library where
  host_ok : Word → Word → BitVec 32 → Bool
  rounds : ℕ
  path : String
  data : List Byte

def Library.load (l : Library) (st : DynLink) : Option (Bool × DynLink) :=
  load_library l.host_ok l.rounds st l.path (some l.data)

/-- Successful loads, one after the other. -/
def Loads : List (DynLink × Library) → DynLink → Prop :=
  Trace (fun _ => True) fun st l st' => l.load st = some (true, st')

/-- The address lies in a range that was mapped for the library. -/
def Mapped (st : DynLink) (l : Library) (a : Word) : Prop :=
  ∃ st', l.load st = some (true, st') ∧
    ∃ r ∈ st'.mem_.regions_.drop st.mem_.regions_.length, r.Covers a

/-- Behind the loop over the segments, the byte at link address `v` of each segment is in a range mapped
for the library, at the recorded base plus `v`. -/
def Placed (st : DynLink) (l : Library) : Prop := ∃ st' base_addr mem,
  l.load st = some (true, st') ∧ st'.loaded_libs_ = st.loaded_libs_ ++ [⟨l.path, base_addr⟩] ∧
    map_segments l.host_ok l.data (ehdr l.data) base_addr st.mem_
      (List.range (ehdr l.data).e_phnum.toNat) = some (true, mem) ∧
    ∀ ph ∈ segments l.data, ∀ k < ph.memsz.toNat, Mapped st l (base_addr + off ph.vaddr k) ∧
      mem.host (base_addr + off ph.vaddr k) =
        if k < ph.filesz.toNat then l.data.getD (ph.offset.toNat + k) 0#8 else 0#8

/-- The pages that the segments of a file ask for. -/
def asked (data : List Byte) : Set Word :=
  {a | ∃ ph ∈ segments data, a ∈ segment_span (link_base data) ph}

section Loads

variable {st st' : DynLink} {l : Library}

theorem relocate_inv {rounds : ℕ} {base_addr dynamic_addr : Word} {m m' : MemoryManager}
    (h : relocate rounds base_addr dynamic_addr m = some m') : m'.regions_ = m.regions_ := by
  unfold relocate at h
  split_ifs at h
  · obtain ⟨r, -, rfl⟩ := Option.map_eq_some_iff.mp h
    rfl
  · rw [Option.some.inj h]

/-- **A successful load** has mapped its segments at the page of the lowest link address, which it
records. -/
theorem load_inv (h : l.load st = some (true, st')) : ∃ mem,
    map_segments l.host_ok l.data (ehdr l.data) (link_base l.data) st.mem_
      (List.range (ehdr l.data).e_phnum.toNat) = some (true, mem) ∧ ranges st'.mem_ = ranges mem ∧
    st'.loaded_libs_ = st.loaded_libs_ ++ [⟨l.path, link_base l.data⟩] := by
  have hfalse : ∀ st₁, some (false, st₁) ≠ some (true, st') := nofun
  unfold Library.load load_library at h
  dsimp only at h
  by_cases hsize : l.data.length < sizeof_Elf64_Ehdr
  · rw [if_pos hsize] at h
    exact absurd h (hfalse _)
  rw [if_neg hsize] at h
  obtain ⟨e, hehdr, h⟩ := Option.bind_eq_some_iff.mp h
  have he : e = ehdr l.data := by
    unfold ELFLoader.field at hehdr
    split_ifs at hehdr
    exact (Option.some.inj hehdr).symm
  subst he
  split_ifs at h with hmagic hmachine
  · exact absurd h (hfalse _)
  · exact absurd h (hfalse _)
  obtain ⟨min_vaddr, hlow, h⟩ := Option.bind_eq_some_iff.mp h
  obtain rfl := lowest_inv hlow
  obtain ⟨⟨ok, mem⟩, hmap, h⟩ := Option.bind_eq_some_iff.mp h
  cases ok with
  | false => exact absurd h (hfalse _)
  | true =>
    obtain ⟨dynamic_addr, -, h⟩ := Option.bind_eq_some_iff.mp h
    obtain ⟨mem', hrel, h⟩ := Option.bind_eq_some_iff.mp h
    obtain rfl := (Prod.mk.inj (Option.some.inj h)).2
    refine ⟨mem, hmap, ?_, rfl⟩
    rw [ranges, relocate_inv hrel, ranges]

/-- The ranges that were mapped for a library. -/
theorem mapped_iff (hok : LibraryOk l.data) (h : l.load st = some (true, st')) (a : Word) :
    Mapped st l a ↔ a ∈ asked l.data := by
  obtain ⟨mem, hmap, hranges, -⟩ := load_inv h
  have hseg := (map_segments_inv hok.ok hmap).2
  have hnew : (st'.mem_.regions_.drop st.mem_.regions_.length).map (fun r => (r.addr, r.size)) =
      (segments l.data).map fun ph => (page_vaddr (link_base l.data) ph, map_size ph) := by
    rw [List.map_drop]
    change (ranges st'.mem_).drop _ = _
    rw [hranges, hseg, List.drop_append, ranges, List.length_map, Nat.sub_self, List.drop_zero,
      List.drop_of_length_le (Nat.le_of_eq (List.length_map _)), List.nil_append]
    rfl
  have hcovers : (∃ r ∈ st'.mem_.regions_.drop st.mem_.regions_.length, r.Covers a) ↔
      a ∈ asked l.data := by
    have hpairs : (∃ r ∈ st'.mem_.regions_.drop st.mem_.regions_.length, r.Covers a) ↔
        ∃ p ∈ (st'.mem_.regions_.drop st.mem_.regions_.length).map fun r => (r.addr, r.size),
          (a - p.1).toNat < p.2.toNat := by
      simp only [List.mem_map, exists_exists_and_eq_and]
      rfl
    rw [hpairs, hnew]
    simp only [List.mem_map, exists_exists_and_eq_and]
    rfl
  rw [← hcovers]
  constructor
  · rintro ⟨st'', hload, hin⟩
    obtain rfl := (Prod.mk.inj (Option.some.inj (h.symm.trans hload))).2
    exact hin
  · exact fun hin => ⟨st', h, hin⟩

/-- A byte of a segment, by its distance from the start of the pages. -/
theorem link_address (base_addr : Word) (ph : ELFProgramHeader) (k : ℕ) :
    base_addr + off ph.vaddr k = off (page_vaddr base_addr ph) ((page_offset ph).toNat + k) := by
  rw [← off_off, off_toNat, page_vaddr, BitVec.add_assoc base_addr, ELFLoader.page_vaddr_add]
  exact (BitVec.add_assoc base_addr ph.vaddr (BitVec.ofNat 64 k)).symm

theorem placed_of_load (hok : LibraryOk l.data) (h : l.load st = some (true, st')) : Placed st l := by
  obtain ⟨mem, hmap, -, hlibs⟩ := load_inv h
  refine ⟨st', link_base l.data, mem, h, hlibs, hmap, fun ph hph k hk => ?_⟩
  obtain ⟨-, hle, hfits⟩ := hok.ok ph hph
  have hdist : (off (page_vaddr (link_base l.data) ph) ((page_offset ph).toNat + k) -
      page_vaddr (link_base l.data) ph).toNat = (page_offset ph).toNat + k :=
    off_sub_self (by have := (map_size ph).isLt; omega)
  have hspan : off (page_vaddr (link_base l.data) ph) ((page_offset ph).toNat + k) ∈
      segment_span (link_base l.data) ph := by
    show (_ - _ : Word).toNat < _
    rw [hdist]
    omega
  rw [link_address]
  refine ⟨(mapped_iff hok h _).mpr ⟨ph, hph, hspan⟩, ?_⟩
  rw [(map_segments_inv hok.ok hmap).1]
  have hpatches : ((segments l.data).map (segment_patch l.data (link_base l.data))).Pairwise fun p q =>
      Disjoint p.dom q.dom := List.pairwise_map.mpr hok.apart
  refine (Patch.applyAll_of_mem hpatches (List.mem_map_of_mem hph) hspan).trans ?_
  show segment_byte l.data ph (_ - _ : Word).toNat = _
  rw [hdist, segment_byte, Nat.add_sub_cancel_left]
  exact if_congr (by omega) rfl rfl

/-- **Libraries**: in a sequence of loads of files whose segments are in order, every byte is where the
recorded base says, and the ranges mapped for different libraries are disjoint exactly if the pages that they
ask for are. -/
theorem libraries_iff {es : List (DynLink × Library)} (h : Loads es st)
    (hok : ∀ e ∈ es, LibraryOk e.2.data) : (∀ e ∈ es, Placed e.1 e.2) ∧
      (es.Pairwise (fun e e' => ∀ a, ¬ (Mapped e.1 e.2 a ∧ Mapped e'.1 e'.2 a)) ↔
        es.Pairwise fun e e' => Disjoint (asked e.2.data) (asked e'.2.data)) := by
  have hload : ∀ e ∈ es, ∃ st', e.2.load e.1 = some (true, st') := fun e he => h.exists_step he
  constructor
  · intro e he
    obtain ⟨st', hst'⟩ := hload e he
    exact placed_of_load (hok e he) hst'
  · refine List.Pairwise.iff_of_mem fun {e e'} he he' => ?_
    obtain ⟨st₁, hst₁⟩ := hload e he
    obtain ⟨st₂, hst₂⟩ := hload e' he'
    simp only [mapped_iff (hok e he) hst₁, mapped_iff (hok e' he') hst₂, Set.disjoint_left, not_and]

end Loads

/-! ## Instances -/

/-- A file with one `PT_LOAD` of 120 bytes at link address 0x10000 times `page`. -/
def object_at (page : Byte) : List Byte :=
  [0x7F, 0x45, 0x4C, 0x46, 2, 1, 1, 0, 0, 0, 0, 0, 0, 0, 0, 0,
    3, 0, 183, 0, 1, 0, 0, 0, 0, 0, 0, 0, 0, 0, 0, 0,
    64, 0, 0, 0, 0, 0, 0, 0, 0, 0, 0, 0, 0, 0, 0, 0,
    0, 0, 0, 0, 64, 0, 56, 0, 1, 0, 0, 0, 0, 0, 0, 0,
    1, 0, 0, 0, 5, 0, 0, 0, 0, 0, 0, 0, 0, 0, 0, 0,
    0, 0, page, 0, 0, 0, 0, 0, 0, 0, 0, 0, 0, 0, 0, 0,
    120, 0, 0, 0, 0, 0, 0, 0, 120, 0, 0, 0, 0, 0, 0, 0, 0, 0x10, 0, 0, 0, 0, 0, 0]

def library_at (page : Byte) : Library :=
  ⟨MemoryManager.maps_user, 0, "lib.so", object_at page⟩

/-- The linker behind a load. -/
def Library.behind (l : Library) (st : DynLink) : DynLink := ((l.load st).map (·.2)).getD st

/-- A linker without libraries. -/
def no_libraries : DynLink := { mem_ := MemoryManager.fresh }

theorem load_behind {l : Library} {st : DynLink} (h : (l.load st).map (·.1) = some true) :
    l.load st = some (true, l.behind st) := by
  unfold Library.behind
  obtain ⟨⟨ok, st'⟩, hload, hok⟩ := Option.map_eq_some_iff.mp h
  rw [hload]
  exact congrArg (fun ok => some (ok, st')) hok

/-- Two loads, of any objects. -/
theorem loads_two {l l' : Library} (h : (l.load no_libraries).map (·.1) = some true)
    (h' : (l'.load (l.behind no_libraries)).map (·.1) = some true) :
    Loads [(no_libraries, l), (l.behind no_libraries, l')] (l'.behind (l.behind no_libraries)) := by
  have hfirst : Loads [(no_libraries, l)] (l.behind no_libraries) := .snoc (.nil trivial) (load_behind h)
  exact .snoc hfirst (load_behind h')

theorem library_ok (page : Byte) (hseg : segments (object_at page) = [phdr (object_at page) 0])
    (hok : SegmentOk (link_base (object_at page)) (phdr (object_at page) 0)) :
    LibraryOk (object_at page) := by
  refine ⟨?_, ?_⟩
  · rw [hseg]
    exact List.forall_mem_singleton.mpr hok
  · rw [hseg]
    exact List.pairwise_singleton _ _

theorem library_ok_one : LibraryOk (object_at 1) :=
  library_ok 1 (by decide +kernel) ⟨by decide +kernel, by decide +kernel, by decide +kernel⟩

theorem library_ok_four : LibraryOk (object_at 4) :=
  library_ok 4 (by decide +kernel) ⟨by decide +kernel, by decide +kernel, by decide +kernel⟩

/-- Objects linked at 0x10000 and at 0x40000. -/
theorem libraries_iff_two :
    let st := (library_at 1).behind no_libraries
    let es := [(no_libraries, library_at 1), (st, library_at 4)]
    (∀ e ∈ es, Placed e.1 e.2) ∧
      (es.Pairwise (fun e e' => ∀ a, ¬ (Mapped e.1 e.2 a ∧ Mapped e'.1 e'.2 a)) ↔
        es.Pairwise fun e e' => Disjoint (asked e.2.data) (asked e'.2.data)) := by
  intro st es
  have h₁ : ((library_at 1).load no_libraries).map (·.1) = some true := by
    decide +kernel
  have h₂ : ((library_at 4).load st).map (·.1) = some true := by
    decide +kernel
  have h : Loads es _ := loads_two h₁ h₂
  refine libraries_iff h (List.forall_mem_cons.mpr ⟨library_ok_one, ?_⟩)
  exact List.forall_mem_singleton.mpr library_ok_four

/-- Two objects linked at 0x10000 are mapped to the same page, and the byte at link address 0 of an object
linked there is in no page that was mapped for it. -/
theorem libraries_collide :
    (∃ es st, Loads es st ∧ es.map (·.2) = [library_at 1, library_at 1] ∧
      ¬ es.Pairwise fun e e' => ∀ a, ¬ (Mapped e.1 e.2 a ∧ Mapped e'.1 e'.2 a)) ∧
    ∃ st', (library_at 0).load no_libraries = some (true, st') ∧ ¬ Placed no_libraries (library_at 0) := by
  constructor
  · have h₁ : ((library_at 1).load no_libraries).map (·.1) = some true := by
      decide +kernel
    have h₂ : ((library_at 1).load ((library_at 1).behind no_libraries)).map (·.1) = some true := by
      decide +kernel
    refine ⟨_, _, loads_two h₁ h₂, rfl, fun hapart => ?_⟩
    have hasked : 0x20000#64 ∈ asked (library_at 1).data := by
      refine ⟨phdr (object_at 1) 0, by decide +kernel, ?_⟩
      show (_ - _ : Word).toNat < _
      decide +kernel
    have hok : LibraryOk (library_at 1).data := library_ok_one
    have hfirst : Mapped no_libraries (library_at 1) 0x20000#64 :=
      (mapped_iff hok (load_behind h₁) _).mpr hasked
    have hsecond : Mapped ((library_at 1).behind no_libraries) (library_at 1) 0x20000#64 :=
      (mapped_iff hok (load_behind h₂) _).mpr hasked
    have hpair := List.pairwise_pair.mp hapart 0x20000#64
    dsimp only at hpair
    exact hpair ⟨hfirst, hsecond⟩
  · have h₀ : ((library_at 0).load no_libraries).map (·.1) = some true := by
      decide +kernel
    refine ⟨_, load_behind h₀, ?_⟩
    rintro ⟨st', base_addr, mem, hload, hlibs, -, hplaced⟩
    obtain rfl := (Prod.mk.inj (Option.some.inj ((load_behind h₀).symm.trans hload))).2
    obtain ⟨-, -, -, hrecorded⟩ := load_inv hload
    obtain rfl : link_base (object_at 0) = base_addr :=
      congrArg LoadedLib.base_addr (List.singleton_inj.mp (List.append_cancel_left
        (hrecorded.symm.trans hlibs)))
    have hfirst := (hplaced (phdr (object_at 0) 0) (by decide +kernel) 0 (by decide +kernel)).1
    obtain ⟨st', hload', r, hr, hcovers⟩ := hfirst
    obtain rfl := (Prod.mk.inj (Option.some.inj (hload.symm.trans hload'))).2
    have hregions : ((library_at 0).behind no_libraries).mem_.regions_.drop
        no_libraries.mem_.regions_.length =
        [{ addr := 0x180000000#64, size := 0x1000#64, perms := 7#32 }] := by
      decide +kernel
    rw [hregions] at hr
    obtain rfl := List.mem_singleton.mp hr
    have hout : ¬ (link_base (object_at 0) + off (phdr (object_at 0) 0).vaddr 0 - 0x180000000#64).toNat <
        (0x1000#64).toNat := by
      decide +kernel
    exact hout hcovers

end DynLink

end Bbarm64
