import Bbarm64.Core.Bump

/-!
# Elf.Bounds — where `load_segments` writes

The size of a mapping comes from `memsz`, the copy is as long as `filesz`, and both go to the address that
was asked for, whatever `mmap` returned.  A segment stays in its mapping exactly if the larger of the two
sizes fits, and, without a hint, if nothing is written at all; and the copy stays in the file exactly if the
header says so (`load_segments_bounds_iff`).
-/

namespace Bbarm64

open X86

namespace ELFLoader

open MemoryManager (mmap_spec mmap_eq_zero_iff)

/-! ## One segment -/

/-- A `memcpy` or `memset` to `n` bytes from `dst` on. -/
structure Store where
  dst : Word
  n : Word
  src : ℕ → Byte

def Store.apply (host : Mem) (s : Store) : Mem := fill host s.dst s.n.toNat s.src

/-- The stores of the loop body: the file's bytes, the bss and the bytes before the segment. -/
def stores (elf_data : List Byte) (ph : ELFProgramHeader) : List Store :=
  (if 0#64 < ph.filesz then
    [⟨page_vaddr ph + page_offset ph, ph.filesz, fun i => elf_data.getD (ph.offset.toNat + i) 0#8⟩]
  else []) ++
  (if ph.filesz < ph.memsz then
    [⟨page_vaddr ph + page_offset ph + ph.filesz, ph.memsz - ph.filesz, fun _ => 0#8⟩]
  else []) ++
  if 0#64 < page_offset ph then [⟨page_vaddr ph, page_offset ph, fun _ => 0#8⟩] else []

/-- The bytes of the file that are copied are in it. -/
def ReadsInside (elf_data : List Byte) (ph : ELFProgramHeader) : Prop :=
  0#64 < ph.filesz → Inside elf_data ph.offset ph.filesz.toNat

/-- The bytes that are written are in `[mapped, mapped + map_size)`. -/
def WritesInside (elf_data : List Byte) (mapped : Word) (ph : ELFProgramHeader) : Prop :=
  ∀ s ∈ stores elf_data ph, ∀ i < s.n.toNat, (off s.dst i - mapped).toNat < (map_size ph).toNat

/-- Where the mapping goes when the bump pointer is `base`: to the page of the segment, but for page 0. -/
def segment_addr (base : Word) (ph : ELFProgramHeader) : Word :=
  if page_vaddr ph ≠ 0#64 then page_vaddr ph else base

/-- The bump pointer behind it. -/
def next_base (base : Word) (ph : ELFProgramHeader) : Word :=
  if page_vaddr ph ≠ 0#64 then base else base + map_size ph

/-- The mapping that the body asks for succeeds. -/
def SegmentMaps (host_ok : Word → Word → BitVec 32 → Bool) (base : Word) (ph : ELFProgramHeader) : Prop :=
  segment_addr base ph ≠ 0#64 ∧
    host_ok (segment_addr base ph) (map_size ph) (prot_of ph.flags ||| PROT_WRITE) = true

/-- Offset and sizes fit into the mapping.  Without a hint, the mapping is elsewhere, and only nothing
fits. -/
def Contained (ph : ELFProgramHeader) : Prop :=
  (page_offset ph).toNat + max ph.filesz.toNat ph.memsz.toNat ≤
    if page_vaddr ph = 0#64 then 0 else (map_size ph).toNat

section Segment

variable {host_ok : Word → Word → BitVec 32 → Bool} {elf_data : List Byte} {m : MemoryManager}
  {ph : ELFProgramHeader}

theorem maps_iff : m.Maps host_ok (map_size ph) (prot_of ph.flags ||| PROT_WRITE) (page_vaddr ph) ↔
    SegmentMaps host_ok m.mmap_base_ ph := by
  unfold MemoryManager.Maps
  rw [page_align_map_size]
  rfl

theorem load_segment_refused_eq (h : ¬ SegmentMaps host_ok m.mmap_base_ ph) :
    ∃ m', load_segment host_ok elf_data m ph = some (false, m') := by
  unfold load_segment
  exact ⟨_, if_pos (mmap_eq_zero_iff.mpr fun hmaps => h (maps_iff.mp hmaps))⟩

theorem load_segment_outside (h : SegmentMaps host_ok m.mmap_base_ ph) (hread : ¬ ReadsInside elf_data ph) :
    load_segment host_ok elf_data m ph = none := by
  obtain ⟨hsize, hout⟩ := Classical.not_imp.mp hread
  have hcopy : ∀ m', copy_segment elf_data m' ph = none := by
    intro m'
    rw [copy_segment, if_pos hsize, bytes, if_neg hout, Option.map_none]
  unfold load_segment
  dsimp only
  rw [if_neg fun h0 => mmap_eq_zero_iff.mp h0 (maps_iff.mpr h), hcopy]
  rfl

/-- The pointer and the bytes are not the concern of `mprotect`. -/
theorem mprotect_if (c : Prop) [Decidable c] (m : MemoryManager) (addr : Word) (prot : BitVec 32) :
    (if c then (m.mprotect 0#32 addr prot).2 else m).mmap_base_ = m.mmap_base_ ∧
      (if c then (m.mprotect 0#32 addr prot).2 else m).host = m.host := by
  split_ifs
  · exact ⟨rfl, rfl⟩
  · exact ⟨rfl, rfl⟩

/-- **One segment**, with its stores in order. -/
theorem load_segment_stores (h : SegmentMaps host_ok m.mmap_base_ ph) (hread : ReadsInside elf_data ph) :
    ∃ m', load_segment host_ok elf_data m ph = some (true, m') ∧
      m'.mmap_base_ = next_base m.mmap_base_ ph ∧
      m'.host = (stores elf_data ph).foldl Store.apply
        (m.mmap host_ok (map_size ph) (prot_of ph.flags ||| PROT_WRITE) (page_vaddr ph)).2.host := by
  have hbase := (mmap_spec (m := m) host_ok (map_size ph) (prot_of ph.flags ||| PROT_WRITE)
    (page_vaddr ph)).2.1
  rw [page_align_map_size] at hbase
  have hcopy : ∀ m', copy_segment elf_data m' ph = some (if 0#64 < ph.filesz then
      poke m' (page_vaddr ph + page_offset ph) ph.filesz fun i => elf_data.getD (ph.offset.toNat + i) 0#8
      else m') := by
    intro m'
    unfold copy_segment
    split_ifs with hsize
    · rw [bytes, if_pos (hread hsize), Option.map_some]
    · rfl
  unfold load_segment
  dsimp only
  rw [if_neg fun h0 => mmap_eq_zero_iff.mp h0 (maps_iff.mpr h), hcopy]
  refine ⟨_, rfl, ?_, ?_⟩
  · rw [(mprotect_if _ _ _ _).1, next_base, ← hbase]
    split_ifs <;> rfl
  · rw [(mprotect_if _ _ _ _).2]
    unfold stores
    split_ifs <;> rfl

theorem forall_mem_if {α : Type} {c : Prop} [Decidable c] {s : α} (Q : α → Prop) :
    (∀ s' ∈ (if c then [s] else []), Q s') ↔ (c → Q s) := by
  split_ifs with hc
  · rw [List.forall_mem_singleton]
    exact ⟨fun h _ => h, fun h => h hc⟩
  · exact iff_of_true (List.forall_mem_nil _) fun h => absurd h hc

/-- The bytes that are written, by their distance from the start of the page. -/
theorem stores_iff (P : Word → Prop) :
    (∀ s ∈ stores elf_data ph, ∀ i < s.n.toNat, P (off s.dst i)) ↔
      ∀ k < (page_offset ph).toNat + max ph.filesz.toNat ph.memsz.toNat, P (off (page_vaddr ph) k) := by
  unfold stores
  rw [List.forall_mem_append, List.forall_mem_append, forall_mem_if, forall_mem_if, forall_mem_if]
  dsimp only
  simp only [← off_toNat, off_off, BitVec.lt_def, BitVec.toNat_ofNat, Nat.zero_mod]
  have hrest : ph.filesz.toNat < ph.memsz.toNat →
      (ph.memsz - ph.filesz).toNat = ph.memsz.toNat - ph.filesz.toNat := fun h =>
    BitVec.toNat_sub_of_le (BitVec.le_def.mpr (Nat.le_of_lt h))
  constructor
  · rintro ⟨⟨hfile, hbss⟩, hpad⟩ k hk
    by_cases hlow : k < (page_offset ph).toNat
    · exact hpad (by omega) k hlow
    obtain ⟨i, rfl⟩ := Nat.exists_eq_add_of_le (Nat.le_of_not_lt hlow)
    by_cases hin : i < ph.filesz.toNat
    · exact hfile (by omega) i hin
    obtain ⟨j, rfl⟩ := Nat.exists_eq_add_of_le (Nat.le_of_not_lt hin)
    have hlt : ph.filesz.toNat < ph.memsz.toNat := by
      omega
    rw [← Nat.add_assoc]
    exact hbss hlt j (by rw [hrest hlt]; omega)
  · intro h
    refine ⟨⟨fun _ i hi => h _ (by omega), fun hlt i hi => h _ ?_⟩, fun _ i hi => h i (by omega)⟩
    rw [hrest hlt] at hi
    omega

/-- With a hint, the bytes are written where the mapping is. -/
theorem writesInside_hint (hhint : page_vaddr ph ≠ 0#64) :
    WritesInside elf_data (page_vaddr ph) ph ↔ Contained ph := by
  have hlt := (map_size ph).isLt
  unfold WritesInside Contained
  rw [stores_iff fun a => (a - page_vaddr ph).toNat < (map_size ph).toNat, if_neg hhint]
  constructor
  · intro h
    by_contra hover
    have hnext := h (map_size ph).toNat (Nat.lt_of_not_le hover)
    rw [off_sub_self hlt] at hnext
    omega
  · intro hfit k hk
    rw [off_sub_self (by omega)]
    omega

/-- Without one they are written at 0, which is in no mapping. -/
theorem writesInside_zero {mapped : Word} (hzero : page_vaddr ph = 0#64)
    (hwrap : mapped.toNat + (map_size ph).toNat < 2 ^ 64) (hnull : mapped ≠ 0#64) :
    WritesInside elf_data mapped ph ↔ Contained ph := by
  unfold WritesInside Contained
  rw [stores_iff fun a => (a - mapped).toNat < (map_size ph).toNat, if_pos hzero, hzero]
  constructor
  · intro h
    by_contra hpos
    have hfirst := h 0 (by omega)
    have hne : mapped.toNat ≠ 0 := fun h0 => hnull (BitVec.eq_of_toNat_eq h0)
    rw [off, BitVec.toNat_sub, BitVec.toNat_add] at hfirst
    simp only [BitVec.toNat_ofNat] at hfirst
    omega
  · intro hnone k hk
    omega

end Segment

/-! ## The loop -/

section Loop

variable (host_ok : Word → Word → BitVec 32 → Bool) (elf_data : List Byte)

/-- Each segment that gets a mapping is written inside of it and read inside the file. -/
def SegmentsInside : MemoryManager → List ELFProgramHeader → Prop
  | _, [] => True
  | m, ph :: phdrs =>
    if ph.type ≠ PT_LOAD then SegmentsInside m phdrs
    else
      let mapped := (m.mmap host_ok (map_size ph) (prot_of ph.flags ||| PROT_WRITE) (page_vaddr ph)).1
      mapped ≠ 0#64 → ReadsInside elf_data ph ∧ WritesInside elf_data mapped ph ∧
        ∀ m', load_segment host_ok elf_data m ph = some (true, m') → SegmentsInside m' phdrs

/-- A mapping is refused, and the segments before it are in the file. -/
def Refused : Word → List ELFProgramHeader → Prop
  | _, [] => False
  | base, ph :: phdrs =>
    if ph.type ≠ PT_LOAD then Refused base phdrs
    else ¬ SegmentMaps host_ok base ph ∨ ReadsInside elf_data ph ∧ Refused (next_base base ph) phdrs

variable {host_ok elf_data} {m : MemoryManager} {ph : ELFProgramHeader}
  {phdrs : List ELFProgramHeader}

/-- The loop returns false at the first mapping that is refused. -/
theorem load_segments_false_iff : (∃ m', load_segments host_ok elf_data m phdrs = some (false, m')) ↔
    Refused host_ok elf_data m.mmap_base_ phdrs := by
  induction phdrs generalizing m with
  | nil =>
    refine iff_of_false ?_ id
    rintro ⟨m', h⟩
    cases h
  | cons ph phdrs ih =>
    unfold load_segments Refused
    by_cases htype : ph.type ≠ PT_LOAD
    · rw [if_pos htype, if_pos htype]
      exact ih
    rw [if_neg htype, if_neg htype]
    by_cases hmaps : SegmentMaps host_ok m.mmap_base_ ph
    · rw [or_iff_right (not_not_intro hmaps)]
      by_cases hread : ReadsInside elf_data ph
      · obtain ⟨m', hload, hbase, -⟩ := load_segment_stores hmaps hread
        rw [hload, and_iff_right hread, ← hbase]
        exact ih
      · rw [load_segment_outside hmaps hread]
        refine iff_of_false ?_ fun h => hread h.1
        rintro ⟨m', h⟩
        cases h
    · have hrefused : ∃ m', load_segment host_ok elf_data m ph = some (false, m') :=
        load_segment_refused_eq hmaps
      obtain ⟨m', hload⟩ := hrefused
      rw [hload]
      exact iff_of_true ⟨m', rfl⟩ (.inl hmaps)

variable (hdoc : ∀ addr size prot, host_ok addr size prot = true →
  addr.toNat + size.toNat < 2 ^ 64)
include hdoc

/-- **One segment** stays in its mapping exactly if it fits. -/
theorem writesInside_iff (hmaps : SegmentMaps host_ok m.mmap_base_ ph) : WritesInside elf_data
    (m.mmap host_ok (map_size ph) (prot_of ph.flags ||| PROT_WRITE) (page_vaddr ph)).1 ph ↔
      Contained ph := by
  rw [(mmap_spec host_ok _ _ _).1, if_pos (maps_iff.mpr hmaps)]
  obtain ⟨hnull, hok⟩ := hmaps
  show WritesInside elf_data (segment_addr m.mmap_base_ ph) ph ↔ Contained ph
  unfold segment_addr at hnull hok ⊢
  by_cases hhint : page_vaddr ph ≠ 0#64
  · rw [if_pos hhint]
    exact writesInside_hint hhint
  · rw [if_neg hhint] at hnull hok ⊢
    exact writesInside_zero (not_not.mp hhint) (hdoc _ _ _ hok) hnull

theorem segmentsInside_iff (hret : ¬ Refused host_ok elf_data m.mmap_base_ phdrs) :
    SegmentsInside host_ok elf_data m phdrs ↔
      ∀ ph ∈ loads phdrs, ReadsInside elf_data ph ∧ Contained ph := by
  induction phdrs generalizing m with
  | nil => exact iff_of_true trivial (List.forall_mem_nil _)
  | cons ph phdrs ih =>
    unfold Refused at hret
    unfold SegmentsInside
    by_cases htype : ph.type ≠ PT_LOAD
    · rw [if_pos htype] at hret ⊢
      rw [loads_cons_of_neg phdrs htype]
      exact ih hret
    rw [if_neg htype, not_or, not_not] at hret
    obtain ⟨hmaps, hret⟩ := hret
    have hmapped := mmap_eq_zero_iff.not_left.mpr (maps_iff.mpr hmaps)
    rw [if_neg htype, loads_cons_of_pos phdrs (not_not.mp htype), List.forall_mem_cons]
    dsimp only
    rw [imp_iff_right hmapped, writesInside_iff hdoc hmaps, and_assoc]
    refine and_congr_right fun hread => and_congr_right fun _ => ?_
    obtain ⟨m', hload, hbase, -⟩ := load_segment_stores hmaps hread
    rw [← hbase, and_iff_right hread] at hret
    rw [← ih hret]
    constructor
    · exact fun h => h m' hload
    · intro h m'' hload'
      obtain rfl := (Prod.mk.inj (Option.some.inj (hload.symm.trans hload'))).2
      exact h

/-- **Bounds**: the loop returns false, or stays in its mappings and in the file, exactly if a mapping is
refused, with the segments before it in the file, or all segments fit. -/
theorem load_segments_bounds_iff : (∃ m', load_segments host_ok elf_data m phdrs = some (false, m')) ∨
    SegmentsInside host_ok elf_data m phdrs ↔
      Refused host_ok elf_data m.mmap_base_ phdrs ∨
        ∀ ph ∈ loads phdrs, ReadsInside elf_data ph ∧ Contained ph := by
  rw [load_segments_false_iff]
  by_cases hret : Refused host_ok elf_data m.mmap_base_ phdrs
  · exact iff_of_true (.inl hret) (.inl hret)
  · rw [or_iff_right hret, or_iff_right hret]
    exact segmentsInside_iff hdoc hret

end Loop

/-! ## Instances -/

theorem maps_user_documented (addr size : Word) (prot : BitVec 32)
    (h : MemoryManager.maps_user addr size prot = true) : addr.toNat + size.toNat < 2 ^ 64 := by
  unfold MemoryManager.maps_user at h
  have hend := (of_decide_eq_true h).2.2
  omega

/-- The two segments of before, which fit. -/
theorem load_segments_bounds_iff_two :
    (∃ m', load_segments MemoryManager.maps_user (List.replicate 12 0xAA#8) MemoryManager.fresh
      two_segments = some (false, m')) ∨
    SegmentsInside MemoryManager.maps_user (List.replicate 12 0xAA#8) MemoryManager.fresh two_segments ↔
      Refused MemoryManager.maps_user (List.replicate 12 0xAA#8) MemoryManager.fresh.mmap_base_
        two_segments ∨
        ∀ ph ∈ loads two_segments, ReadsInside (List.replicate 12 0xAA#8) ph ∧ Contained ph := by
  exact load_segments_bounds_iff maps_user_documented

/-- A `PT_LOAD` of 120 bytes at the end of a page, for which the header asks for one byte of memory. -/
def overrun : List Byte :=
  [0x7F, 0x45, 0x4C, 0x46, 2, 1, 1, 0, 0, 0, 0, 0, 0, 0, 0, 0,
    2, 0, 183, 0, 1, 0, 0, 0, 0, 0, 0, 0, 0, 0, 0, 0,
    64, 0, 0, 0, 0, 0, 0, 0, 0, 0, 0, 0, 0, 0, 0, 0,
    0, 0, 0, 0, 64, 0, 56, 0, 1, 0, 0, 0, 0, 0, 0, 0,
    1, 0, 0, 0, 5, 0, 0, 0, 0, 0, 0, 0, 0, 0, 0, 0,
    0xC0, 0x0F, 1, 0, 0, 0, 0, 0, 0, 0, 0, 0, 0, 0, 0, 0,
    120, 0, 0, 0, 0, 0, 0, 0, 1, 0, 0, 0, 0, 0, 0, 0, 0, 0x10, 0, 0, 0, 0, 0, 0]

def overrun_segment : ELFProgramHeader :=
  { type := PT_LOAD, flags := PF_R ||| PF_X, offset := 0#64, vaddr := 0x10FC0#64, paddr := 0#64,
    filesz := 120#64, memsz := 1#64, align := 0x1000#64 }

/-- `parse` accepts it, and the copy runs over the end of the page that `mmap` returned. -/
theorem not_segments_inside :
    (parse overrun ⟨0, 0, 0, 0, 0, false, 0, []⟩ []).map (fun r => (r.1, r.2.2)) =
      some (true, [overrun_segment]) ∧
    ¬ ((∃ m', load_segments MemoryManager.maps_user overrun MemoryManager.fresh [overrun_segment] =
        some (false, m')) ∨
      SegmentsInside MemoryManager.maps_user overrun MemoryManager.fresh [overrun_segment]) := by
  have hmaps : ¬ Refused MemoryManager.maps_user overrun MemoryManager.fresh.mmap_base_
      [overrun_segment] := by
    rintro (hno | ⟨-, hno⟩)
    · exact hno ⟨by decide, by decide⟩
    · exact hno
  refine ⟨by decide +kernel, ?_⟩
  rintro (hfalse | hinside)
  · exact hmaps (load_segments_false_iff.mp hfalse)
  · have hfits := (segmentsInside_iff maps_user_documented hmaps).mp hinside
    have hone : Contained overrun_segment := (hfits overrun_segment (by decide)).2
    revert hone
    unfold Contained
    decide

end ELFLoader

end Bbarm64
