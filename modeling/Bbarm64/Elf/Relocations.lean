import Bbarm64.Elf.DynLink
import Bbarm64.Lib.Patch

/-!
# Elf.Relocations — what `process_relocations` leaves in memory

A RELATIVE entry is a patch of memory: the eight bytes of its target.  The scan finds the table under its
tag, wherever that stands, and the loop applies the patches of the entries.  With targets that are apart
from each other, from the table and from the dynamic section, no entry disturbs another one or the table
it is read from (`relocations_spec`).
-/

namespace Bbarm64

open X86

namespace DynLink

/-- The `n` bytes from `a` on. -/
def span (a : Word) (n : ℕ) : Set Word := {b | (b - a).toNat < n}

section Span

variable {m m' : Mem} {c : Word} {n o k : ℕ}

theorem off_mem_span (h : o < n) : off c o ∈ span c n := by
  show (off c o - c).toNat < n
  rw [off, BitVec.add_comm, BitVec.add_sub_cancel, BitVec.toNat_ofNat]
  exact Nat.lt_of_le_of_lt (Nat.mod_le _ _) h

theorem span_off_subset : span (off c k) n ⊆ span c (k + n) := by
  intro b hb
  have hin : (b - off c k).toNat < n := hb
  have heq : off c (k + (b - off c k).toNat) = b := by
    rw [← off_off, off, add_sub_toNat]
  rw [← heq]
  exact off_mem_span (Nat.add_lt_add_left hin k)

/-- A word of the span is read from it. -/
theorem read64_congr_span (h : ∀ a ∈ span c n, m' a = m a) (ho : o + 8 ≤ n) :
    read64 m' (off c o) = read64 m (off c o) := by
  refine read64_congr fun i hi => h _ ?_
  rw [off_add]
  exact off_mem_span (by omega)

end Span

/-! ## The dynamic section -/

/-- The entries of the section at `dyn`, up to `DT_NULL`. -/
def HoldsTags (m : Mem) : Word → List (Word × Word) → Prop
  | dyn, [] => read64 m dyn = DT_NULL
  | dyn, (tag, val) :: tags =>
    tag ≠ DT_NULL ∧ read64 m dyn = tag ∧ read64 m (dyn + 8#64) = val ∧ HoldsTags m (dyn + 16#64) tags

/-- The table at `table`, with entries of 24 bytes. -/
def HoldsTable (m : Mem) (table : Word) (entries : List Elf64_Rela) : Prop :=
  ∀ i (hi : i < entries.length), rela_at m (off table (24 * i)) = entries[i]

/-- What the scan makes of the entries. -/
def scanned (base_addr : Word) (tags : List (Word × Word)) (t : Tables) : Tables :=
  tags.foldl (fun t e => t.take base_addr e.1 e.2) t

section Scan

variable {m m' : Mem} {base_addr dyn : Word} {tags : List (Word × Word)} {t : Tables} {rounds : ℕ}

theorem read_dynamic_eq (h : HoldsTags m dyn tags) (hrounds : tags.length < rounds) :
    read_dynamic base_addr rounds m dyn t = some (scanned base_addr tags t) := by
  induction tags generalizing dyn t rounds with
  | nil =>
    obtain ⟨k, rfl⟩ := Nat.exists_eq_add_of_lt hrounds
    exact if_pos h
  | cons e tags ih =>
    obtain ⟨hnull, htag, hval, hrest⟩ := h
    obtain ⟨k, rfl⟩ := Nat.exists_eq_add_of_lt hrounds
    rw [read_dynamic, htag, hval, if_neg hnull]
    refine ih hrest ?_
    rw [List.length_cons]
    omega

/-- A local that one tag sets: with the tag at most once, the order of the entries does not matter. -/
theorem scanned_field (f : Tables → Word) (key : Word) (g : Word → Word)
    (hf : ∀ t tag val, f (t.take base_addr tag val) = if tag = key then g val else f t)
    (hnodup : (tags.map (·.1)).Nodup) :
    (∀ val, (key, val) ∈ tags → f (scanned base_addr tags t) = g val) ∧
      (key ∉ tags.map (·.1) → f (scanned base_addr tags t) = f t) := by
  induction tags generalizing t with
  | nil => exact ⟨fun val h => absurd h List.not_mem_nil, fun _ => rfl⟩
  | cons e tags ih =>
    obtain ⟨hnew, hnodup⟩ := List.nodup_cons.mp hnodup
    obtain ⟨hin, hout⟩ := @ih (t.take base_addr e.1 e.2) hnodup
    constructor
    · intro val hval
      rcases List.mem_cons.mp hval with rfl | hval
      · exact (hout hnew).trans ((hf _ _ _).trans (if_pos rfl))
      · exact hin val hval
    · intro hkey
      rw [List.map_cons, List.mem_cons, not_or] at hkey
      exact (hout hkey.2).trans ((hf _ _ _).trans (if_neg fun he => hkey.1 he.symm))

/-- The locals of the RELA loop, and the address of the REL table. -/
theorem take_fields (base_addr : Word) (t : Tables) (tag val : Word) :
    (t.take base_addr tag val).rela_addr = (if tag = DT_RELA then base_addr + val else t.rela_addr) ∧
    (t.take base_addr tag val).rela_size = (if tag = DT_RELASZ then val else t.rela_size) ∧
    (t.take base_addr tag val).rela_ent = (if tag = DT_RELAENT then val else t.rela_ent) ∧
    (t.take base_addr tag val).rel_addr = (if tag = DT_REL then base_addr + val else t.rel_addr) := by
  unfold Tables.take
  split_ifs <;> simp_all +decide

/-- The section is read where it lies. -/
theorem HoldsTags.congr (h : HoldsTags m dyn tags)
    (hm : ∀ a ∈ span dyn (16 * (tags.length + 1)), m' a = m a) : HoldsTags m' dyn tags := by
  have hzero : off dyn 0 = dyn := BitVec.add_zero dyn
  induction tags generalizing dyn with
  | nil =>
    have hread := read64_congr_span hm (o := 0) (by decide)
    rw [hzero] at hread
    exact hread.trans h
  | cons e tags ih =>
    obtain ⟨hnull, htag, hval, hrest⟩ := h
    rw [List.length_cons] at hm
    have hread0 := read64_congr_span hm (o := 0) (by omega)
    have hread8 := read64_congr_span hm (o := 8) (by omega)
    rw [hzero] at hread0
    refine ⟨hnull, hread0.trans htag, hread8.trans hval, ih hrest (fun a ha => hm a ?_) ?_⟩
    · have hsub := span_off_subset (c := dyn) (k := 16) ha
      rwa [show 16 + 16 * (tags.length + 1) = 16 * (tags.length + 1 + 1) by omega] at hsub
    · exact BitVec.add_zero _

end Scan

/-! ## The table -/

/-- The target of an entry. -/
def target (base_addr : Word) (rela : Elf64_Rela) : Set Word := span (base_addr + rela.r_offset) 8

/-- The entries that the loop writes. -/
def relative (entries : List Elf64_Rela) : List Elf64_Rela :=
  entries.filter fun rela => ELF64_R_TYPE rela.r_info = R_AARCH64_RELATIVE

def rela_patch (base_addr : Word) (rela : Elf64_Rela) : Patch Word Byte :=
  ⟨target base_addr rela, fun a =>
    byteAt (base_addr + rela.r_addend) (a - (base_addr + rela.r_offset)).toNat⟩

/-- The memory with the entries of the table applied. -/
noncomputable def relocated (base_addr : Word) (entries : List Elf64_Rela) (m : Mem) : Mem :=
  Patch.applyAll ((relative entries).map (rela_patch base_addr)) m

/-- What the dynamic section and its table must satisfy: each tag at most once, a table of whole entries,
no REL table, and targets apart from each other, from the table and from the section. -/
structure Relocatable (base_addr dyn table : Word) (tags : List (Word × Word))
    (entries : List Elf64_Rela) : Prop where
  nodup : (tags.map (·.1)).Nodup
  rela : ∃ val, (DT_RELA, val) ∈ tags ∧ base_addr + val = table
  table_ne : table ≠ 0#64
  relasz : (DT_RELASZ, BitVec.ofNat 64 (24 * entries.length)) ∈ tags
  size : 24 * entries.length < 2 ^ 64
  relaent : (DT_RELAENT, 24#64) ∈ tags
  no_rel : DT_REL ∉ tags.map (·.1)
  apart : entries.Pairwise fun p q => Disjoint (target base_addr p) (target base_addr q)
  off_table : ∀ p ∈ entries, Disjoint (target base_addr p) (span table (24 * entries.length))
  off_section : ∀ p ∈ entries, Disjoint (target base_addr p) (span dyn (16 * (tags.length + 1)))

/-- The section and the table are in memory. -/
structure Holds (m : Mem) (dyn table : Word) (tags : List (Word × Word)) (entries : List Elf64_Rela) :
    Prop where
  tags : HoldsTags m dyn tags
  table : HoldsTable m table entries

section Table

variable {m m' : Mem} {base_addr dyn table : Word} {tags : List (Word × Word)}
  {entries : List Elf64_Rela}

theorem relocate_rela_eq (base_addr : Word) (m : Mem) (rela : Elf64_Rela) :
    relocate_rela base_addr m rela = relocated base_addr [rela] m := by
  unfold relocate_rela relocated relative
  by_cases htype : ELF64_R_TYPE rela.r_info = R_AARCH64_RELATIVE
  · rw [if_pos htype, List.filter_cons_of_pos (by simpa using htype)]
    show _ = (rela_patch base_addr rela).apply m
    funext b
    unfold writeN
    by_cases hb : b ∈ (rela_patch base_addr rela).dom
    · rw [Patch.apply_of_mem hb]
      exact if_pos hb
    · rw [Patch.apply_of_notMem hb]
      exact if_neg hb
  · rw [if_neg htype, List.filter_cons_of_neg (by simpa using htype)]
    rfl

theorem relocated_append (base_addr : Word) (ps qs : List Elf64_Rela) (m : Mem) :
    relocated base_addr (ps ++ qs) m = relocated base_addr qs (relocated base_addr ps m) := by
  unfold relocated relative
  rw [List.filter_append, List.map_append, Patch.applyAll_append]

/-- The bytes that no entry writes. -/
theorem relocated_of_notMem {a : Word} (h : ∀ p ∈ relative entries, a ∉ target base_addr p) :
    relocated base_addr entries m a = m a := by
  refine Patch.applyAll_of_notMem fun p hp => ?_
  obtain ⟨rela, hrela, rfl⟩ := List.mem_map.mp hp
  exact h rela hrela

theorem HoldsTable.congr (h : HoldsTable m table entries)
    (hm : ∀ a ∈ span table (24 * entries.length), m' a = m a) : HoldsTable m' table entries := by
  intro i hi
  have h8 : off table (24 * i) + 8#64 = off table (24 * i + 8) := off_add table (24 * i) 8
  have h16 : off table (24 * i) + 16#64 = off table (24 * i + 16) := off_add table (24 * i) 16
  rw [← h i hi, rela_at, rela_at, h8, h16, read64_congr_span hm (by omega),
    read64_congr_span hm (by omega), read64_congr_span hm (by omega)]

/-- Targets that are apart from a span do not reach it. -/
theorem relocated_span {a c : Word} {n : ℕ} (ha : a ∈ span c n)
    (hoff : ∀ p ∈ entries, Disjoint (target base_addr p) (span c n)) {es : List Elf64_Rela}
    (hes : es ⊆ entries) : relocated base_addr es m a = m a := by
  refine relocated_of_notMem fun p hp hap => ?_
  exact Set.disjoint_left.mp (hoff p (hes (List.mem_filter.mp hp).1)) hap ha

/-- The rounds of the loop: after `n` of them, the first `n` entries are applied. -/
theorem process_rounds_eq (h : HoldsTable m table entries)
    (hoff : ∀ p ∈ entries, Disjoint (target base_addr p) (span table (24 * entries.length))) {n : ℕ}
    (hn : n ≤ entries.length) :
    (List.range n).foldl (fun m i =>
      relocate_rela base_addr m (rela_at m (table + BitVec.ofNat 64 i * 24#64))) m =
      relocated base_addr (entries.take n) m := by
  induction n with
  | zero => rfl
  | succ n ih =>
    have haddr : table + BitVec.ofNat 64 n * 24#64 = off table (24 * n) := by
      rw [off, Nat.mul_comm, BitVec.ofNat_mul]
    have hkept : HoldsTable (relocated base_addr (entries.take n) m) table entries :=
      h.congr fun a ha => relocated_span ha hoff (List.take_subset n entries)
    rw [List.range_succ, List.foldl_append, ih (Nat.le_of_succ_le hn), List.foldl_cons, List.foldl_nil,
      haddr, hkept n hn, relocate_rela_eq, ← relocated_append, List.take_append_getElem]

/-- **The loop** reads each entry as it is in the table, and applies it. -/
theorem process_table_eq (h : HoldsTable m table entries) (hne : table ≠ 0#64)
    (hsize : 24 * entries.length < 2 ^ 64)
    (hoff : ∀ p ∈ entries, Disjoint (target base_addr p) (span table (24 * entries.length))) :
    process_table (fun m a => relocate_rela base_addr m (rela_at m a)) table
      (BitVec.ofNat 64 (24 * entries.length)) 24#64 m = relocated base_addr entries m := by
  have hnat : (BitVec.ofNat 64 (24 * entries.length)).toNat = 24 * entries.length := by
    rw [BitVec.toNat_ofNat, Nat.mod_eq_of_lt hsize]
  have hcount : (BitVec.ofNat 64 (24 * entries.length) / 24#64).toNat = entries.length := by
    rw [BitVec.toNat_udiv, hnat, show (24#64).toNat = 24 by rfl, Nat.mul_div_cancel_left _ (by decide)]
  unfold process_table
  split_ifs with hc
  · rw [hcount, process_rounds_eq h hoff (Nat.le_refl _), List.take_length]
  · -- without entries there is nothing to do
    have hnil : entries = [] := by
      by_contra hentries
      refine hc ⟨hne, fun h0 => ?_, by decide⟩
      rw [h0] at hnat
      have hpos := List.length_pos_iff.mpr hentries
      rw [show (0#64).toNat = 0 by rfl] at hnat
      omega
    rw [hnil]
    rfl

/-- The locals behind the scan. -/
theorem Relocatable.scanned (h : Relocatable base_addr dyn table tags entries) :
    (scanned base_addr tags {}).rela_addr = table ∧
    (scanned base_addr tags {}).rela_size = BitVec.ofNat 64 (24 * entries.length) ∧
    (scanned base_addr tags {}).rela_ent = 24#64 ∧ (scanned base_addr tags {}).rel_addr = 0#64 := by
  obtain ⟨val, hval, htable⟩ := h.rela
  have hfields := take_fields base_addr
  have hrela := scanned_field (·.rela_addr) DT_RELA (base_addr + ·) (fun t tag val => (hfields t tag val).1)
    h.nodup (t := {})
  have hsize := scanned_field (·.rela_size) DT_RELASZ id (fun t tag val => (hfields t tag val).2.1)
    h.nodup (t := {})
  have hent := scanned_field (·.rela_ent) DT_RELAENT id (fun t tag val => (hfields t tag val).2.2.1)
    h.nodup (t := {})
  have hrel := scanned_field (·.rel_addr) DT_REL (base_addr + ·) (fun t tag val => (hfields t tag val).2.2.2)
    h.nodup (t := {})
  exact ⟨(hrela.1 val hval).trans htable, hsize.1 _ h.relasz, hent.1 _ h.relaent, hrel.2 h.no_rel⟩

/-- **The run** of `process_relocations`. -/
theorem process_relocations_eq (h : Relocatable base_addr dyn table tags entries)
    (hm : Holds m dyn table tags entries) {rounds : ℕ} (hrounds : tags.length < rounds) :
    process_relocations rounds m base_addr dyn = some (true, relocated base_addr entries m) := by
  obtain ⟨haddr, hsize, hent, hrel⟩ := h.scanned
  unfold process_relocations
  rw [read_dynamic_eq hm.tags hrounds, Option.map_some]
  dsimp only
  rw [haddr, hsize, hent, hrel, process_table_eq hm.table h.table_ne h.size h.off_table]
  unfold process_table
  rw [if_neg fun h0 => h0.1 rfl]

/-- The order of the tags and of the entries is not a condition. -/
theorem Relocatable.perm {tags' : List (Word × Word)} {entries' : List Elf64_Rela}
    (h : Relocatable base_addr dyn table tags entries) (htags : tags.Perm tags')
    (hentries : entries.Perm entries') : Relocatable base_addr dyn table tags' entries' := by
  have hlen := hentries.length_eq
  have htlen := htags.length_eq
  have hkeys := htags.map (·.1)
  obtain ⟨hnodup, ⟨val, hval, htable⟩, hne, hrelasz, hsize, hent, hrel, hapart, hoff, hsec⟩ := h
  rw [hlen] at hrelasz hsize hoff
  rw [htlen] at hsec
  refine ⟨hkeys.nodup_iff.mp hnodup, ⟨val, htags.mem_iff.mp hval, htable⟩, hne,
    htags.mem_iff.mp hrelasz, hsize, htags.mem_iff.mp hent, fun hin => hrel (hkeys.mem_iff.mpr hin),
    hapart.perm hentries fun hd => hd.symm, fun p hp => hoff p (hentries.mem_iff.mpr hp),
    fun p hp => hsec p (hentries.mem_iff.mpr hp)⟩

/-- The patches of the entries are apart. -/
theorem Relocatable.pairwise_patch (h : Relocatable base_addr dyn table tags entries) :
    ((relative entries).map (rela_patch base_addr)).Pairwise fun p q => Disjoint p.dom q.dom :=
  List.pairwise_map.mpr (h.apart.filter _)

theorem Relocatable.relocated_target (h : Relocatable base_addr dyn table tags entries)
    {rela : Elf64_Rela} (hrela : rela ∈ entries)
    (htype : ELF64_R_TYPE rela.r_info = R_AARCH64_RELATIVE) :
    read64 (relocated base_addr entries m) (base_addr + rela.r_offset) = base_addr + rela.r_addend := by
  have hmem : rela_patch base_addr rela ∈ (relative entries).map (rela_patch base_addr) :=
    List.mem_map_of_mem (List.mem_filter.mpr ⟨hrela, decide_eq_true htype⟩)
  rw [← read64_writeN m (base_addr + rela.r_offset) (base_addr + rela.r_addend)]
  refine read64_congr fun i hi => ?_
  have hin : off (base_addr + rela.r_offset) i ∈ target base_addr rela := off_mem_span hi
  exact (Patch.applyAll_of_mem h.pairwise_patch hmem hin).trans (if_pos hin).symm

/-- Memories that differ off the targets at most there. -/
theorem Relocatable.relocated_congr {entries' : List Elf64_Rela}
    (h : Relocatable base_addr dyn table tags entries) (hentries : entries.Perm entries') {a : Word}
    (ha : (∀ p ∈ relative entries, a ∉ target base_addr p) → m a = m' a) :
    relocated base_addr entries m a = relocated base_addr entries' m' a := by
  refine Patch.applyAll_congr ((hentries.filter _).map _) h.pairwise_patch fun hout => ha fun p hp => ?_
  exact hout _ (List.mem_map_of_mem hp)

/-- The memory behind `process_relocations`: every target of a RELATIVE entry holds its address, and the
other bytes are as before. -/
structure Relocates (base_addr : Word) (entries : List Elf64_Rela) (m m' : Mem) : Prop where
  targets : ∀ rela ∈ entries, ELF64_R_TYPE rela.r_info = R_AARCH64_RELATIVE →
    read64 m' (base_addr + rela.r_offset) = base_addr + rela.r_addend
  others : ∀ a, (∀ rela ∈ relative entries, a ∉ target base_addr rela) → m' a = m a

/-- The byte is neither one of the dynamic section nor one of the table. -/
def OffTables (dyn table : Word) (tags : List (Word × Word)) (entries : List Elf64_Rela) (a : Word) :
    Prop := a ∉ span dyn (16 * (tags.length + 1)) ∧ a ∉ span table (24 * entries.length)

/-- **Relocations**: with as many rounds as the section has entries, the targets are relocated and nothing
else changes; another order of the tags and of the table gives the same memory, and a second run changes
nothing. -/
theorem relocations_spec (h : Relocatable base_addr dyn table tags entries)
    (hm : Holds m dyn table tags entries) : ∃ m',
    (∀ rounds > tags.length, process_relocations rounds m base_addr dyn = some (true, m')) ∧
    Relocates base_addr entries m m' ∧
    (∀ tags₂ entries₂ m₂, tags.Perm tags₂ → entries.Perm entries₂ → Holds m₂ dyn table tags₂ entries₂ →
      (∀ a, OffTables dyn table tags entries a → m₂ a = m a) → ∃ m₂',
        (∀ rounds > tags.length, process_relocations rounds m₂ base_addr dyn = some (true, m₂')) ∧
        ∀ a, OffTables dyn table tags entries a → m₂' a = m' a) ∧
    ∀ rounds > tags.length, process_relocations rounds m' base_addr dyn = some (true, m') := by
  have hothers : ∀ a, (∀ rela ∈ relative entries, a ∉ target base_addr rela) →
      relocated base_addr entries m a = m a := fun a ha => relocated_of_notMem ha
  refine ⟨relocated base_addr entries m, fun rounds hrounds => process_relocations_eq h hm hrounds,
    ⟨fun rela hrela htype => h.relocated_target hrela htype, hothers⟩, ?_, ?_⟩
  · intro tags₂ entries₂ m₂ htags hentries hm₂ hoff
    rw [htags.length_eq]
    refine ⟨relocated base_addr entries₂ m₂, fun rounds hrounds =>
      process_relocations_eq (h.perm htags hentries) hm₂ hrounds, fun a ha => ?_⟩
    exact (h.relocated_congr hentries fun _ => (hoff a ha).symm).symm
  · intro rounds hrounds
    have hm' : Holds (relocated base_addr entries m) dyn table tags entries :=
      ⟨hm.tags.congr fun a ha => relocated_span ha h.off_section (List.Subset.refl entries),
        hm.table.congr fun a ha => relocated_span ha h.off_table (List.Subset.refl entries)⟩
    rw [process_relocations_eq h hm' hrounds]
    refine congrArg (fun m => some (true, m)) (funext fun a => ?_)
    exact h.relocated_congr (List.Perm.refl entries) (hothers a)

end Table

/-! ## An instance -/

/-- A section at 0x20000 and a table at 0x30000: an R_AARCH64_ABS64 entry between two RELATIVE ones. -/
def rela_tags : List (Word × Word) :=
  [(DT_RELASZ, 72#64), (DT_RELA, 0x20000#64), (DT_RELAENT, 24#64)]

def rela_entries : List Elf64_Rela :=
  [⟨0x108#64, 1027#64, 0x40#64⟩, ⟨0x110#64, 257#64, 0x7#64⟩, ⟨0x100#64, 1027#64, 0x5#64⟩]

def rela_memory : Mem :=
  fill (fill (fun _ => 0#8) 0x20000#64 48 fun i =>
    ((rela_tags.map fun e => le64 e.1 ++ le64 e.2).flatten).getD i 0#8) 0x30000#64 72 fun i =>
      ((rela_entries.map fun e => le64 e.r_offset ++ le64 e.r_info ++ le64 e.r_addend).flatten).getD i 0#8

theorem disjoint_span {a b : Word} {n k : ℕ} (ha : a.toNat + n ≤ b.toNat) (hb : b.toNat + k ≤ 2 ^ 64) :
    Disjoint (span a n) (span b k) := by
  refine Set.disjoint_left.mpr fun c hac hbc => ?_
  have hac : (c - a).toNat < n := hac
  have hbc : (c - b).toNat < k := hbc
  rw [sub_toNat_lt_iff (by omega)] at hac hbc
  omega

/-- The targets are three words in a row, in another order than the entries. -/
theorem rela_apart :
    rela_entries.Pairwise fun p q => Disjoint (target 0x10000#64 p) (target 0x10000#64 q) := by
  refine .cons (fun q hq => ?_) (List.pairwise_pair.mpr (disjoint_span (by decide) (by decide)).symm)
  rcases List.mem_cons.mp hq with rfl | hq
  · exact disjoint_span (by decide) (by decide)
  · obtain rfl := List.mem_singleton.mp hq
    exact (disjoint_span (by decide) (by decide)).symm

theorem rela_off {c : Word} {n : ℕ} (hc : 0x10118 ≤ c.toNat) (hn : c.toNat + n ≤ 2 ^ 64) :
    ∀ p ∈ rela_entries, Disjoint (target 0x10000#64 p) (span c n) := by
  refine List.forall_mem_cons.mpr ⟨disjoint_span ?_ hn, List.forall_mem_cons.mpr
    ⟨disjoint_span ?_ hn, List.forall_mem_singleton.mpr (disjoint_span ?_ hn)⟩⟩
  · exact Nat.le_trans (by decide) hc
  · exact Nat.le_trans (by decide) hc
  · exact Nat.le_trans (by decide) hc

theorem relocatable_rela : Relocatable 0x10000#64 0x20000#64 0x30000#64 rela_tags rela_entries where
  nodup := by decide
  rela := ⟨0x20000#64, by decide, by decide⟩
  table_ne := by decide
  relasz := by decide
  size := by decide
  relaent := by decide
  no_rel := by decide
  apart := rela_apart
  off_table := rela_off (by decide) (by decide)
  off_section := rela_off (by decide) (by decide)

theorem holds_rela : Holds rela_memory 0x20000#64 0x30000#64 rela_tags rela_entries := by
  refine ⟨⟨by decide, by decide, by decide, by decide, by decide, by decide, by decide, by decide, by decide,
    ?_⟩, fun i hi => ?_⟩
  · show read64 rela_memory (0x20000#64 + 16#64 + 16#64 + 16#64) = DT_NULL
    decide
  · have hi : i < 3 := hi
    obtain rfl | rfl | rfl : i = 0 ∨ i = 1 ∨ i = 2 := by omega
    · show rela_at rela_memory (off 0x30000#64 0) = ⟨0x108#64, 1027#64, 0x40#64⟩
      decide
    · show rela_at rela_memory (off 0x30000#64 24) = ⟨0x110#64, 257#64, 0x7#64⟩
      decide
    · show rela_at rela_memory (off 0x30000#64 48) = ⟨0x100#64, 1027#64, 0x5#64⟩
      decide

/-- With two RELATIVE entries and one that the loop passes over. -/
theorem relocations_spec_three : ∃ m',
    (∀ rounds > 3, process_relocations rounds rela_memory 0x10000#64 0x20000#64 = some (true, m')) ∧
    Relocates 0x10000#64 rela_entries rela_memory m' ∧
    (∀ tags₂ entries₂ m₂, rela_tags.Perm tags₂ → rela_entries.Perm entries₂ →
      Holds m₂ 0x20000#64 0x30000#64 tags₂ entries₂ →
      (∀ a, OffTables 0x20000#64 0x30000#64 rela_tags rela_entries a → m₂ a = rela_memory a) → ∃ m₂',
        (∀ rounds > 3, process_relocations rounds m₂ 0x10000#64 0x20000#64 = some (true, m₂')) ∧
        ∀ a, OffTables 0x20000#64 0x30000#64 rela_tags rela_entries a → m₂' a = m' a) ∧
    ∀ rounds > 3, process_relocations rounds m' 0x10000#64 0x20000#64 = some (true, m') :=
  relocations_spec relocatable_rela holds_rela

end DynLink

end Bbarm64
