import Bbarm64.Elf.Loader

/-!
# Elf.Parse — what `ELFLoader::parse` reads

`parse` checks that the ELF header is in the buffer and nothing else.  A program header is wherever
`e_phoff`, `e_phentsize` and its number say, and the `PT_INTERP` string is wherever `p_offset` says.
Both loops go over all headers, whatever they have found so far, so `parse` stays in the buffer
exactly when each header does so on its own.
-/

namespace Bbarm64

open X86

/-! ## Loops that may fail -/

section Loops

variable {α β : Type} {f : β → α → Option β} {l : List α}

/-- A loop whose steps do not fail. -/
theorem foldlM_of_forall {g : β → α → β} (h : ∀ a ∈ l, ∀ b, f b a = some (g b a)) (b : β) :
    l.foldlM f b = some (l.foldl g b) := by
  induction l generalizing b with
  | nil => rfl
  | cons a l ih =>
    obtain ⟨hhead, hrest⟩ := List.forall_mem_cons.mp h
    rw [List.foldlM_cons, hhead, Option.bind_eq_bind, Option.bind_some, ih hrest, List.foldl_cons]

/-- A loop with a step that fails whatever the state. -/
theorem foldlM_of_exists {a : α} (ha : a ∈ l) (h : ∀ b, f b a = none) (b : β) :
    l.foldlM f b = none := by
  induction l generalizing b with
  | nil => cases ha
  | cons c l ih =>
    rw [List.foldlM_cons, Option.bind_eq_bind]
    obtain rfl | hl := List.mem_cons.mp ha
    · rw [h, Option.bind_none]
    · have hrest : (fun c => l.foldlM f c) = fun _ => none := funext (ih hl)
      rw [hrest, Option.bind_fun_none]

/-- A loop that collects what it reads, and folds over it. -/
theorem foldl_collect {γ : Type} (r : γ → β → γ) (p : α → β) (l : List α) (start : γ) (done : List β) :
    l.foldl (fun st a => (r st.1 (p a), st.2 ++ [p a])) (start, done) =
      ((l.map p).foldl r start, done ++ l.map p) := by
  induction l generalizing start done with
  | nil => rw [List.map_nil, List.append_nil]; rfl
  | cons a l ih =>
    rw [List.foldl_cons, ih, List.map_cons, List.foldl_cons, List.append_assoc]
    rfl

end Loops

namespace ELFLoader

/-! ## Strings -/

theorem c_string_eq_none_iff {data : List Byte} : c_string data = none ↔ 0#8 ∉ data := by
  induction data with
  | nil => simp [c_string]
  | cons b rest ih =>
    rw [c_string]
    split_ifs with hb
    · simp [hb]
    · rw [Option.map_eq_none_iff, ih, List.mem_cons, not_or]
      exact ⟨fun h => ⟨fun he => hb he.symm, h⟩, fun h => h.2⟩

/-- What `c_string` finds is followed by the terminator. -/
theorem c_string_eq_some {data s : List Byte} (h : c_string data = some s) :
    (∃ rest, data = s ++ 0#8 :: rest) ∧ 0#8 ∉ s := by
  induction data generalizing s with
  | nil => cases h
  | cons b rest ih =>
    rw [c_string] at h
    split_ifs at h with hb
    · cases h
      exact ⟨⟨rest, by rw [hb, List.nil_append]⟩, List.not_mem_nil⟩
    · obtain ⟨t, ht, rfl⟩ := Option.map_eq_some_iff.mp h
      obtain ⟨⟨tail, rfl⟩, hnot⟩ := ih ht
      exact ⟨⟨tail, rfl⟩, fun hmem => (List.mem_cons.mp hmem).elim (fun he => hb he.symm) hnot⟩

theorem mem_drop_iff {data : List Byte} {n : ℕ} {b : Byte} :
    b ∈ data.drop n ↔ ∃ j, n ≤ j ∧ data[j]? = some b := by
  rw [List.mem_iff_getElem?]
  simp only [List.getElem?_drop]
  constructor
  · rintro ⟨i, hi⟩
    exact ⟨n + i, Nat.le_add_right n i, hi⟩
  · rintro ⟨j, hj, hb⟩
    exact ⟨j - n, by rwa [Nat.add_sub_cancel' hj]⟩

/-! ## Headers -/

/-- The ELF header that starts the file. -/
def ehdr (data : List Byte) : Elf64_Ehdr := ehdr_at (image data) 0#64

/-- The file is long enough for an ELF header, and `parse` takes the one it has. -/
structure Accepted (data : List Byte) : Prop where
  size : sizeof_Elf64_Ehdr ≤ data.length
  mag0 : (ehdr data).e_ident EI_MAG0 = 0x7F#8
  mag1 : (ehdr data).e_ident EI_MAG1 = 0x45#8
  mag2 : (ehdr data).e_ident EI_MAG2 = 0x4C#8
  mag3 : (ehdr data).e_ident EI_MAG3 = 0x46#8
  machine : (ehdr data).e_machine = EM_AARCH64
  class64 : (ehdr data).e_ident EI_CLASS = ELFCLASS64

/-- The program header with this number. -/
def phdr (data : List Byte) (i : ℕ) : ELFProgramHeader :=
  phdr_at (image data) (phdr_offset (ehdr data) i)

/-- All program headers. -/
def headers (data : List Byte) : List ELFProgramHeader :=
  (List.range (ehdr data).e_phnum.toNat).map (phdr data)

/-- A program header is in the file, and so is a terminator for its string if it is a `PT_INTERP`. -/
structure PhdrInside (data : List Byte) (i : ℕ) : Prop where
  inside : Inside data (phdr_offset (ehdr data) i) sizeof_Elf64_Phdr
  terminated : (phdr data i).type = PT_INTERP →
    ∃ j, (phdr data i).offset.toNat ≤ j ∧ data[j]? = some 0#8

/-- What a program header adds to `info`. -/
def record (data : List Byte) (info : ELFInfo) (ph : ELFProgramHeader) : ELFInfo :=
  if ph.type = PT_DYNAMIC then { info with is_dynamic := true, dynamic_addr := ph.vaddr }
  else if ph.type = PT_INTERP then
    { info with interp := (c_string (data.drop ph.offset.toNat)).getD [] }
  else info

/-- The lowest `vaddr` so far. -/
def lowest (min_vaddr : Word) (ph : ELFProgramHeader) : Word :=
  if ph.type = PT_LOAD ∧ ph.vaddr < min_vaddr then ph.vaddr else min_vaddr

section Rounds

variable {data : List Byte} {i : ℕ}

theorem lower_vaddr_eq (h : Inside data (phdr_offset (ehdr data) i) sizeof_Elf64_Phdr)
    (min_vaddr : Word) :
    lower_vaddr data (ehdr data) min_vaddr i = some (lowest min_vaddr (phdr data i)) := by
  have hoff := (phdr_offset (ehdr data) i).isLt
  have htype : u32 data (phdr_offset (ehdr data) i) = some (phdr data i).type := by
    refine if_pos ?_
    rw [Inside, sizeof_Elf64_Phdr] at h
    rw [Inside]
    omega
  have hvaddr : u64 data (phdr_offset (ehdr data) i + 16#64) = some (phdr data i).vaddr := by
    refine if_pos ?_
    rw [Inside, sizeof_Elf64_Phdr] at h
    rw [Inside, BitVec.toNat_add]
    simp only [BitVec.toNat_ofNat]
    omega
  rw [lower_vaddr, htype, hvaddr, Option.bind_eq_bind, Option.bind_some, lowest]
  by_cases hl : (phdr data i).type = PT_LOAD
  · simp only [hl, ↓reduceIte, true_and, Option.bind_eq_bind, Option.bind_some]
  · simp only [hl, ↓reduceIte, false_and]

/-- A `PT_INTERP` in the file names a string of the file. -/
theorem c_string_of_inside (h : PhdrInside data i) (ht : (phdr data i).type = PT_INTERP) :
    ∃ s, c_string (data.drop (phdr data i).offset.toNat) = some s := by
  have hmem : 0#8 ∈ data.drop (phdr data i).offset.toNat := mem_drop_iff.mpr (h.terminated ht)
  exact Option.ne_none_iff_exists'.mp fun hn => c_string_eq_none_iff.mp hn hmem

theorem parse_phdr_eq (h : PhdrInside data i) (info : ELFInfo) (phdrs : List ELFProgramHeader) :
    parse_phdr data (ehdr data) (info, phdrs) i =
      some (record data info (phdr data i), phdrs ++ [phdr data i]) := by
  have hread : field data sizeof_Elf64_Phdr phdr_at (phdr_offset (ehdr data) i) =
      some (phdr data i) := if_pos h.inside
  unfold parse_phdr record
  dsimp only
  rw [hread, Option.bind_eq_bind, Option.bind_some]
  by_cases hinterp : (phdr data i).type = PT_INTERP
  · have hdyn : (phdr data i).type ≠ PT_DYNAMIC := by
      rw [hinterp]
      decide
    obtain ⟨s, hs⟩ := c_string_of_inside h hinterp
    rw [if_pos hinterp, if_neg hdyn, if_neg hdyn, if_pos hinterp, hs]
    rfl
  · rw [if_neg hinterp, if_neg hinterp]

/-- A header that is not inside stops the second loop. -/
theorem parse_phdr_of_outside (h : ¬ PhdrInside data i) (st : ELFInfo × List ELFProgramHeader) :
    parse_phdr data (ehdr data) st i = none := by
  unfold parse_phdr
  dsimp only
  by_cases hin : Inside data (phdr_offset (ehdr data) i) sizeof_Elf64_Phdr
  · have hread : field data sizeof_Elf64_Phdr phdr_at (phdr_offset (ehdr data) i) =
        some (phdr data i) := if_pos hin
    have hnot : (phdr data i).type = PT_INTERP ∧ 0#8 ∉ data.drop (phdr data i).offset.toNat := by
      by_contra hc
      refine h ⟨hin, fun ht => mem_drop_iff.mp ?_⟩
      by_contra hm
      exact hc ⟨ht, hm⟩
    rw [hread, Option.bind_eq_bind, Option.bind_some, if_pos hnot.1, c_string_eq_none_iff.mpr hnot.2]
    rfl
  · have hread : field data sizeof_Elf64_Phdr phdr_at (phdr_offset (ehdr data) i) = none := if_neg hin
    rw [hread]
    rfl

end Rounds

/-! ## The whole file -/

section Whole

variable {data : List Byte}

/-- A header that is turned down, before any program header is read. -/
theorem parse_of_rejected (h : ¬ Accepted data) (info : ELFInfo) (phdrs : List ELFProgramHeader) :
    parse data info phdrs = some (false, info, phdrs) := by
  unfold parse
  split_ifs with hsize
  · rfl
  · have hread : field data sizeof_Elf64_Ehdr ehdr_at 0#64 = some (ehdr data) := if_pos (by
      rw [Inside, BitVec.toNat_ofNat]
      omega)
    rw [hread, Option.bind_eq_bind, Option.bind_some]
    split_ifs with hmag hmachine hclass
    · rfl
    · rfl
    · rfl
    · simp only [not_or, not_not] at hmag hmachine hclass
      exact absurd ⟨by omega, hmag.1, hmag.2.1, hmag.2.2.1, hmag.2.2.2, hmachine, hclass⟩ h

/-- `info` with the fields of the ELF header. -/
def with_ehdr (info : ELFInfo) (e : Elf64_Ehdr) : ELFInfo :=
  { info with
    entry_point := e.e_entry, phdr_offset := e.e_phoff, phnum := e.e_phnum
    phentsize := e.e_phentsize, is_dynamic := false, dynamic_addr := 0#64, base_addr := 0#64 }

/-- An accepted header leads to the two loops. -/
theorem parse_of_accepted (h : Accepted data) (info : ELFInfo) (phdrs : List ELFProgramHeader) :
    parse data info phdrs =
      ((List.range (ehdr data).e_phnum.toNat).foldlM (lower_vaddr data (ehdr data))
        (BitVec.allOnes 64)).bind fun min_vaddr =>
      ((List.range (ehdr data).e_phnum.toNat).foldlM (parse_phdr data (ehdr data))
        ({ with_ehdr info (ehdr data) with base_addr := min_vaddr }, [])).map fun st => (true, st) := by
  have hread : field data sizeof_Elf64_Ehdr ehdr_at 0#64 = some (ehdr data) := if_pos (by
    rw [Inside, BitVec.toNat_ofNat, Nat.zero_mod, Nat.zero_add]
    exact h.size)
  have hmag : ¬ ((ehdr data).e_ident EI_MAG0 ≠ 0x7F#8 ∨ (ehdr data).e_ident EI_MAG1 ≠ 0x45#8 ∨
      (ehdr data).e_ident EI_MAG2 ≠ 0x4C#8 ∨ (ehdr data).e_ident EI_MAG3 ≠ 0x46#8) := by
    simp only [not_or, not_not]
    exact ⟨h.mag0, h.mag1, h.mag2, h.mag3⟩
  unfold parse
  rw [if_neg (Nat.not_lt.mpr h.size), hread, Option.bind_eq_bind, Option.bind_some, if_neg hmag,
    if_neg (not_not_intro h.machine), if_neg (not_not_intro h.class64)]
  dsimp only
  rw [Option.bind_eq_bind]
  congr 1
  funext min_vaddr
  rw [Option.bind_eq_bind, Option.map_eq_bind]
  rfl

/-- **What `parse` finds**: the program headers of the file, the lowest `vaddr` of a `PT_LOAD`, and
what the headers say about the dynamic section and the interpreter. -/
theorem parse_eq (h : Accepted data) (hin : ∀ i < (ehdr data).e_phnum.toNat, PhdrInside data i)
    (info : ELFInfo) (phdrs : List ELFProgramHeader) :
    parse data info phdrs = some (true,
      (headers data).foldl (record data)
        { with_ehdr info (ehdr data) with
          base_addr := (headers data).foldl lowest (BitVec.allOnes 64) },
      headers data) := by
  have hfirst := foldlM_of_forall (f := lower_vaddr data (ehdr data))
    (g := fun min_vaddr i => lowest min_vaddr (phdr data i))
    fun i hi => lower_vaddr_eq (hin i (List.mem_range.mp hi)).inside
  have hsecond := foldlM_of_forall (f := parse_phdr data (ehdr data))
    (g := fun st i => (record data st.1 (phdr data i), st.2 ++ [phdr data i]))
    fun i hi st => parse_phdr_eq (hin i (List.mem_range.mp hi)) st.1 st.2
  have hlowest : (headers data).foldl lowest (BitVec.allOnes 64) =
      (List.range (ehdr data).e_phnum.toNat).foldl
        (fun min_vaddr i => lowest min_vaddr (phdr data i)) (BitVec.allOnes 64) := List.foldl_map
  rw [parse_of_accepted h, hfirst, Option.bind_some, hsecond, Option.map_some, foldl_collect, hlowest,
    List.nil_append]
  rfl

/-- **`parse` stays in the buffer** exactly if it turns the ELF header down, or each program header is
in the file, with a terminator for each interpreter string. -/
theorem parse_isSome_iff (data : List Byte) (info : ELFInfo) (phdrs : List ELFProgramHeader) :
    (parse data info phdrs).isSome ↔
      (Accepted data → ∀ i < (ehdr data).e_phnum.toNat, PhdrInside data i) := by
  constructor
  · intro hsome h i hi
    by_contra hout
    have hsecond := foldlM_of_exists (List.mem_range.mpr hi) (parse_phdr_of_outside hout)
    rw [parse_of_accepted h] at hsome
    simp only [hsecond, Option.map_none, Option.bind_fun_none, Option.isSome_none,
      Bool.false_eq_true] at hsome
  · intro hin
    by_cases h : Accepted data
    · rw [parse_eq h (hin h)]
      rfl
    · rw [parse_of_rejected h]
      rfl

end Whole

/-- A file of one ELF header, which announces a program header behind it. -/
def truncated : List Byte :=
  [0x7F, 0x45, 0x4C, 0x46, 2, 1, 1, 0, 0, 0, 0, 0, 0, 0, 0, 0,
    2, 0, 183, 0, 1, 0, 0, 0, 0, 0, 0, 0, 0, 0, 0, 0,
    64, 0, 0, 0, 0, 0, 0, 0, 0, 0, 0, 0, 0, 0, 0, 0,
    0, 0, 0, 0, 64, 0, 56, 0, 1, 0, 0, 0, 0, 0, 0, 0]

/-- `parse` reads past the end of a file without the program headers that it announces. -/
theorem not_parse_isSome :
    ¬ ∀ (data : List Byte) (info : ELFInfo) (phdrs : List ELFProgramHeader),
      (parse data info phdrs).isSome := by
  intro h
  have hsome := h truncated ⟨0, 0, 0, 0, 0, false, 0, []⟩ []
  revert hsome
  decide +kernel

section Result

variable {data : List Byte}

/-- The interpreter that `parse` reports is a string of the file, up to its terminator. -/
theorem parse_interp {info info' : ELFInfo} {phdrs phdrs' : List ELFProgramHeader}
    (h : parse data info phdrs = some (true, info', phdrs')) :
    info'.interp = info.interp ∨ ∃ ph ∈ headers data, ph.type = PT_INTERP ∧
      (∃ rest, data.drop ph.offset.toNat = info'.interp ++ 0#8 :: rest) ∧ 0#8 ∉ info'.interp := by
  have hacc : Accepted data := by
    by_contra hrej
    rw [parse_of_rejected hrej] at h
    cases h
  have hin := (parse_isSome_iff data info phdrs).mp (by rw [h]; rfl) hacc
  rw [parse_eq hacc hin] at h
  obtain ⟨rfl, -⟩ := Prod.mk.inj (Prod.mk.inj (Option.some.inj h)).2
  -- each round keeps the string or takes the one of its header
  refine List.foldlRecOn (headers data) (record data)
    (motive := fun st : ELFInfo => st.interp = info.interp ∨ ∃ ph ∈ headers data, ph.type = PT_INTERP ∧
      (∃ rest, data.drop ph.offset.toNat = st.interp ++ 0#8 :: rest) ∧ 0#8 ∉ st.interp)
    (Or.inl rfl) ?_
  intro st hst ph hph
  obtain ⟨i, hi, rfl⟩ := List.mem_map.mp hph
  unfold record
  split_ifs with hdyn hinterp
  · exact hst
  · obtain ⟨s, hs⟩ := c_string_of_inside (hin i (List.mem_range.mp hi)) hinterp
    rw [hs]
    exact Or.inr ⟨_, hph, hinterp, c_string_eq_some hs⟩
  · exact hst

end Result

end ELFLoader

end Bbarm64
