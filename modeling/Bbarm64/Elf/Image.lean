import Bbarm64.Core.Regions
import Bbarm64.Elf.Parse
import Bbarm64.Elf.Segments
import Bbarm64.Lib.Parts

/-!
# Elf.Image — the ELF files of an image

The other direction of the loader: `file` writes an ELF header, program headers and what they describe
one behind the other, as the format has it.  `parse` finds these headers in the file (`parse_file`),
and loading the file of an image gives its memory: for each segment the bytes, zeros up to its size,
and the permissions of its flags.
-/

namespace Bbarm64

open X86

namespace ELFLoader

/-! ## Bytes in a file -/

def le16 (v : BitVec 16) : List Byte := [byteAt v 0, byteAt v 1]

section Fields

variable {data bs : List Byte} {o : ℕ}

/-- A byte, as the loader reads it. -/
theorem image_part (h : PartAt data o bs) {i : ℕ} {b : Byte} (hb : bs[i]? = some b)
    (ho : o + i < 2 ^ 64) : image data (BitVec.ofNat 64 (o + i)) = b := by
  rw [ELFLoader.image, BitVec.toNat_ofNat, Nat.mod_eq_of_lt ho, List.getD_eq_getElem?_getD, h i b hb]
  rfl

theorem read16_part {v : BitVec 16} (h : PartAt data o (le16 v)) (ho : o + 2 ≤ 2 ^ 64) :
    read16 (image data) (BitVec.ofNat 64 o) = v := by
  have h0 := image_part h (i := 0) rfl (by omega)
  have h1 := image_part h (i := 1) rfl (by omega)
  rw [read16, ← BitVec.ofNat_add, h1, show BitVec.ofNat 64 o = BitVec.ofNat 64 (o + 0) from rfl, h0]
  refine BitVec.eq_of_getLsbD_eq fun i hi => ?_
  simp only [byteAt, BitVec.getLsbD_append, BitVec.getLsbD_extractLsb']
  split_ifs with hlt
  · simp [hlt]
  · simp [show i - 8 < 8 by omega, show 8 + (i - 8) = i by omega]

theorem read32_part {v : BitVec 32} (h : PartAt data o (le32 v)) (ho : o + 4 ≤ 2 ^ 64) :
    read32 (image data) (BitVec.ofNat 64 o) = v := by
  refine read32_of_bytes fun i hi => ?_
  rw [← BitVec.ofNat_add]
  exact image_part h (le32_getElem? v hi) (by omega)

theorem read64_part {v : Word} (h : PartAt data o (le64 v)) (ho : o + 8 ≤ 2 ^ 64) :
    read64 (image data) (BitVec.ofNat 64 o) = v := by
  have hlo : PartAt data o (le32 (v.extractLsb' 0 32)) := h.left
  have hhi : PartAt data (o + 4) (le32 (v.extractLsb' 32 32)) := h.right
  rw [read64, ← BitVec.ofNat_add, read32_part hlo (by omega), read32_part hhi (by omega),
    extract_append64]

end Fields

/-! ## The headers -/

/-- The bytes of a program header. -/
def phdr_bytes (ph : ELFProgramHeader) : List Byte :=
  [le32 ph.type, le32 ph.flags, le64 ph.offset, le64 ph.vaddr, le64 ph.paddr, le64 ph.filesz,
    le64 ph.memsz, le64 ph.align].flatten

/-- The bytes of the ELF header of an A64 executable with its program headers right behind. -/
def ehdr_bytes (entry : Word) (phnum : BitVec 16) : List Byte :=
  [[0x7F, 0x45, 0x4C, 0x46, ELFCLASS64, 1, 1, 0, 0, 0, 0, 0, 0, 0, 0, 0], le16 2#16, le16 EM_AARCH64,
    le32 1#32, le64 entry, le64 64#64, le64 0#64, le32 0#32, le16 64#16, le16 56#16, le16 phnum,
    le16 64#16, le16 0#16, le16 0#16].flatten

/-- The file with these program headers, and `body` behind them. -/
def file (entry : Word) (phs : List ELFProgramHeader) (body : List Byte) : List Byte :=
  ehdr_bytes entry (BitVec.ofNat 16 phs.length) ++ phs.flatMap phdr_bytes ++ body

theorem phdr_bytes_length (ph : ELFProgramHeader) : (phdr_bytes ph).length = sizeof_Elf64_Phdr := rfl

theorem ehdr_bytes_length (entry : Word) (phnum : BitVec 16) :
    (ehdr_bytes entry phnum).length = sizeof_Elf64_Ehdr := rfl

theorem flatMap_phdr_bytes_length (phs : List ELFProgramHeader) :
    (phs.flatMap phdr_bytes).length = sizeof_Elf64_Phdr * phs.length := by
  induction phs with
  | nil => rfl
  | cons ph phs ih =>
    rw [List.flatMap_cons, List.length_append, phdr_bytes_length, ih, List.length_cons, Nat.mul_succ,
      Nat.add_comm]

section Headers

variable {data : List Byte} {o : ℕ}

/-- A program header is read as it was written. -/
theorem phdr_part {ph : ELFProgramHeader} (h : PartAt data o (phdr_bytes ph)) (ho : o + 56 ≤ 2 ^ 64) :
    phdr_at (image data) (BitVec.ofNat 64 o) = ph := by
  have htype : PartAt data o (le32 ph.type) := h.part (i := 0) rfl
  have hflags : PartAt data (o + 4) (le32 ph.flags) := h.part (i := 1) rfl
  have hoffset : PartAt data (o + 8) (le64 ph.offset) := h.part (i := 2) rfl
  have hvaddr : PartAt data (o + 16) (le64 ph.vaddr) := h.part (i := 3) rfl
  have hpaddr : PartAt data (o + 24) (le64 ph.paddr) := h.part (i := 4) rfl
  have hfilesz : PartAt data (o + 32) (le64 ph.filesz) := h.part (i := 5) rfl
  have hmemsz : PartAt data (o + 40) (le64 ph.memsz) := h.part (i := 6) rfl
  have halign : PartAt data (o + 48) (le64 ph.align) := h.part (i := 7) rfl
  unfold phdr_at
  simp only [← BitVec.ofNat_add]
  rw [read32_part htype (by omega), read32_part hflags (by omega), read64_part hoffset (by omega),
    read64_part hvaddr (by omega), read64_part hpaddr (by omega), read64_part hfilesz (by omega),
    read64_part hmemsz (by omega), read64_part halign (by omega)]

/-- The program headers lie in a row. -/
theorem phdrs_part {phs : List ELFProgramHeader} (h : PartAt data o (phs.flatMap phdr_bytes)) {i : ℕ}
    {ph : ELFProgramHeader} (hi : phs[i]? = some ph) :
    PartAt data (o + sizeof_Elf64_Phdr * i) (phdr_bytes ph) := by
  rw [List.flatMap_def] at h
  have hlt := (List.getElem?_eq_some_iff.mp hi).1
  have hpart := h.part (i := i) (by rw [List.getElem?_map, hi, Option.map_some])
  rwa [← List.map_take, ← List.flatMap_def, flatMap_phdr_bytes_length, List.length_take,
    Nat.min_eq_left (Nat.le_of_lt hlt)] at hpart

/-- The ELF header is read as it was written. -/
structure Header (entry : Word) (phnum : BitVec 16) (data : List Byte) : Prop where
  accepted : Accepted data
  entry : (ehdr data).e_entry = entry
  phoff : (ehdr data).e_phoff = 64#64
  phentsize : (ehdr data).e_phentsize = 56#16
  phnum : (ehdr data).e_phnum = phnum

theorem header_part {entry : Word} {phnum : BitVec 16} (h : PartAt data 0 (ehdr_bytes entry phnum)) :
    Header entry phnum data := by
  have hle := h.le (List.cons_ne_nil _ _)
  have hident : PartAt data 0 [0x7F, 0x45, 0x4C, 0x46, ELFCLASS64, 1, 1, 0, 0, 0, 0, 0, 0, 0, 0, 0] :=
    h.part (i := 0) rfl
  have hmachine : PartAt data 18 (le16 EM_AARCH64) := h.part (i := 2) rfl
  have hentry : PartAt data 24 (le64 entry) := h.part (i := 4) rfl
  have hphoff : PartAt data 32 (le64 64#64) := h.part (i := 5) rfl
  have hphentsize : PartAt data 54 (le16 56#16) := h.part (i := 9) rfl
  have hphnum : PartAt data 56 (le16 phnum) := h.part (i := 10) rfl
  have hbyte : ∀ i b,
      [(0x7F : Byte), 0x45, 0x4C, 0x46, ELFCLASS64, 1, 1, 0, 0, 0, 0, 0, 0, 0, 0, 0][i]? = some b →
        (ehdr data).e_ident i = b := by
    intro i b hb
    have hi : i < 16 := (List.getElem?_eq_some_iff.mp hb).1
    have hat := image_part hident hb (by omega)
    show image data (0#64 + BitVec.ofNat 64 i) = b
    rwa [← BitVec.ofNat_add]
  have hread : ∀ o : Word, 0#64 + o = o := BitVec.zero_add
  refine ⟨⟨?_, hbyte 0 _ rfl, hbyte 1 _ rfl, hbyte 2 _ rfl, hbyte 3 _ rfl, ?_, hbyte 4 _ rfl⟩,
    ?_, ?_, ?_, ?_⟩
  · rwa [Nat.zero_add, ehdr_bytes_length] at hle
  · exact (congrArg (read16 _) (hread 18#64)).trans (read16_part hmachine (by decide))
  · exact (congrArg (read64 _) (hread 24#64)).trans (read64_part hentry (by decide))
  · exact (congrArg (read64 _) (hread 32#64)).trans (read64_part hphoff (by decide))
  · exact (congrArg (read16 _) (hread 54#64)).trans (read16_part hphentsize (by decide))
  · exact (congrArg (read16 _) (hread 56#64)).trans (read16_part hphnum (by decide))

/-- Where program header `i` is. -/
theorem Header.offset {entry : Word} {phnum : BitVec 16} (h : Header entry phnum data) {i : ℕ}
    (hi : i < 2 ^ 16) : phdr_offset (ehdr data) i = BitVec.ofNat 64 (64 + 56 * i) := by
  have hmul : (BitVec.ofNat 32 i * (56#16).setWidth 32).toNat = 56 * i := by
    have hsize : ((56#16).setWidth 32 : BitVec 32).toNat = 56 := rfl
    rw [BitVec.toNat_mul, BitVec.toNat_ofNat, hsize]
    omega
  have hmsb : (BitVec.ofNat 32 i * (56#16).setWidth 32).msb = false := by
    rw [BitVec.msb_eq_false_iff_two_mul_lt]
    omega
  rw [phdr_offset, h.phoff, h.phentsize, BitVec.signExtend_eq_setWidth_of_msb_false hmsb]
  apply BitVec.eq_of_toNat_eq
  rw [BitVec.toNat_add, BitVec.toNat_setWidth, hmul, BitVec.toNat_ofNat, BitVec.toNat_ofNat]
  omega

end Headers

/-! ## The round trip -/

theorem record_entry_point (data : List Byte) (info : ELFInfo) (phs : List ELFProgramHeader) :
    (phs.foldl (record data) info).entry_point = info.entry_point := by
  induction phs generalizing info with
  | nil => rfl
  | cons ph phs ih =>
    rw [List.foldl_cons, ih]
    unfold record
    split_ifs <;> rfl

section File

variable {entry : Word} {phs : List ELFProgramHeader} {body : List Byte}

theorem file_header (entry : Word) (phs : List ELFProgramHeader) (body : List Byte) :
    Header entry (BitVec.ofNat 16 phs.length) (file entry phs body) := by
  have h := partAt_append [] (ehdr_bytes entry (BitVec.ofNat 16 phs.length))
    (phs.flatMap phdr_bytes ++ body)
  rw [List.nil_append, ← List.append_assoc] at h
  exact header_part h

theorem file_phdr {i : ℕ} {ph : ELFProgramHeader} (hi : phs[i]? = some ph) :
    PartAt (file entry phs body) (64 + 56 * i) (phdr_bytes ph) := by
  have h := partAt_append (ehdr_bytes entry (BitVec.ofNat 16 phs.length)) (phs.flatMap phdr_bytes) body
  exact phdrs_part h hi

/-- The headers of the file are those it was written from. -/
theorem headers_file (hlen : phs.length < 2 ^ 16) : headers (file entry phs body) = phs := by
  have hheader := file_header entry phs body
  refine List.ext_getElem? fun i => ?_
  rw [headers, hheader.phnum, BitVec.toNat_ofNat, Nat.mod_eq_of_lt hlen, List.getElem?_map]
  by_cases hi : i < phs.length
  · have hph := List.getElem?_eq_getElem hi
    rw [List.getElem?_range hi, Option.map_some, phdr, hheader.offset (by omega),
      phdr_part (file_phdr hph) (by omega), hph]
  · rw [List.getElem?_eq_none (by rw [List.length_range]; omega), List.getElem?_eq_none (by omega)]
    rfl

/-- **The round trip of the headers**: `parse` takes every file that is written so, with fewer than 2^16
program headers and a terminator for each interpreter string, and finds the entry point and the program
headers that were written, in their order. -/
theorem parse_file (hlen : phs.length < 2 ^ 16) (hinterp : ∀ ph ∈ phs, ph.type = PT_INTERP →
    ∃ j, ph.offset.toNat ≤ j ∧ (file entry phs body)[j]? = some 0#8) (info : ELFInfo)
    (phdrs : List ELFProgramHeader) :
    ∃ info', parse (file entry phs body) info phdrs = some (true, info', phs) ∧
      info'.entry_point = entry := by
  have hheader := file_header entry phs body
  have hphnum : (ehdr (file entry phs body)).e_phnum.toNat = phs.length := by
    rw [hheader.phnum, BitVec.toNat_ofNat, Nat.mod_eq_of_lt hlen]
  have hin : ∀ i < (ehdr (file entry phs body)).e_phnum.toNat, PhdrInside (file entry phs body) i := by
    intro i hi
    rw [hphnum] at hi
    have hph := List.getElem?_eq_getElem hi
    have hat : PartAt (file entry phs body) (64 + 56 * i) (phdr_bytes phs[i]) := file_phdr hph
    have hoff := hheader.offset (i := i) (by omega)
    have hread : phdr (file entry phs body) i = phs[i] := by
      rw [phdr, hoff, phdr_part hat (by omega)]
    refine ⟨?_, ?_⟩
    · have hle := hat.le (List.cons_ne_nil _ _)
      rw [phdr_bytes_length] at hle
      rw [Inside, hoff, BitVec.toNat_ofNat]
      omega
    · rw [hread]
      exact hinterp _ (List.getElem_mem hi)
  rw [parse_eq hheader.accepted hin, headers_file hlen]
  refine ⟨_, rfl, ?_⟩
  rw [record_entry_point]
  exact hheader.entry

/-- An interpreter and a segment, with the name of the interpreter behind the headers. -/
def interp_phdrs : List ELFProgramHeader :=
  [{ type := PT_INTERP, flags := PF_R, offset := 176#64, vaddr := 0x100B0#64, paddr := 0x100B0#64,
     filesz := 4#64, memsz := 4#64, align := 1#64 },
   { type := PT_LOAD, flags := PF_R ||| PF_X, offset := 0#64, vaddr := 0x10000#64, paddr := 0x10000#64,
     filesz := 180#64, memsz := 180#64, align := 0x1000#64 }]

/-- `/ld` -/
def ld : List Byte := [0x2F, 0x6C, 0x64, 0]

/-- An `ELFInfo` as `main` makes it. -/
def blank_info : ELFInfo := ⟨0#64, 0#64, 0#16, 0#16, 0#64, false, 0#64, []⟩

theorem parse_file_interp : ∃ info',
    parse (file 0x10000#64 interp_phdrs ld) blank_info [] = some (true, info', interp_phdrs) ∧
      info'.entry_point = 0x10000#64 := by
  refine parse_file (by decide) (fun ph hph htype => ?_) blank_info []
  simp only [interp_phdrs, List.mem_cons, List.not_mem_nil, or_false] at hph
  rcases hph with rfl | rfl
  · exact ⟨179, by decide, by decide +kernel⟩
  · exact absurd htype (by decide)

end File

/-! ## Loading -/

/-- `ELFLoader::load`; there is no file if it cannot be opened or mapped. -/
def load (host_ok : Word → Word → BitVec 32 → Bool) (file : Option (List Byte)) (info : ELFInfo)
    (mem : MemoryManager) : Option (Bool × ELFInfo × MemoryManager) :=
  match file with
  | none => some (false, info, mem)
  | some data => do
    let (result, info, phdrs_) ← parse data info []
    if result then do
      let (result, mem) ← load_segments host_ok data mem phdrs_
      some (result, info, mem)
    else some (false, info, mem)

section Load

variable {host_ok : Word → Word → BitVec 32 → Bool} {data : List Byte} {m : MemoryManager}

/-- A file that loads has a header that `parse` takes, and all its segments are loaded. -/
theorem load_eq_some {info info' : ELFInfo} {m' : MemoryManager}
    (h : load host_ok (some data) info m = some (true, info', m')) :
    info'.entry_point = (ehdr data).e_entry ∧
      load_segments host_ok data m (headers data) = some (true, m') := by
  unfold load at h
  dsimp only at h
  by_cases hacc : Accepted data
  · have hin : ∀ i < (ehdr data).e_phnum.toNat, PhdrInside data i := by
      refine (parse_isSome_iff data info []).mp ?_ hacc
      cases hp : parse data info [] with
      | none =>
        rw [hp] at h
        cases h
      | some r => rfl
    rw [parse_eq hacc hin, Option.bind_eq_bind, Option.bind_some] at h
    dsimp only at h
    rw [if_pos rfl] at h
    obtain ⟨⟨result, mem⟩, hseg, he⟩ := Option.bind_eq_some_iff.mp h
    obtain ⟨rfl, he⟩ := Prod.mk.inj (Option.some.inj he)
    obtain ⟨rfl, rfl⟩ := Prod.mk.inj he
    exact ⟨record_entry_point data _ _, hseg⟩
  · rw [parse_of_rejected hacc] at h
    cases h

/-- Behind a load that succeeds every `PT_LOAD` is loaded, and the bump pointer is where it was. -/
theorem loaded_of_load {info info' : ELFInfo} {m' : MemoryManager}
    (hempty : ∀ addr prot, host_ok addr 0#64 prot = false) (hregs : m.regions_ = [])
    (hok : ∀ ph ∈ loads (headers data), SegmentOk data ph)
    (hd : (loads (headers data)).Pairwise PagesApart)
    (h : load host_ok (some data) info m = some (true, info', m')) :
    info'.entry_point = (ehdr data).e_entry ∧ m'.mmap_base_ = m.mmap_base_ ∧
      ∀ ph ∈ headers data, ph.type = PT_LOAD → Loaded data ph m' := by
  obtain ⟨hentry, hseg⟩ := load_eq_some h
  have hnil : ∀ q ∈ ([] : List ELFProgramHeader), page_start q < page_end q := List.forall_mem_nil _
  obtain ⟨r, hr, hrun⟩ := load_segments_run hempty hregs hnil hok hd
  obtain rfl := Option.some.inj (hseg.symm.trans hr)
  obtain ⟨rfl, -⟩ := hrun rfl
  refine ⟨hentry, rfl, fun ph hph htype => loaded_of_with_segments hregs hok hd ?_⟩
  exact List.mem_filter.mpr ⟨hph, by simpa using htype⟩

/-- The host maps the pages of the segment. -/
def Granted (host_ok : Word → Word → BitVec 32 → Bool) (ph : ELFProgramHeader) : Prop :=
  host_ok (page_vaddr ph) (map_size ph) (prot_of ph.flags ||| PROT_WRITE) = true

/-- A round succeeds if the host maps the pages. -/
theorem load_segment_fst {ph : ELFProgramHeader} (ok : SegmentOk data ph) (m : MemoryManager) :
    ∃ r, load_segment host_ok data m ph = some r ∧ (r.1 = true ↔ Granted host_ok ph) := by
  unfold Granted
  cases hmap : host_ok (page_vaddr ph) (map_size ph) (prot_of ph.flags ||| PROT_WRITE) with
  | false => exact ⟨_, load_segment_refused ok m hmap, Iff.rfl⟩
  | true =>
    unfold load_segment
    dsimp only
    rw [mmap_eq ok]
    simp only [if_pos hmap, if_neg (page_vaddr_ne_zero ok), copy_segment_eq ok, Option.bind_eq_bind,
      Option.bind_some]
    exact ⟨_, rfl, iff_of_true rfl trivial⟩

/-- The loop returns true exactly if the host maps the pages of all segments. -/
theorem load_segments_fst {phdrs : List ELFProgramHeader} (hok : ∀ ph ∈ loads phdrs, SegmentOk data ph)
    (m : MemoryManager) : ∃ r, load_segments host_ok data m phdrs = some r ∧
      (r.1 = true ↔ ∀ ph ∈ loads phdrs, Granted host_ok ph) := by
  induction phdrs generalizing m with
  | nil => exact ⟨_, rfl, iff_of_true rfl nofun⟩
  | cons ph phdrs ih =>
    unfold load_segments
    by_cases htype : ph.type = PT_LOAD
    · rw [loads_cons_of_pos phdrs htype] at hok ⊢
      obtain ⟨hph, hok⟩ := List.forall_mem_cons.mp hok
      obtain ⟨⟨ok, mem⟩, hseg, hgranted⟩ := @load_segment_fst host_ok data ph hph m
      rw [if_neg (not_not_intro htype), hseg, Option.bind_eq_bind, Option.bind_some]
      cases ok with
      | false =>
        have hno : ¬ Granted host_ok ph := fun h => Bool.noConfusion (hgranted.mpr h)
        exact ⟨_, rfl, iff_of_false Bool.false_ne_true fun h => hno (h ph List.mem_cons_self)⟩
      | true =>
        obtain ⟨r, hr, hall⟩ := ih hok mem
        refine ⟨r, hr, hall.trans ?_⟩
        rw [List.forall_mem_cons]
        exact (and_iff_right (hgranted.mp rfl)).symm
    · rw [loads_cons_of_neg phdrs htype] at hok ⊢
      rw [if_pos htype]
      exact ih hok m

end Load

/-! ## Images -/

/-- A segment: `bytes` from `vaddr` on, and zeros behind them, `memsz` bytes in all. -/
structure Segment where
  vaddr : Word
  bytes : List Byte
  memsz : ℕ
  flags : BitVec 32
  bytes_le : bytes.length ≤ memsz
  vaddr_ge : 4096 ≤ vaddr.toNat
  no_wrap : vaddr.toNat + memsz + 4095 < 2 ^ 64

namespace Segment

def pages (s : Segment) : Set Word :=
  {a | s.vaddr.toNat / 4096 * 4096 ≤ a.toNat ∧ a.toNat < (s.vaddr.toNat + s.memsz + 4095) / 4096 * 4096}

/-- The program header of the segment, with its bytes at offset `o` of the file. -/
def header (s : Segment) (o : ℕ) : ELFProgramHeader where
  type := PT_LOAD
  flags := s.flags
  offset := BitVec.ofNat 64 o
  vaddr := s.vaddr
  paddr := s.vaddr
  filesz := BitVec.ofNat 64 s.bytes.length
  memsz := BitVec.ofNat 64 s.memsz
  align := 0x1000#64

/-- The segment is in memory: its bytes, zeros behind them, and the permissions of its flags. -/
structure InMemory (s : Segment) (m : MemoryManager) : Prop where
  bytes : ∀ i < s.memsz, m.host (off s.vaddr i) = s.bytes.getD i 0#8
  read : ∀ addr len : Word, 0 < len.toNat → s.vaddr.toNat ≤ addr.toNat →
    addr.toNat + len.toNat ≤ s.vaddr.toNat + s.memsz →
    (m.check_perms addr len PROT_READ = true ↔ s.flags &&& PF_R ≠ 0 ∨ s.flags &&& PF_X ≠ 0)
  write : ∀ addr len : Word, 0 < len.toNat → s.vaddr.toNat ≤ addr.toNat →
    addr.toNat + len.toNat ≤ s.vaddr.toNat + s.memsz →
    (m.check_perms addr len PROT_WRITE = true ↔ s.flags &&& PF_W ≠ 0)
  exec : ∀ addr len : Word, 0 < len.toNat → s.vaddr.toNat ≤ addr.toNat →
    addr.toNat + len.toNat ≤ s.vaddr.toNat + s.memsz →
    (m.check_perms addr len PROT_EXEC = true ↔ s.flags &&& PF_X ≠ 0)

variable {s : Segment} {data : List Byte} {o : ℕ}

theorem memsz_toNat (s : Segment) : (BitVec.ofNat 64 s.memsz).toNat = s.memsz := by
  have hwrap := s.no_wrap
  exact Nat.mod_eq_of_lt (by omega)

theorem filesz_toNat (s : Segment) : (BitVec.ofNat 64 s.bytes.length).toNat = s.bytes.length := by
  have hwrap := s.no_wrap
  have hle := s.bytes_le
  exact Nat.mod_eq_of_lt (by omega)

theorem pages_header (s : Segment) (o : ℕ) : ELFLoader.pages (s.header o) = s.pages := by
  have hmemsz : (s.header o).memsz.toNat = s.memsz := s.memsz_toNat
  rw [ELFLoader.pages, page_start, page_end, hmemsz]
  rfl

theorem segmentOk (s : Segment) (hle : o + s.bytes.length ≤ data.length) (hdata : data.length < 2 ^ 64) :
    SegmentOk data (s.header o) := by
  have hmemsz : (s.header o).memsz.toNat = s.memsz := s.memsz_toNat
  have hfilesz : (s.header o).filesz.toNat = s.bytes.length := s.filesz_toNat
  have hoffset : (s.header o).offset.toNat = o := Nat.mod_eq_of_lt (by omega)
  refine ⟨?_, ?_, s.vaddr_ge, ?_⟩
  · rw [hfilesz, hmemsz]
    exact s.bytes_le
  · rw [hoffset, hfilesz]
    exact hle
  · rw [hmemsz]
    exact s.no_wrap

/-- A segment that was loaded is in memory. -/
theorem inMemory (s : Segment) {m : MemoryManager} (hat : PartAt data o s.bytes)
    (hle : o + s.bytes.length ≤ data.length) (hdata : data.length < 2 ^ 64)
    (h : Loaded data (s.header o) m) : s.InMemory m := by
  have hmemsz : (s.header o).memsz.toNat = s.memsz := s.memsz_toNat
  have hfilesz : (s.header o).filesz.toNat = s.bytes.length := s.filesz_toNat
  have hoffset : (s.header o).offset.toNat = o := Nat.mod_eq_of_lt (by omega)
  refine ⟨fun i hi => ?_, fun addr len h0 hlo hhi => h.read addr len ⟨h0, hlo, ?_⟩,
    fun addr len h0 hlo hhi => h.write addr len ⟨h0, hlo, ?_⟩,
    fun addr len h0 hlo hhi => h.exec addr len ⟨h0, hlo, ?_⟩⟩
  · rw [← hmemsz] at hi
    refine (h.bytes i hi).trans ?_
    rw [hfilesz, hoffset]
    split_ifs with hlt
    · have hb := List.getElem?_eq_getElem hlt
      rw [List.getD_eq_getElem?_getD, List.getD_eq_getElem?_getD, hat _ _ hb, hb]
    · rw [List.getD_eq_getElem?_getD, List.getElem?_eq_none (Nat.le_of_not_lt hlt)]
      rfl
  all_goals
    rw [hmemsz]
    exact hhi

end Segment

/-- What a program wants in memory: segments on pages of their own. -/
structure Image where
  entry : Word
  segments : List Segment
  apart : segments.Pairwise fun s t => Disjoint s.pages t.pages
  few : segments.length < 2 ^ 16

/-- The program headers, with the bytes of the segments in a row from offset `o` on. -/
def headersFrom (o : ℕ) : List Segment → List ELFProgramHeader
  | [] => []
  | s :: ss => s.header o :: headersFrom (o + s.bytes.length) ss

namespace Image

/-- The bytes of the segments follow the headers. -/
def start (img : Image) : ℕ := sizeof_Elf64_Ehdr + sizeof_Elf64_Phdr * img.segments.length

def headers (img : Image) : List ELFProgramHeader := headersFrom img.start img.segments

/-- The ELF file of the image. -/
def file (img : Image) : List Byte :=
  ELFLoader.file img.entry img.headers (img.segments.flatMap (·.bytes))

end Image

section Headers

variable {data : List Byte} {ss : List Segment} {o : ℕ}

theorem headersFrom_length (o : ℕ) (ss : List Segment) : (headersFrom o ss).length = ss.length := by
  induction ss generalizing o with
  | nil => rfl
  | cons s ss ih => rw [headersFrom, List.length_cons, ih, List.length_cons]

/-- Each header is that of a segment, whose bytes are where it says. -/
theorem of_mem_headersFrom (hat : PartAt data o (ss.flatMap (·.bytes)))
    (hle : o + (ss.flatMap (·.bytes)).length ≤ data.length) {ph : ELFProgramHeader}
    (hph : ph ∈ headersFrom o ss) :
    ∃ s ∈ ss, ∃ o', ph = s.header o' ∧ PartAt data o' s.bytes ∧ o' + s.bytes.length ≤ data.length := by
  induction ss generalizing o with
  | nil => cases hph
  | cons s ss ih =>
    rw [List.flatMap_cons] at hat hle
    rw [List.length_append] at hle
    rcases List.mem_cons.mp hph with rfl | hph
    · exact ⟨s, List.mem_cons_self, o, rfl, hat.left, by omega⟩
    · obtain ⟨t, ht, hrest⟩ := ih hat.right (by omega) hph
      exact ⟨t, List.mem_cons_of_mem s ht, hrest⟩

/-- Each segment has a header. -/
theorem exists_mem_headersFrom (hat : PartAt data o (ss.flatMap (·.bytes)))
    (hle : o + (ss.flatMap (·.bytes)).length ≤ data.length) {s : Segment} (hs : s ∈ ss) :
    ∃ o', s.header o' ∈ headersFrom o ss ∧ PartAt data o' s.bytes ∧
      o' + s.bytes.length ≤ data.length := by
  induction ss generalizing o with
  | nil => cases hs
  | cons t ss ih =>
    rw [List.flatMap_cons] at hat hle
    rw [List.length_append] at hle
    rcases List.mem_cons.mp hs with rfl | hs
    · exact ⟨o, List.mem_cons_self, hat.left, by omega⟩
    · obtain ⟨o', ho', hrest⟩ := ih hat.right (by omega) hs
      exact ⟨o', List.mem_cons_of_mem _ ho', hrest⟩

theorem loads_headersFrom (o : ℕ) (ss : List Segment) : loads (headersFrom o ss) = headersFrom o ss := by
  induction ss generalizing o with
  | nil => rfl
  | cons s ss ih => rw [headersFrom, loads_cons_of_pos _ rfl, ih]

/-- The pages of the headers are those of the segments. -/
theorem pairwise_headersFrom (o : ℕ) (h : ss.Pairwise fun s t => Disjoint s.pages t.pages) :
    (headersFrom o ss).Pairwise PagesApart := by
  induction ss generalizing o with
  | nil => exact .nil
  | cons s ss ih =>
    obtain ⟨hs, hss⟩ := List.pairwise_cons.mp h
    have hpages : ∀ o, ∀ ph ∈ headersFrom o ss, ∃ t ∈ ss, pages ph = t.pages := by
      clear ih h hs hss
      induction ss with
      | nil => exact fun _ _ hph => nomatch hph
      | cons t ss ih =>
        intro o ph hph
        rcases List.mem_cons.mp hph with rfl | hph
        · exact ⟨t, List.mem_cons_self, t.pages_header o⟩
        · obtain ⟨u, hu, he⟩ := ih _ ph hph
          exact ⟨u, List.mem_cons_of_mem t hu, he⟩
    refine .cons (fun ph hph => ?_) (ih _ hss)
    obtain ⟨t, ht, he⟩ := hpages _ ph hph
    rw [PagesApart, he, s.pages_header]
    exact hs t ht

end Headers

/-- **Loading a file of an image**: the loader reads inside the file and takes it.  It returns true
exactly if the host maps the pages of every segment, and then the entry point is that of the image and
its segments are in memory.  The host refuses an empty mapping. -/
theorem load_image (img : Image) {host_ok : Word → Word → BitVec 32 → Bool}
    (hempty : ∀ addr prot, host_ok addr 0#64 prot = false) (hdata : img.file.length < 2 ^ 64)
    (info : ELFInfo) {m : MemoryManager} (hregs : m.regions_ = []) :
    ∃ r, load host_ok (some img.file) info m = some r ∧
      (r.1 = true ↔ ∀ ph ∈ img.headers, Granted host_ok ph) ∧
      (r.1 = true → r.2.1.entry_point = img.entry ∧ ∀ s ∈ img.segments, s.InMemory r.2.2) := by
  have hlength : img.headers.length = img.segments.length := headersFrom_length _ _
  have hlen : img.headers.length < 2 ^ 16 := hlength ▸ img.few
  have hstart : (ehdr_bytes img.entry (BitVec.ofNat 16 img.headers.length) ++
      img.headers.flatMap phdr_bytes).length = img.start := by
    rw [List.length_append, ehdr_bytes_length, flatMap_phdr_bytes_length, hlength, Image.start]
  have hat : PartAt img.file img.start (img.segments.flatMap (·.bytes)) := by
    have h := partAt_append (ehdr_bytes img.entry (BitVec.ofNat 16 img.headers.length) ++
      img.headers.flatMap phdr_bytes) (img.segments.flatMap (·.bytes)) []
    rwa [List.append_nil, hstart] at h
  have hle : img.start + (img.segments.flatMap (·.bytes)).length ≤ img.file.length := by
    rw [← hstart, ← List.length_append]
    exact Nat.le_refl _
  have hloads : loads img.headers = img.headers := loads_headersFrom _ _
  have hok : ∀ ph ∈ loads img.headers, SegmentOk img.file ph := by
    intro ph hph
    obtain ⟨s, -, o, rfl, -, hend⟩ := of_mem_headersFrom hat hle (hloads ▸ hph)
    exact s.segmentOk hend hdata
  have hapart : (loads img.headers).Pairwise PagesApart := by
    rw [hloads]
    exact pairwise_headersFrom _ img.apart
  -- no header is a PT_INTERP
  have hinterp : ∀ ph ∈ img.headers, ph.type = PT_INTERP →
      ∃ j, ph.offset.toNat ≤ j ∧ img.file[j]? = some 0#8 := by
    intro ph hph htype
    obtain ⟨s, -, o, rfl, -⟩ := of_mem_headersFrom hat hle hph
    exact absurd (show PT_LOAD = PT_INTERP from htype) (by decide)
  obtain ⟨info', hparse, hentry⟩ := parse_file hlen hinterp info []
  obtain ⟨⟨ok, m'⟩, hsegs, hgranted⟩ := @load_segments_fst host_ok img.file img.headers hok m
  obtain ⟨r, hr, hloaded⟩ := load_segments_loaded hempty hregs hok hapart
  obtain rfl := Option.some.inj (hsegs.symm.trans hr)
  have hload : load host_ok (some img.file) info m = some (ok, info', m') := by
    unfold load
    dsimp only
    rw [show parse img.file info [] = some (true, info', img.headers) from hparse, Option.bind_eq_bind,
      Option.bind_some]
    dsimp only
    rw [if_pos rfl, hsegs]
    rfl
  rw [hloads] at hgranted
  refine ⟨_, hload, hgranted, fun htrue => ⟨hentry, fun s hs => ?_⟩⟩
  obtain ⟨o, hmem, hats, hend⟩ := exists_mem_headersFrom hat hle hs
  exact s.inMemory hats hend hdata (hloaded htrue _ hmem rfl)

/-- Two words of code at 0x10040, and four bytes of data at 0x20010 with four bytes of BSS. -/
def two_image : Image where
  entry := 0x10040#64
  segments :=
    [{ vaddr := 0x10040#64, bytes := [0x60, 0, 0x80, 0xD2, 1, 0, 0, 0xD4], memsz := 8,
       flags := PF_R ||| PF_X, bytes_le := by decide, vaddr_ge := by decide, no_wrap := by decide },
     { vaddr := 0x20010#64, bytes := [1, 2, 3, 4], memsz := 8, flags := PF_R ||| PF_W,
       bytes_le := by decide, vaddr_ge := by decide, no_wrap := by decide }]
  apart := by
    refine List.pairwise_pair.mpr (Set.disjoint_left.mpr fun a ha hb => ?_)
    have h₁ : a.toNat < 0x11000 := ha.2
    have h₂ : 0x20000 ≤ a.toNat := hb.1
    omega
  few := by decide

theorem load_image_two : ∃ info' m,
    load MemoryManager.maps_user (some two_image.file) blank_info (.new fun _ => 0xFF#8) =
      some (true, info', m) ∧ info'.entry_point = 0x10040#64 ∧
    ∀ s ∈ two_image.segments, s.InMemory m := by
  have hempty : ∀ addr prot, MemoryManager.maps_user addr 0#64 prot = false := by
    intro addr prot
    exact decide_eq_false fun h => absurd h.2.1 (by decide)
  have hall : ∀ ph ∈ two_image.headers, Granted MemoryManager.maps_user ph := by
    intro ph hph
    rcases List.mem_cons.mp hph with rfl | hph
    · show MemoryManager.maps_user _ _ _ = true
      decide
    · obtain rfl := List.mem_singleton.mp hph
      show MemoryManager.maps_user _ _ _ = true
      decide
  obtain ⟨⟨ok, info', m⟩, hload, hgranted, hmem⟩ :=
    load_image two_image hempty (by decide +kernel) blank_info (m := .new fun _ => 0xFF#8) rfl
  obtain rfl : ok = true := hgranted.mpr hall
  exact ⟨info', m, hload, hmem rfl⟩

end ELFLoader

end Bbarm64
