import Bbarm64.Core.MemoryManager

/-!
# Elf.Loader — `ELFLoader`

The file is a list of bytes, with a mapping of its own outside the guest's pages.  Every access to it
says whether it stays inside: `none` is a read past the end of the buffer, and so is an offset that
points before its start, since offsets wrap as `uint64_t` sums.
-/

namespace Bbarm64

open X86

/-! ## `elf.h` -/

def PT_LOAD : BitVec 32 := 1
def PT_DYNAMIC : BitVec 32 := 2
def PT_INTERP : BitVec 32 := 3

def PF_X : BitVec 32 := 1
def PF_W : BitVec 32 := 2
def PF_R : BitVec 32 := 4

def EI_MAG0 : ℕ := 0
def EI_MAG1 : ℕ := 1
def EI_MAG2 : ℕ := 2
def EI_MAG3 : ℕ := 3
def EI_CLASS : ℕ := 4

def EM_AARCH64 : BitVec 16 := 183
def ELFCLASS64 : Byte := 2

/-- The fields that `parse` reads. -/
structure Elf64_Ehdr where
  e_ident : ℕ → Byte
  e_machine : BitVec 16
  e_entry : Word
  e_phoff : Word
  e_phentsize : BitVec 16
  e_phnum : BitVec 16

def sizeof_Elf64_Ehdr : ℕ := 64
def sizeof_Elf64_Phdr : ℕ := 56

structure ELFInfo where
  entry_point : Word
  phdr_offset : Word
  phnum : BitVec 16
  phentsize : BitVec 16
  base_addr : Word
  is_dynamic : Bool
  dynamic_addr : Word
  interp : List Byte
  deriving DecidableEq, Repr

structure ELFProgramHeader where
  type : BitVec 32
  flags : BitVec 32
  offset : Word
  vaddr : Word
  paddr : Word
  filesz : Word
  memsz : Word
  align : Word
  deriving DecidableEq, Repr

namespace ELFLoader

/-! ## The file -/

/-- The buffer, read at an offset. -/
def image (data : List Byte) : Mem := fun a => data.getD a.toNat 0#8

/-- `n` bytes from `offset` on are in the buffer. -/
def Inside (data : List Byte) (offset : Word) (n : ℕ) : Prop := offset.toNat + n ≤ data.length

instance (data : List Byte) (offset : Word) (n : ℕ) : Decidable (Inside data offset n) :=
  inferInstanceAs (Decidable (_ ≤ _))

/-- A field of `n` bytes, as `read` assembles it. -/
def field {α : Type} (data : List Byte) (n : ℕ) (read : Mem → Word → α) (offset : Word) : Option α :=
  if Inside data offset n then some (read (image data) offset) else none

def u32 (data : List Byte) (offset : Word) : Option (BitVec 32) := field data 4 read32 offset
def u64 (data : List Byte) (offset : Word) : Option (BitVec 64) := field data 8 read64 offset

/-- The source of a `memcpy` of `n` bytes. -/
def bytes (data : List Byte) (offset n : Word) : Option (ℕ → Byte) :=
  if Inside data offset n.toNat then some fun i => data.getD (offset.toNat + i) 0#8 else none

/-- A C string, without its terminator. -/
def c_string : List Byte → Option (List Byte)
  | [] => none
  | b :: rest => if b = 0#8 then some [] else (c_string rest).map (b :: ·)

/-! ## `parse` -/

/-- The `Elf64_Ehdr` at `a`. -/
def ehdr_at (m : Mem) (a : Word) : Elf64_Ehdr where
  e_ident i := m (a + BitVec.ofNat 64 i)
  e_machine := read16 m (a + 18#64)
  e_entry := read64 m (a + 24#64)
  e_phoff := read64 m (a + 32#64)
  e_phentsize := read16 m (a + 54#64)
  e_phnum := read16 m (a + 56#64)

/-- The `Elf64_Phdr` at `a`. -/
def phdr_at (m : Mem) (a : Word) : ELFProgramHeader where
  type := read32 m a
  flags := read32 m (a + 4#64)
  offset := read64 m (a + 8#64)
  vaddr := read64 m (a + 16#64)
  paddr := read64 m (a + 24#64)
  filesz := read64 m (a + 32#64)
  memsz := read64 m (a + 40#64)
  align := read64 m (a + 48#64)

/-- `e_phoff + i * e_phentsize`; the product is an `int`. -/
def phdr_offset (ehdr : Elf64_Ehdr) (i : ℕ) : Word :=
  ehdr.e_phoff + (BitVec.ofNat 32 i * ehdr.e_phentsize.setWidth 32).signExtend 64

/-- The body of the loop that finds the lowest vaddr. -/
def lower_vaddr (data : List Byte) (ehdr : Elf64_Ehdr) (min_vaddr : Word) (i : ℕ) : Option Word := do
  let type ← u32 data (phdr_offset ehdr i)
  if type = PT_LOAD then do
    let vaddr ← u64 data (phdr_offset ehdr i + 16#64)
    some (if vaddr < min_vaddr then vaddr else min_vaddr)
  else some min_vaddr

/-- The body of the loop that parses the program headers. -/
def parse_phdr (data : List Byte) (ehdr : Elf64_Ehdr) (st : ELFInfo × List ELFProgramHeader) (i : ℕ) :
    Option (ELFInfo × List ELFProgramHeader) := do
  let (info, phdrs_) := st
  let ph ← field data sizeof_Elf64_Phdr phdr_at (phdr_offset ehdr i)
  let phdrs_ := phdrs_ ++ [ph]
  let info := if ph.type = PT_DYNAMIC then { info with is_dynamic := true, dynamic_addr := ph.vaddr }
    else info
  if ph.type = PT_INTERP then do
    let interp ← c_string (data.drop ph.offset.toNat)
    some ({ info with interp }, phdrs_)
  else some (info, phdrs_)

/-- `ELFLoader::parse`: what it returns, `info` and `phdrs_`. -/
def parse (data : List Byte) (info : ELFInfo) (phdrs_ : List ELFProgramHeader) :
    Option (Bool × ELFInfo × List ELFProgramHeader) :=
  if data.length < sizeof_Elf64_Ehdr then some (false, info, phdrs_)
  else do
    let ehdr ← field data sizeof_Elf64_Ehdr ehdr_at 0#64
    -- Verify ELF magic
    if ehdr.e_ident EI_MAG0 ≠ 0x7F#8 ∨ ehdr.e_ident EI_MAG1 ≠ 0x45#8 ∨
        ehdr.e_ident EI_MAG2 ≠ 0x4C#8 ∨ ehdr.e_ident EI_MAG3 ≠ 0x46#8 then
      some (false, info, phdrs_)
    -- Verify ARM64
    else if ehdr.e_machine ≠ EM_AARCH64 then some (false, info, phdrs_)
    -- Verify 64-bit
    else if ehdr.e_ident EI_CLASS ≠ ELFCLASS64 then some (false, info, phdrs_)
    else do
      let info := { info with
        entry_point := ehdr.e_entry, phdr_offset := ehdr.e_phoff, phnum := ehdr.e_phnum,
        phentsize := ehdr.e_phentsize, is_dynamic := false, dynamic_addr := 0#64, base_addr := 0#64 }
      let headers := List.range ehdr.e_phnum.toNat
      let min_vaddr ← headers.foldlM (lower_vaddr data ehdr) (BitVec.allOnes 64)
      let (info, phdrs_) ← headers.foldlM (parse_phdr data ehdr) ({ info with base_addr := min_vaddr }, [])
      some (true, info, phdrs_)

/-! ## `load_segments` -/

/-- `PROT_*` of the `PF_*` flags. -/
def prot_of (flags : BitVec 32) : BitVec 32 :=
  (if flags &&& PF_R ≠ 0 then PROT_READ else 0) ||| (if flags &&& PF_W ≠ 0 then PROT_WRITE else 0) |||
    (if flags &&& PF_X ≠ 0 then PROT_EXEC else 0)

/-- `memcpy` or `memset` to the host address `dst`. -/
def poke (m : MemoryManager) (dst n : Word) (src : ℕ → Byte) : MemoryManager :=
  { m with host := fill m.host dst n.toNat src }

/-- `vaddr`, aligned down to the page boundary. -/
def page_vaddr (ph : ELFProgramHeader) : Word := ph.vaddr &&& ~~~4095#64

def page_offset (ph : ELFProgramHeader) : Word := ph.vaddr &&& 4095#64

def map_size (ph : ELFProgramHeader) : Word :=
  (page_offset ph + ph.memsz + 4095#64) &&& ~~~4095#64

/-- Copy segment data from ELF file. -/
def copy_segment (elf_data : List Byte) (mem : MemoryManager) (ph : ELFProgramHeader) :
    Option MemoryManager :=
  if 0#64 < ph.filesz then
    (bytes elf_data ph.offset ph.filesz).map (poke mem (page_vaddr ph + page_offset ph) ph.filesz)
  else some mem

/-- The body of the loop for a `PT_LOAD`. -/
def load_segment (host_ok : Word → Word → BitVec 32 → Bool) (elf_data : List Byte)
    (mem : MemoryManager) (ph : ELFProgramHeader) : Option (Bool × MemoryManager) :=
  let prot := prot_of ph.flags
  -- Map with write permission initially so we can copy data
  let load_prot := prot ||| PROT_WRITE
  let (mapped, mem) := mem.mmap host_ok (map_size ph) load_prot (page_vaddr ph)
  if mapped = 0#64 then some (false, mem)
  else do
    let mem ← copy_segment elf_data mem ph
    let mem := if ph.filesz < ph.memsz then
        poke mem (page_vaddr ph + page_offset ph + ph.filesz) (ph.memsz - ph.filesz) fun _ => 0#8
      else mem
    let mem := if 0#64 < page_offset ph then poke mem (page_vaddr ph) (page_offset ph) fun _ => 0#8
      else mem
    -- the host's `mprotect` succeeds
    let mem := if prot ≠ load_prot then (mem.mprotect 0#32 (page_vaddr ph) prot).2 else mem
    some (true, mem)

/-- `ELFLoader::load_segments`: the loop over `phdrs_`. -/
def load_segments (host_ok : Word → Word → BitVec 32 → Bool) (elf_data : List Byte)
    (mem : MemoryManager) : List ELFProgramHeader → Option (Bool × MemoryManager)
  | [] => some (true, mem)
  | ph :: phdrs =>
    if ph.type ≠ PT_LOAD then load_segments host_ok elf_data mem phdrs
    else do
      let (ok, mem) ← load_segment host_ok elf_data mem ph
      if ok then load_segments host_ok elf_data mem phdrs else some (false, mem)

end ELFLoader

end Bbarm64
