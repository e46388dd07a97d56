import Bbarm64.Elf.Loader

/-!
# Elf.DynLink — `DynLink`

The guest's pages are host memory, so `process_relocations` works on `Mem`.  Its scan of the dynamic section
ends at `DT_NULL` only: `rounds` bounds it, and `none` is a scan that needs more.  `load_library` reads the
file as `ELFLoader` does.
-/

namespace Bbarm64

open X86

/-! ## `elf.h` -/

def DT_NULL : Word := 0
def DT_STRTAB : Word := 5
def DT_SYMTAB : Word := 6
def DT_RELA : Word := 7
def DT_RELASZ : Word := 8
def DT_RELAENT : Word := 9
def DT_REL : Word := 17
def DT_RELSZ : Word := 18
def DT_RELENT : Word := 19

def R_AARCH64_RELATIVE : BitVec 32 := 1027

structure Elf64_Rela where
  r_offset : Word
  r_info : Word
  r_addend : Word
  deriving DecidableEq, Repr

structure Elf64_Rel where
  r_offset : Word
  r_info : Word

def ELF64_R_TYPE (info : Word) : BitVec 32 := info.setWidth 32

namespace DynLink

/-! ## `process_relocations` -/

/-- The locals that the scan of the dynamic section fills. -/
structure Tables where
  rel_addr : Word := 0#64
  rel_size : Word := 0#64
  rel_ent : Word := 0#64
  rela_addr : Word := 0#64
  rela_size : Word := 0#64
  rela_ent : Word := 0#64
  symtab : Word := 0#64
  strtab : Word := 0#64

/-- The `switch` over the tag. -/
def Tables.take (base_addr : Word) (t : Tables) (tag val : Word) : Tables :=
  if tag = DT_REL then { t with rel_addr := base_addr + val }
  else if tag = DT_RELSZ then { t with rel_size := val }
  else if tag = DT_RELENT then { t with rel_ent := val }
  else if tag = DT_RELA then { t with rela_addr := base_addr + val }
  else if tag = DT_RELASZ then { t with rela_size := val }
  else if tag = DT_RELAENT then { t with rela_ent := val }
  else if tag = DT_SYMTAB then { t with symtab := base_addr + val }
  else if tag = DT_STRTAB then { t with strtab := base_addr + val }
  else t

/-- Read dynamic section entries. -/
def read_dynamic (base_addr : Word) : ℕ → Mem → Word → Tables → Option Tables
  | 0, _, _, _ => none
  | rounds + 1, m, dyn, t =>
    if read64 m dyn = DT_NULL then some t
    else read_dynamic base_addr rounds m (dyn + 16#64)
      (t.take base_addr (read64 m dyn) (read64 m (dyn + 8#64)))

def rela_at (m : Mem) (a : Word) : Elf64_Rela :=
  ⟨read64 m a, read64 m (a + 8#64), read64 m (a + 16#64)⟩

def rel_at (m : Mem) (a : Word) : Elf64_Rel := ⟨read64 m a, read64 m (a + 8#64)⟩

/-- One entry: every type but RELATIVE is a stub. -/
def relocate_rela (base_addr : Word) (m : Mem) (rela : Elf64_Rela) : Mem :=
  if ELF64_R_TYPE rela.r_info = R_AARCH64_RELATIVE then
    writeN 8 m (base_addr + rela.r_offset) (base_addr + rela.r_addend)
  else m

/-- REL doesn't have addend, use existing value. -/
def relocate_rel (base_addr : Word) (m : Mem) (rel : Elf64_Rel) : Mem :=
  if ELF64_R_TYPE rel.r_info = R_AARCH64_RELATIVE then
    writeN 8 m (base_addr + rel.r_offset) (read64 m (base_addr + rel.r_offset) + base_addr)
  else m

/-- The loop over a table of `size / ent` entries. -/
def process_table (relocate : Mem → Word → Mem) (addr size ent : Word) (m : Mem) : Mem :=
  if addr ≠ 0#64 ∧ size ≠ 0#64 ∧ ent ≠ 0#64 then
    (List.range (size / ent).toNat).foldl (fun m i => relocate m (addr + BitVec.ofNat 64 i * ent)) m
  else m

/-- `DynLink::process_relocations`: what it returns, and the memory. -/
def process_relocations (rounds : ℕ) (m : Mem) (base_addr dynamic_addr : Word) : Option (Bool × Mem) :=
  (read_dynamic base_addr rounds m dynamic_addr {}).map fun t =>
    let m := process_table (fun m a => relocate_rela base_addr m (rela_at m a))
      t.rela_addr t.rela_size t.rela_ent m
    let m := process_table (fun m a => relocate_rel base_addr m (rel_at m a))
      t.rel_addr t.rel_size t.rel_ent m
    (true, m)

/-! ## `load_library` -/

structure LoadedLib where
  path : String
  base_addr : Word
  deriving DecidableEq, Repr

end DynLink

structure DynLink where
  mem_ : MemoryManager
  loaded_libs_ : List DynLink.LoadedLib := []

namespace DynLink

open ELFLoader (u32 u64 field bytes ehdr_at phdr_at phdr_offset prot_of poke page_offset map_size)

/-- A header of type `PT_LOAD`, up to `p_memsz`; the last field is not read. -/
def load_phdr (data : List Byte) (ehdr : Elf64_Ehdr) (i : ℕ) : Option (Option ELFProgramHeader) := do
  let type ← u32 data (phdr_offset ehdr i)
  if type = PT_LOAD then (field data 48 phdr_at (phdr_offset ehdr i)).map some else some none

/-- The body of the loop that finds the lowest vaddr. -/
def lower_vaddr (data : List Byte) (ehdr : Elf64_Ehdr) (min_vaddr : Word) (i : ℕ) : Option Word := do
  match ← load_phdr data ehdr i with
  | some phdr => some (if phdr.vaddr < min_vaddr then phdr.vaddr else min_vaddr)
  | none => some min_vaddr

/-- The address of the first page of a segment. -/
def page_vaddr (base_addr : Word) (phdr : ELFProgramHeader) : Word :=
  base_addr + ELFLoader.page_vaddr phdr

def copy_segment (data : List Byte) (dst : Word) (mem : MemoryManager) (phdr : ELFProgramHeader) :
    Option MemoryManager :=
  if 0#64 < phdr.filesz then (bytes data phdr.offset phdr.filesz).map (poke mem dst phdr.filesz)
  else some mem

/-- The body of the loop that maps the segments, for a `PT_LOAD`. -/
def map_segment (host_ok : Word → Word → BitVec 32 → Bool) (data : List Byte) (base_addr : Word)
    (mem : MemoryManager) (phdr : ELFProgramHeader) : Option (Bool × MemoryManager) :=
  let prot := prot_of phdr.flags
  let page_vaddr := page_vaddr base_addr phdr
  let (mapped, mem) := mem.mmap host_ok (map_size phdr) (prot ||| PROT_WRITE) page_vaddr
  if mapped = 0#64 then some (false, mem)
  else do
    let mem ← copy_segment data (page_vaddr + page_offset phdr) mem phdr
    let mem := if phdr.filesz < phdr.memsz then
        poke mem (page_vaddr + page_offset phdr + phdr.filesz) (phdr.memsz - phdr.filesz) fun _ => 0#8
      else mem
    -- the host's `mprotect` succeeds
    let mem := if prot ≠ prot ||| PROT_WRITE then (mem.mprotect 0#32 page_vaddr prot).2 else mem
    some (true, mem)

/-- Map segments. -/
def map_segments (host_ok : Word → Word → BitVec 32 → Bool) (data : List Byte) (ehdr : Elf64_Ehdr)
    (base_addr : Word) : MemoryManager → List ℕ → Option (Bool × MemoryManager)
  | mem, [] => some (true, mem)
  | mem, i :: is => do
    match ← load_phdr data ehdr i with
    | none => map_segments host_ok data ehdr base_addr mem is
    | some phdr => do
      let (ok, mem) ← map_segment host_ok data base_addr mem phdr
      if ok then map_segments host_ok data ehdr base_addr mem is else some (false, mem)

/-- The address of the first `PT_DYNAMIC`, or 0. -/
def find_dynamic (data : List Byte) (ehdr : Elf64_Ehdr) (base_addr : Word) : List ℕ → Option Word
  | [] => some 0#64
  | i :: is => do
    let type ← u32 data (phdr_offset ehdr i)
    if type = PT_DYNAMIC then do
      let vaddr ← u64 data (phdr_offset ehdr i + 16#64)
      some (base_addr + vaddr)
    else find_dynamic data ehdr base_addr is

/-- Process dynamic section for relocations. -/
def relocate (rounds : ℕ) (base_addr dynamic_addr : Word) (mem : MemoryManager) : Option MemoryManager :=
  if dynamic_addr ≠ 0#64 then
    (process_relocations rounds mem.host base_addr dynamic_addr).map fun r => { mem with host := r.2 }
  else some mem

/-- `DynLink::load_library`: what it returns, and the linker behind it.  `data` is the file, or `none` if
it cannot be opened and mapped. -/
def load_library (host_ok : Word → Word → BitVec 32 → Bool) (rounds : ℕ) (st : DynLink) (path : String)
    (data : Option (List Byte)) : Option (Bool × DynLink) :=
  match data with
  | none => some (false, st)
  | some data =>
    if data.length < sizeof_Elf64_Ehdr then some (false, st)
    else do
      let ehdr ← field data sizeof_Elf64_Ehdr ehdr_at 0#64
      -- Verify ELF
      if ehdr.e_ident EI_MAG0 ≠ 0x7F#8 ∨ ehdr.e_ident EI_MAG1 ≠ 0x45#8 ∨
          ehdr.e_ident EI_MAG2 ≠ 0x4C#8 ∨ ehdr.e_ident EI_MAG3 ≠ 0x46#8 then some (false, st)
      else if ehdr.e_machine ≠ EM_AARCH64 then some (false, st)
      else do
        let headers := List.range ehdr.e_phnum.toNat
        let min_vaddr ← headers.foldlM (lower_vaddr data ehdr) (BitVec.allOnes 64)
        let base_addr := min_vaddr &&& ~~~4095#64
        let (ok, mem) ← map_segments host_ok data ehdr base_addr st.mem_ headers
        if ok then do
          let dynamic_addr ← find_dynamic data ehdr base_addr headers
          let mem ← relocate rounds base_addr dynamic_addr mem
          some (true, { mem_ := mem, loaded_libs_ := st.loaded_libs_ ++ [⟨path, base_addr⟩] })
        else some (false, { st with mem_ := mem })

end DynLink

end Bbarm64
