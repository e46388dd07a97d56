import Bbarm64.X86.Memory

/-!
# Core.MemoryManager — guest memory

Guest addresses are host addresses: `host` is the memory of the process, and the manager only
records which ranges were mapped with which permissions.  Every accessor asks `check_perms` first,
except `read_u32`, which dereferences the address as it is.

The mapping functions call the host kernel, whose answers are arguments here: whether `::mmap` at
the fixed address succeeded, what `::munmap` and `::mprotect` returned, and the memory `::munmap`
left.
-/

namespace Bbarm64

open X86

def PROT_READ : BitVec 32 := 1
def PROT_WRITE : BitVec 32 := 2
def PROT_EXEC : BitVec 32 := 4

def PAGE_MASK : Word := ~~~0xFFF#64

structure MemRegion where
  addr : Word
  size : Word
  perms : BitVec 32
  is_translated : Bool := false
  deriving DecidableEq, Repr

structure MemoryManager where
  brk_ : Word := 0#64
  mmap_base_ : Word := 0#64
  regions_ : List MemRegion
  translated_pages_ : List Word
  host : Mem

namespace MemoryManager

/-- `MemoryManager()`, in a process with memory `host`. -/
def new (host : Mem) : MemoryManager where
  regions_ := []
  translated_pages_ := []
  host := host

/-- `init(total_size)`, when `::mmap` gave `base`. -/
def init (host : Mem) (base total_size : Word) : MemoryManager :=
  let mmap_base_ := base + total_size / 2#64
  { new host with mmap_base_, brk_ := mmap_base_ }

/-- The first region that contains `[addr, addr + len)` decides; sums wrap as `uint64_t` sums. -/
def check_perms_in (addr len : Word) (needed : BitVec 32) : List MemRegion → Bool
  | [] => false
  | region :: rest =>
    if region.addr ≤ addr ∧ addr + len ≤ region.addr + region.size then
      -- EXEC pages are always readable for instruction fetch
      if needed = PROT_READ ∧ region.perms &&& PROT_EXEC ≠ 0 then true
      else region.perms &&& needed = needed
    else check_perms_in addr len needed rest

def check_perms (m : MemoryManager) (addr len : Word) (needed : BitVec 32) : Bool :=
  check_perms_in addr len needed m.regions_

def read_u8 (m : MemoryManager) (addr : Word) : Option Byte :=
  if m.check_perms addr 1 PROT_READ then some (m.host addr) else none

def read_u16 (m : MemoryManager) (addr : Word) : Option (BitVec 16) :=
  if m.check_perms addr 2 PROT_READ then some (read16 m.host addr) else none

/-- No permission check: "guest virtual address maps 1:1 to host virtual address". -/
def read_u32 (m : MemoryManager) (addr : Word) : Option (BitVec 32) := some (read32 m.host addr)

def read_u64 (m : MemoryManager) (addr : Word) : Option (BitVec 64) :=
  if m.check_perms addr 8 PROT_READ then some (read64 m.host addr) else none

/-- `write_u8` .. `write_u64`: the result and the memory after a store of the low `k` bytes. -/
def write_u {n : ℕ} (k : ℕ) (m : MemoryManager) (addr : Word) (val : BitVec n) :
    Bool × MemoryManager :=
  if m.check_perms addr (BitVec.ofNat 64 k) PROT_WRITE then
    (true, { m with host := writeN k m.host addr val })
  else (false, m)

def write_u8 (m : MemoryManager) (addr : Word) (val : BitVec 8) : Bool × MemoryManager :=
  m.write_u 1 addr val

def write_u16 (m : MemoryManager) (addr : Word) (val : BitVec 16) : Bool × MemoryManager :=
  m.write_u 2 addr val

def write_u32 (m : MemoryManager) (addr : Word) (val : BitVec 32) : Bool × MemoryManager :=
  m.write_u 4 addr val

def write_u64 (m : MemoryManager) (addr : Word) (val : BitVec 64) : Bool × MemoryManager :=
  m.write_u 8 addr val

def is_translated_page (m : MemoryManager) (addr : Word) : Bool :=
  let page := addr &&& PAGE_MASK
  m.translated_pages_.any (· = page)

def mark_translated_page (m : MemoryManager) (addr : Word) : MemoryManager :=
  let page := addr &&& PAGE_MASK
  if page ∈ m.translated_pages_ then m
  else { m with translated_pages_ := m.translated_pages_ ++ [page] }

def invalidate_translated_pages (m : MemoryManager) : MemoryManager :=
  { m with translated_pages_ := [] }

/-! ## Byte ranges -/

/-- The bytes that `read_bytes` copies out. -/
def read_bytes (m : MemoryManager) (addr len : Word) : Option (List Byte) :=
  if m.check_perms addr len PROT_READ then
    some ((List.range len.toNat).map fun i => m.host (off addr i))
  else none

/-- `write_bytes` of `len` bytes, byte `i` being `src i`. -/
def write_bytes (m : MemoryManager) (addr len : Word) (src : ℕ → Byte) : Bool × MemoryManager :=
  if m.check_perms addr len PROT_WRITE then (true, { m with host := fill m.host addr len.toNat src })
  else (false, m)

/-! ## Mapping -/

/-- `(size + PAGE_SIZE - 1) & ~(PAGE_SIZE - 1)` -/
def page_align (size : Word) : Word := (size + 0xFFF#64) &&& PAGE_MASK

/-- The address, and the manager behind it: without a hint, the bump pointer moves. -/
def find_free_region (m : MemoryManager) (size hint : Word) : Word × MemoryManager :=
  if hint ≠ 0#64 then (hint, m) else (m.mmap_base_, { m with mmap_base_ := m.mmap_base_ + size })

/-- `host_ok` says for an address, a size and a protection whether `::mmap` there succeeds, and then
it gives zero pages.  The result is the address, or 0. -/
def mmap (host_ok : Word → Word → BitVec 32 → Bool) (m : MemoryManager) (size : Word)
    (prot : BitVec 32) (hint_addr : Word) : Word × MemoryManager :=
  let size := page_align size
  let (addr, m) := if hint_addr ≠ 0#64 then (hint_addr, m) else m.find_free_region size 0#64
  if addr = 0#64 then (0#64, m)
  else if host_ok addr size prot then
    (addr, { m with host := fill m.host addr size.toNat fun _ => 0#8
                    regions_ := m.regions_ ++ [{ addr, size, perms := prot }] })
  else (0#64, m)

/-- `it->addr >= addr && it->addr < addr + size` -/
def starts_in (addr size : Word) (region : MemRegion) : Bool :=
  addr ≤ region.addr ∧ region.addr < addr + size

/-- `ret` and `host` are what `::munmap` returns and leaves. -/
def munmap (ret : BitVec 32) (host : Mem) (m : MemoryManager) (addr size : Word) :
    BitVec 32 × MemoryManager :=
  let size := page_align size
  -- Check for translated pages and invalidate
  let m := if m.regions_.any fun region => starts_in addr size region && region.is_translated then
    m.invalidate_translated_pages else m
  (ret, { m with regions_ := m.regions_.filter fun region => !starts_in addr size region
                 host := host })

/-- The first region that starts at `addr` takes the permissions. -/
def set_perms (addr : Word) (prot : BitVec 32) : List MemRegion → List MemRegion
  | [] => []
  | region :: rest =>
    if region.addr = addr then { region with perms := prot } :: rest
    else region :: set_perms addr prot rest

/-- `ret` is what `::mprotect` returns; the contents of the pages stay. -/
def mprotect (ret : BitVec 32) (m : MemoryManager) (addr : Word) (prot : BitVec 32) :
    BitVec 32 × MemoryManager :=
  (ret, { m with regions_ := set_perms addr prot m.regions_ })

def get_brk (m : MemoryManager) : Word := m.brk_

def set_brk (m : MemoryManager) (new_brk : Word) : BitVec 32 × MemoryManager :=
  if new_brk < m.mmap_base_ then (-1#32, m) else (0#32, { m with brk_ := new_brk })

@[simp] theorem mark_translated_page_host (m : MemoryManager) (addr : Word) :
    (m.mark_translated_page addr).host = m.host := by
  unfold mark_translated_page
  dsimp only
  split_ifs <;> rfl

end MemoryManager

end Bbarm64
