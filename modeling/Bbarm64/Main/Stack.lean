import Bbarm64.Core.CPUContext
import Bbarm64.Core.Regions

/-!
# Main.Stack — the process stack that `main` builds for the guest

`main` writes the auxiliary vector, an empty environment, the argument vector and the argument count
downwards from the top of a fresh 2 MB mapping.  The two copies of `argv[1]` go 64 bytes below the
stack pointer, which does not move for them, so that the later pushes run through the same bytes.
The guest finds the Linux process stack exactly if there is no argument behind the program, the path
has at most 15 characters and the top page of the stack is writable (`process_stack_iff`).
-/

namespace Bbarm64

open X86

/-- The bytes of a C string before its terminator. -/
abbrev CString := {s : List Byte // 0#8 ∉ s}

namespace Main

/-! ## The pushes -/

/-- A `write_u64` of a number or of an address, or the loop that copies a string. -/
inductive Push where
  | u64 (addr val : Word)
  | ptr (addr val : Word)
  | str (addr : Word) (s : CString)

/-- `strlen(s) + 1` bytes, but at most 64. -/
def copied (s : CString) : List Byte := (s.val ++ [0#8]).take 64

namespace Push

def addr : Push → Word
  | .u64 addr _ | .ptr addr _ | .str addr _ => addr

/-- The bytes from `addr` on. -/
def bytes : Push → List Byte
  | .u64 _ val | .ptr _ val => le64 val
  | .str _ s => copied s

def run (m : MemoryManager) : Push → MemoryManager
  | .u64 addr val | .ptr addr val => (m.write_u64 addr val).2
  | .str addr s =>
    (List.range (copied s).length).foldl
      (fun m i => (m.write_u8 (off addr i) ((copied s).getD i 0#8)).2) m

end Push

/-- 2 MB -/
def stack_size : Word := 2 * 1024 * 1024

structure GuestStack where
  pushes : List Push
  auxv_start : Word
  sp : Word

/-- The pushes of `main`, in order, and where they end. -/
def guest_stack (stack_base : Word) (elf_info : ELFInfo) (tls_block_addr : Word) (argv1 : CString) :
    GuestStack :=
  let sp := stack_base + stack_size
  let sp := sp &&& ~~~0xF#64 -- 16-byte align
  -- AT_NULL terminator
  let sp := sp - 16#64
  let pushes : List Push := [.u64 sp 0#64, .u64 (sp + 8#64) 0#64]
  -- AT_RANDOM
  let sp := sp - 16#64
  let random_addr := sp - 16#64
  let pushes := pushes ++ [.u64 sp 25#64, .ptr (sp + 8#64) random_addr]
  let sp := sp - 16#64
  let pushes := pushes ++ [.u64 sp 0#64, .u64 (sp + 8#64) 0#64]
  -- AT_PHNUM
  let sp := sp - 16#64
  let pushes := pushes ++ [.u64 sp 5#64, .u64 (sp + 8#64) (elf_info.phnum.setWidth 64)]
  -- AT_PHDR
  let sp := sp - 16#64
  let pushes := pushes ++
    [.u64 sp 3#64, .ptr (sp + 8#64) (elf_info.base_addr + elf_info.phdr_offset)]
  -- AT_ENTRY
  let sp := sp - 16#64
  let pushes := pushes ++ [.u64 sp 9#64, .ptr (sp + 8#64) elf_info.entry_point]
  -- AT_HWCAP
  let sp := sp - 16#64
  let pushes := pushes ++ [.u64 sp 16#64, .u64 (sp + 8#64) 0xFFF#64]
  -- AT_PAGESZ
  let sp := sp - 16#64
  let pushes := pushes ++ [.u64 sp 6#64, .u64 (sp + 8#64) 4096#64]
  -- AT_SECURE
  let sp := sp - 16#64
  let pushes := pushes ++ [.u64 sp 23#64, .u64 (sp + 8#64) 0#64]
  -- AT_EXECFN
  let sp := sp - 16#64
  let execfn_addr := sp - 64#64
  let pushes := pushes ++
    [.u64 sp 31#64, .str execfn_addr argv1, .ptr (sp + 8#64) execfn_addr]
  -- AT_TLS (for dynamic binaries)
  let (sp, pushes) :=
    if tls_block_addr ≠ 0#64 then
      let sp := sp - 16#64
      (sp, pushes ++ [.u64 sp 23#64, .ptr (sp + 8#64) tls_block_addr])
    else (sp, pushes)
  let auxv_start := sp
  -- envp: NULL terminator
  let sp := sp - 8#64
  let pushes := pushes ++ [.ptr sp 0#64]
  -- argv: NULL terminator
  let sp := sp - 8#64
  let pushes := pushes ++ [.ptr sp 0#64]
  -- argv[0] string and pointer
  let argv0_addr := sp - 64#64
  let pushes := pushes ++ [.str argv0_addr argv1]
  let sp := sp - 8#64
  let pushes := pushes ++ [.ptr sp argv0_addr]
  -- argc = 1
  let sp := sp - 8#64
  let pushes := pushes ++ [.u64 sp 1#64]
  -- Align stack to 16 bytes
  let sp := sp &&& ~~~0xF#64
  { pushes, auxv_start, sp }

/-- What `engine.run` starts on, and the pushes that led there. -/
structure GuestEntry where
  ctx : CPUContext
  mem : MemoryManager
  pushes : List Push

/-- `main` from the loaded program to `engine.run(ctx.pc)`; `none` where it returns 1. -/
def main (host_ok : Word → Word → BitVec 32 → Bool) (ctx : CPUContext) (mem : MemoryManager)
    (elf_info : ELFInfo) (tls_block_addr : Word) (argv : List CString) : Option GuestEntry :=
  match argv with
  | _ :: argv1 :: _ =>
    let ctx := ctx.set_pc elf_info.entry_point
    let (stack_base, mem) := mem.mmap host_ok stack_size (PROT_READ ||| PROT_WRITE) 0#64
    if stack_base = 0#64 then none
    else
      let stack := guest_stack stack_base elf_info tls_block_addr argv1
      let mem := stack.pushes.foldl Push.run mem
      let ctx := (ctx.set 31 stack.sp).set 33 0#64
      some { ctx := ctx.set_x 0 stack.auxv_start, mem, pushes := stack.pushes }
  | _ => none

/-! ## The Linux process stack -/

/-- A NUL-terminated copy of `s` at `a`. -/
def CopyAt (m : Mem) (a : Word) (s : CString) : Prop :=
  (∀ i (h : i < s.val.length), m (off a i) = s.val[i]) ∧ m (off a s.val.length) = 0#8

/-- The entry of the auxiliary vector `auxv` with type `type` has the value `val`; the vector ends at
type 0. -/
def AuxEntry (m : Mem) (auxv : Word) (type val : Word) : Prop :=
  ∃ k, (∀ i < k, word m auxv (16 * i) ≠ 0#64 ∧ word m auxv (16 * i) ≠ type) ∧
    word m auxv (16 * k) = type ∧ word m auxv (16 * k + 8) = val

/-- The memory at `sp`: the argument count, pointers to the arguments and NULL, NULL for an empty
environment, and an auxiliary vector that names the program. -/
structure ProcessStack (m : Mem) (sp : Word) (args : List CString) (execfn : CString) : Prop where
  argc : (word m sp 0).toNat = args.length
  argv : ∀ i (h : i < args.length), CopyAt m (word m sp (8 * (i + 1))) args[i]
  argv_null : word m sp (8 * (args.length + 1)) = 0#64
  envp_null : word m sp (8 * (args.length + 2)) = 0#64
  at_execfn : ∃ val, AuxEntry m (off sp (8 * (args.length + 3))) 31#64 val ∧ CopyAt m val execfn

/-- The push is one of a string or an address. -/
def Push.IsObject : Push → Prop
  | .u64 _ _ => False
  | .ptr _ _ | .str _ _ => True

/-- The bytes a push goes to. -/
def Push.dom (p : Push) : Set Word := {a | (a - p.addr).toNat < p.bytes.length}

/-- No later push goes to the bytes of an earlier string or pointer. -/
def NoOverwrite (pushes : List Push) : Prop :=
  pushes.Pairwise fun p q => p.IsObject → Disjoint p.dom q.dom

end Main

end Bbarm64
