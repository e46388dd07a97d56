import Bbarm64.Core.CPUContext
import Bbarm64.Core.MemoryManager
import Mathlib.Data.Int.Notation

/-!
# Syscall.Handlers — `SyscallHandler::execute`

A handler makes at most one call to the host, whose outcome is the argument `HostAnswer`.  Results
are `int64_t`; an `int` among them is sign-extended.
-/

namespace Bbarm64

open X86

/-- The outcome of the host call of a handler. -/
structure HostAnswer where
  /-- What the wrapper returned: an `int64_t`, or an `int` in the low half. -/
  ret : Word
  /-- Host memory behind the call. -/
  host : Mem
  /-- Whether `::mmap` at an address succeeds. -/
  mmap_ok : Word → Word → BitVec 32 → Bool
  /-- Whether `malloc(count)` gave a buffer. -/
  malloc_ok : Bool
  /-- What `read` put in the buffer. -/
  data : ℕ → Byte

namespace SyscallHandler

/-- The pairs of `syscall_table`, in order: the A64 number and the x86-64 number. -/
def syscall_table : List (ℕ × ℕ) := [
    (63, 0), (64, 1), (65, 19), (66, 20), (67, 17), (68, 18), (69, 295), (70, 296), (62, 8),
    (71, 40), (75, 278), (76, 275), (77, 276), (56, 3), (57, 3), (257, 257), (23, 32), (24, 292),
    (59, 293), (48, 72), (29, 16), (32, 73), (5, 5), (79, 262), (46, 77), (47, 285), (61, 78),
    (81, 162), (82, 74), (83, 75), (84, 277), (88, 280), (33, 259), (34, 258), (35, 263), (36, 266),
    (37, 265), (38, 264), (266, 267), (78, 267), (49, 80), (50, 81), (222, 9), (226, 10), (215, 11),
    (214, 12), (216, 25), (218, 28), (219, 26), (221, 27), (220, 56), (435, 435), (93, 60),
    (94, 231), (95, 247), (96, 218), (97, 272), (98, 202), (99, 273), (100, 300), (178, 186),
    (127, 62), (128, 200), (129, 200), (166, 156), (132, 131), (134, 13), (135, 14), (130, 128),
    (131, 129), (133, 130), (138, 132), (139, 15), (101, 35), (113, 228), (114, 229), (115, 230),
    (116, 232), (85, 283), (86, 286), (87, 287), (20, 294), (21, 233), (22, 22), (72, 270),
    (73, 23), (26, 294), (27, 254), (28, 255), (19, 290), (74, 289), (172, 39), (173, 110),
    (174, 102), (175, 105), (176, 104), (177, 107), (169, 115), (170, 116), (198, 41), (200, 49),
    (201, 50), (202, 43), (203, 42), (192, 46), (191, 47), (206, 44), (207, 45), (209, 54),
    (210, 55), (208, 51), (217, 248), (221, 27), (223, 29), (224, 30), (225, 31), (227, 32),
    (160, 158), (167, 157), (17, 79), (278, 318), (283, 324), (280, 321), (92, 135), (90, 125),
    (91, 126)]

def translate_syscall_nr (arm_nr : BitVec 32) : ℤ :=
  match syscall_table.find? fun entry => BitVec.ofNat 32 entry.1 = arm_nr with
  | some (_, x86_nr) => x86_nr
  | none => -1

def ENOMEM : Word := 12#64
def EFAULT : Word := 14#64
def ENOSYS : Word := 38#64

/-- The result, and the guest behind the call. -/
abbrev Outcome := Word × CPUContext × MemoryManager

section Handlers

variable (answer : HostAnswer) (ctx : CPUContext) (mem : MemoryManager)

/-- A call that is handed to the host as it is. -/
def forward : Outcome := (answer.ret, ctx, { mem with host := answer.host })

def handle_mmap : Outcome :=
  let (result, mem) := mem.mmap answer.mmap_ok (ctx.x 1) ((ctx.x 2).setWidth 32) (ctx.x 0)
  (if result = 0#64 then -ENOMEM else result, ctx, mem)

def handle_mprotect : Outcome :=
  let (result, mem) :=
    mem.mprotect (answer.ret.setWidth 32) (ctx.x 0) ((ctx.x 2).setWidth 32)
  (result.signExtend 64, ctx, mem)

def handle_munmap : Outcome :=
  let (result, mem) := mem.munmap (answer.ret.setWidth 32) answer.host (ctx.x 0) (ctx.x 1)
  (result.signExtend 64, ctx, mem)

def handle_brk : Outcome :=
  let new_brk := ctx.x 0
  if new_brk = 0#64 then (mem.get_brk, ctx, mem)
  else
    let (result, mem) := mem.set_brk new_brk
    (result.signExtend 64, ctx, mem)

/-- Invalidate any translated pages in the old region, then `SYS_mremap`. -/
def handle_mremap : Outcome := forward answer ctx mem.invalidate_translated_pages

/-- `handle_exit` and `handle_exit_group`. -/
def handle_exit : Outcome :=
  let ctx := ctx.set_exit_status ((ctx.x 0).setWidth 32)
  let ctx := ctx.set_state_flags (ctx.state_flags ||| CPUContext.STATE_EXITED)
  (ctx.exit_status.signExtend 64, ctx, mem)

/-- The size of the buffer on the stack. -/
def stack_buf : Word := 4096#64

def handle_write : Outcome :=
  let count := ctx.x 2
  if count > stack_buf ∧ ¬ answer.malloc_ok then (-ENOMEM, ctx, mem)
  else
    match mem.read_bytes (ctx.x 1) count with
    | none => (-EFAULT, ctx, mem)
    | some _ => (answer.ret, ctx, mem)

def handle_read : Outcome :=
  if ctx.x 2 > stack_buf ∧ ¬ answer.malloc_ok then (-ENOMEM, ctx, mem)
  else
    let result := answer.ret
    if (0#64).slt result then
      let (done, mem) := mem.write_bytes (ctx.x 1) result answer.data
      (if done then result else -EFAULT, ctx, mem)
    else (result, ctx, mem)

/-- `SyscallHandler::execute`.  The custom handlers that only convert their arguments and make the
host call (clone, clone3, futex, set_tid_address, set_robust_list, gettid, prctl, rt_sigreturn,
getrandom, preadv, pwritev, sendfile, splice) do what the pass-through does. -/
def execute : Outcome :=
  let arm_nr := (ctx.x 8).setWidth 32
  if translate_syscall_nr arm_nr < 0 then (-ENOSYS, ctx, mem)
  else if arm_nr = 63#32 then handle_read answer ctx mem
  else if arm_nr = 64#32 then handle_write answer ctx mem
  else if arm_nr = 222#32 then handle_mmap answer ctx mem
  else if arm_nr = 226#32 then handle_mprotect answer ctx mem
  else if arm_nr = 215#32 then handle_munmap answer ctx mem
  else if arm_nr = 214#32 then handle_brk ctx mem
  else if arm_nr = 216#32 then handle_mremap answer ctx mem
  else if arm_nr = 93#32 ∨ arm_nr = 94#32 then handle_exit ctx mem
  else forward answer ctx mem

/-! ## The context behind a call -/

/-- The number asks for `handle_exit` or `handle_exit_group`. -/
def is_exit (arm_nr : BitVec 32) : Prop := arm_nr = 93#32 ∨ arm_nr = 94#32

instance (arm_nr : BitVec 32) : Decidable (is_exit arm_nr) :=
  inferInstanceAs (Decidable (_ ∨ _))

/-- What the exit handlers make of the context. -/
def exit_ctx (ctx : CPUContext) : CPUContext :=
  let ctx := ctx.set_exit_status ((ctx.x 0).setWidth 32)
  ctx.set_state_flags (ctx.state_flags ||| CPUContext.STATE_EXITED)

theorem handle_read_ctx : (handle_read answer ctx mem).2.1 = ctx := by
  unfold handle_read
  dsimp only
  split_ifs <;> rfl

theorem handle_write_ctx : (handle_write answer ctx mem).2.1 = ctx := by
  unfold handle_write
  dsimp only
  split_ifs
  · rfl
  · cases mem.read_bytes (ctx.x 1) (ctx.x 2) <;> rfl

theorem handle_brk_ctx : (handle_brk ctx mem).2.1 = ctx := by
  unfold handle_brk
  dsimp only
  split_ifs <;> rfl

theorem ite_ctx {p : Prop} [Decidable p] {a b : Outcome} (ha : a.2.1 = ctx) (hb : b.2.1 = ctx) :
    (if p then a else b).2.1 = ctx := by
  split_ifs
  · exact ha
  · exact hb

theorem translate_exit : ∀ nr, is_exit nr → ¬ translate_syscall_nr nr < 0 := by
  rintro nr (rfl | rfl) <;> decide

/-- **Handlers leave the context alone**: only exit and exit_group change it. -/
theorem execute_ctx : (execute answer ctx mem).2.1 =
    if is_exit ((ctx.x 8).setWidth 32) then exit_ctx ctx else ctx := by
  unfold execute
  dsimp only
  generalize hnr : (ctx.x 8).setWidth 32 = nr
  by_cases hexit : is_exit nr
  · rw [if_pos hexit, if_neg (translate_exit nr hexit)]
    rcases hexit with rfl | rfl <;> rfl
  · rw [if_neg hexit]
    refine ite_ctx ctx rfl (ite_ctx ctx (handle_read_ctx answer ctx mem) ?_)
    refine ite_ctx ctx (handle_write_ctx answer ctx mem) (ite_ctx ctx rfl (ite_ctx ctx rfl ?_))
    refine ite_ctx ctx rfl (ite_ctx ctx (handle_brk_ctx ctx mem) (ite_ctx ctx rfl ?_))
    rw [if_neg (show ¬ (nr = 93#32 ∨ nr = 94#32) from hexit)]
    rfl

end Handlers

end SyscallHandler

end Bbarm64
