import Bbarm64.Core.Bump
import Bbarm64.Syscall.Handlers

/-!
# Syscall.Errno — what a failed host call returns to the guest

The wrappers of the C library turn the kernel's error code into -1 and `errno`.  No handler reads `errno`:
the -1 goes to the guest as it is, and a refused `::mmap` becomes `-ENOMEM` whatever the reason.  So the
guest gets the error code exactly if it is the one that the handler returns anyway
(`returns_errno_iff`).
-/

namespace Bbarm64

open X86 MemoryManager

/-- The function of the host that a handler calls. -/
inductive HostCall where
  | syscall
  | read
  | write
  | gettid
  | mmap (addr size : Word) (prot : BitVec 32)
  | munmap
  | mprotect
  deriving DecidableEq, Repr

/-- What a wrapper makes of the kernel's result: the value, and `errno` if it sets it. -/
def libc (result : Word) : Word × Option ℕ :=
  if -4095 ≤ result.toInt ∧ result.toInt < 0 then (-1#64, some result.toInt.natAbs) else (result, none)

/-- What the kernel returns for an error. -/
def error (e : ℕ) : Word := -BitVec.ofNat 64 e

def MAP_FAILED : Word := -1#64

/-- The answer to `call` where the kernel's result is `result`. -/
def HostAnswer.OfKernel (answer : HostAnswer) (call : HostCall) (result : Word) : Prop :=
  match call with
  | .mmap addr size prot => answer.mmap_ok addr size prot = decide ((libc result).1 ≠ MAP_FAILED)
  | .munmap | .mprotect => answer.ret.setWidth 32 = (libc result).1.setWidth 32
  | .syscall | .read | .write | .gettid => answer.ret = (libc result).1

namespace SyscallHandler

/-- The call that `execute` makes.  `malloc` and the guest's buffer come before it. -/
def host_call (answer : HostAnswer) (ctx : CPUContext) (mem : MemoryManager) : Option HostCall :=
  let arm_nr := (ctx.x 8).setWidth 32
  let no_buffer := ctx.x 2 > stack_buf ∧ ¬ answer.malloc_ok
  if translate_syscall_nr arm_nr < 0 then none
  else if arm_nr = 63#32 then if no_buffer then none else some .read
  else if arm_nr = 64#32 then
    if no_buffer then none
    else if (mem.read_bytes (ctx.x 1) (ctx.x 2)).isNone then none else some .write
  else if arm_nr = 222#32 then
    let addr := mem.mmap_addr (ctx.x 0)
    if addr = 0#64 then none else some (.mmap addr (page_align (ctx.x 1)) ((ctx.x 2).setWidth 32))
  else if arm_nr = 226#32 then some .mprotect
  else if arm_nr = 215#32 then some .munmap
  else if arm_nr = 214#32 then none
  else if is_exit arm_nr then none
  else if arm_nr = 178#32 then some .gettid
  else some .syscall

/-- What the handlers return for a failed call. -/
def failed_result : HostCall → Word
  | .mmap _ _ _ => -ENOMEM
  | .syscall | .read | .write | .gettid | .munmap | .mprotect => -1#64

/-- The error code is the one that the handler returns in any case: EPERM, or ENOMEM of `::mmap`. -/
def ErrnoKept (call : HostCall) (e : ℕ) : Prop :=
  match call with
  | .mmap _ _ _ => e = 12
  | .syscall | .read | .write | .gettid | .munmap | .mprotect => e = 1

section Errno

variable {answer : HostAnswer} {ctx : CPUContext} {mem : MemoryManager} {call : HostCall} {e : ℕ}

theorem error_toNat (he : 1 ≤ e ∧ e ≤ 4095) : (error e).toNat = 2 ^ 64 - e := by
  rw [error, BitVec.toNat_neg, BitVec.toNat_ofNat]
  omega

theorem libc_error (he : 1 ≤ e ∧ e ≤ 4095) : libc (error e) = (-1#64, some e) := by
  have hint : (error e).toInt = -(e : ℤ) := by
    rw [BitVec.toInt_eq_toNat_cond, error_toNat he]
    split_ifs <;> omega
  unfold libc
  rw [hint, if_pos ⟨by omega, by omega⟩, Int.natAbs_neg, Int.natAbs_natCast]

/-- `::mmap` is refused if the wrapper gives `MAP_FAILED`. -/
theorem handle_mmap_failed
    (hok : answer.mmap_ok (mem.mmap_addr (ctx.x 0)) (page_align (ctx.x 1))
      ((ctx.x 2).setWidth 32) = false) : (handle_mmap answer ctx mem).1 = -ENOMEM := by
  have hrefused : ¬ mem.Maps answer.mmap_ok (ctx.x 1) ((ctx.x 2).setWidth 32) (ctx.x 0) := by
    rintro ⟨-, hmaps⟩
    rw [hok] at hmaps
    exact absurd hmaps (by decide)
  unfold handle_mmap
  exact if_pos (mmap_eq_zero_iff.mpr hrefused)

theorem handle_read_failed (hbuf : ¬ (ctx.x 2 > stack_buf ∧ ¬ answer.malloc_ok))
    (hret : answer.ret = -1#64) : (handle_read answer ctx mem).1 = -1#64 := by
  unfold handle_read
  rw [if_neg hbuf, hret]
  rfl

theorem handle_write_failed (hbuf : ¬ (ctx.x 2 > stack_buf ∧ ¬ answer.malloc_ok))
    (hbytes : ¬ (mem.read_bytes (ctx.x 1) (ctx.x 2)).isNone) (hret : answer.ret = -1#64) :
    (handle_write answer ctx mem).1 = -1#64 := by
  unfold handle_write
  rw [if_neg hbuf]
  cases hread : mem.read_bytes (ctx.x 1) (ctx.x 2) with
  | none => exact absurd (by rw [hread]; rfl) hbytes
  | some bytes => exact hret

/-- An `int` -1 is sign-extended. -/
theorem handle_int_failed (hret : answer.ret.setWidth 32 = (-1#64).setWidth 32) :
    (answer.ret.setWidth 32).signExtend 64 = -1#64 := by
  rw [hret]
  decide

/-- **A failed call**, whichever handler makes it and whatever the reason. -/
theorem execute_failed (hcall : host_call answer ctx mem = some call) (he : 1 ≤ e ∧ e ≤ 4095)
    (hk : answer.OfKernel call (error e)) : (execute answer ctx mem).1 = failed_result call := by
  unfold HostAnswer.OfKernel at hk
  rw [libc_error he] at hk
  unfold host_call at hcall
  unfold execute
  dsimp only at hcall ⊢
  generalize (ctx.x 8).setWidth 32 = nr at hcall ⊢
  by_cases hnr : translate_syscall_nr nr < 0
  · rw [if_pos hnr] at hcall
    exact nomatch hcall
  rw [if_neg hnr] at hcall ⊢
  by_cases hread : nr = 63#32
  · rw [if_pos hread] at hcall ⊢
    split_ifs at hcall with hbuf
    cases hcall
    exact handle_read_failed hbuf hk
  rw [if_neg hread] at hcall ⊢
  by_cases hwrite : nr = 64#32
  · rw [if_pos hwrite] at hcall ⊢
    split_ifs at hcall with hbuf hbytes
    cases hcall
    exact handle_write_failed hbuf hbytes hk
  rw [if_neg hwrite] at hcall ⊢
  by_cases hmmap : nr = 222#32
  · rw [if_pos hmmap] at hcall ⊢
    split_ifs at hcall with haddr
    cases hcall
    exact handle_mmap_failed (hk.trans rfl)
  rw [if_neg hmmap] at hcall ⊢
  by_cases hprotect : nr = 226#32
  · rw [if_pos hprotect] at hcall ⊢
    cases hcall
    exact handle_int_failed hk
  rw [if_neg hprotect] at hcall ⊢
  by_cases hunmap : nr = 215#32
  · rw [if_pos hunmap] at hcall ⊢
    cases hcall
    exact handle_int_failed hk
  rw [if_neg hunmap] at hcall ⊢
  by_cases hbrk : nr = 214#32
  · rw [if_pos hbrk] at hcall
    exact nomatch hcall
  rw [if_neg hbrk] at hcall ⊢
  by_cases hexit : is_exit nr
  · rw [if_pos hexit] at hcall
    exact nomatch hcall
  rw [if_neg hexit] at hcall
  -- What is left is the pass-through, `SYS_mremap` and `gettid`, which return the answer.
  have hforward : call = .gettid ∨ call = .syscall := by
    split_ifs at hcall with hgettid
    · exact .inl (Option.some.inj hcall).symm
    · exact .inr (Option.some.inj hcall).symm
  have hret : answer.ret = -1#64 := by
    rcases hforward with rfl | rfl <;> exact hk
  have hresult : failed_result call = -1#64 := by
    rcases hforward with rfl | rfl <;> rfl
  rw [hresult, if_neg (show ¬ (nr = 93#32 ∨ nr = 94#32) from hexit)]
  split_ifs
  · exact hret
  · exact hret

/-- **A failed host call** gives the guest the error code exactly if it is EPERM, or ENOMEM from
`::mmap`. -/
theorem returns_errno_iff (hcall : host_call answer ctx mem = some call) (he : 1 ≤ e ∧ e ≤ 4095)
    (hk : answer.OfKernel call (error e)) :
    (execute answer ctx mem).1 = error e ↔ ErrnoKept call e := by
  have herror : ∀ k, 1 ≤ k ∧ k ≤ 4095 → (error k = error e ↔ e = k) := by
    intro k hk
    rw [← BitVec.toNat_inj, error_toNat hk, error_toNat he]
    omega
  rw [execute_failed hcall he hk]
  cases call with
  | mmap addr size prot => exact herror 12 (by decide)
  | syscall | read | write | gettid | munmap | mprotect => exact herror 1 (by decide)

end Errno

/-! ## Instances -/

/-- A guest that asks for the call `nr`, its other registers 0. -/
def asking (nr : Word) : CPUContext := CPUContext.zero.set_x 8 nr

/-- A host that answers each call with the wrapper's -1. -/
def refusing : HostAnswer := ⟨-1#64, fun _ => 0#8, fun _ _ _ => false, true, fun _ => 0#8⟩

/-- `lseek`, which the guest has as number 62, with the EPERM that it gets anyway. -/
theorem returns_errno_iff_lseek :
    (execute refusing (asking 62#64) fresh).1 = error 1 ↔ ErrnoKept .syscall 1 :=
  returns_errno_iff (by decide) (by decide) (show refusing.ret = (libc (error 1)).1 by decide)

/-- A `read` of a closed file descriptor fails with EBADF, and the guest gets EPERM. -/
theorem read_loses_errno : host_call refusing (asking 63#64) fresh = some .read ∧
    refusing.OfKernel .read (error 9) ∧ (execute refusing (asking 63#64) fresh).1 ≠ error 9 := by
  refine ⟨by decide, ?_, by decide⟩
  show refusing.ret = (libc (error 9)).1
  decide

end SyscallHandler

end Bbarm64
