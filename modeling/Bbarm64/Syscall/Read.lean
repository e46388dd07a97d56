import Bbarm64.Syscall.Handlers

/-!
# Syscall.Read — `handle_read` and the stream behind the descriptor

`handle_read` takes the bytes from the host first and asks `check_perms` afterwards, about as many bytes as
came.  A guest that gets `-EFAULT` has lost them: the call keeps its promise exactly if no byte is taken or
the guest may write where they go (`handle_read_exact_iff`).  `handle_write` asks first.
-/

namespace Bbarm64

open X86

namespace SyscallHandler

/-- `SSIZE_MAX` -/
def SSIZE_MAX : ℕ := 2 ^ 63 - 1

/-- As many bytes as `read(fd, buf, count)` takes from `stream`: at most `ready`, as the host pleases. -/
def taken (ready : ℕ) (count : Word) (stream : List Byte) : ℕ :=
  min (min ready SSIZE_MAX) (min count.toNat stream.length)

/-- The host's `read`: it fails, or it puts the next bytes into the buffer. -/
def host_read (answer : HostAnswer) (ready : Option ℕ) (count : Word) (stream : List Byte) :
    HostAnswer × List Byte :=
  match ready with
  | none => ({ answer with ret := -1#64 }, stream)
  | some ready =>
    let n := taken ready count stream
    ({ answer with ret := BitVec.ofNat 64 n, data := fun i => stream.getD i 0#8 }, stream.drop n)

/-- `handle_read` of a descriptor with `stream` behind it, and what is left of it: without a buffer,
`read` is not called. -/
def read_stream (answer : HostAnswer) (ready : Option ℕ) (ctx : CPUContext) (mem : MemoryManager)
    (stream : List Byte) : Outcome × List Byte :=
  let (answer, rest) := host_read answer ready (ctx.x 2) stream
  (handle_read answer ctx mem,
    if ctx.x 2 > stack_buf ∧ ¬ answer.malloc_ok then stream else rest)

/-- What a `read` of the guest may do: refuse the call and take nothing, or take what it delivers. -/
structure ReadExact (ctx : CPUContext) (mem : MemoryManager) (stream : List Byte)
    (o : Outcome × List Byte) : Prop where
  refused : o.1.1 = -EFAULT ∨ o.1.1 = -ENOMEM → o.2 = stream ∧ o.1.2.2.host = mem.host
  done : 0 ≤ o.1.1.toInt → o.1.1.toNat ≤ stream.length ∧ o.2 = stream.drop o.1.1.toNat ∧
    ∀ i < o.1.1.toNat, o.1.2.2.host (off (ctx.x 1) i) = stream.getD i 0#8

/-- The call is refused before the `read`, or no byte is taken, or the guest may write them. -/
def ReadGranted (answer : HostAnswer) (ready : Option ℕ) (ctx : CPUContext) (mem : MemoryManager)
    (stream : List Byte) : Prop :=
  ctx.x 2 > stack_buf ∧ ¬ answer.malloc_ok ∨
    ∀ r, ready = some r → taken r (ctx.x 2) stream = 0 ∨
      mem.check_perms (ctx.x 1) (BitVec.ofNat 64 (taken r (ctx.x 2) stream)) PROT_WRITE = true

section Read

variable {answer : HostAnswer} {ready : Option ℕ} {ctx : CPUContext} {mem : MemoryManager}
  {stream : List Byte}

theorem taken_lt (r : ℕ) (count : Word) : taken r count stream < 2 ^ 63 := by
  unfold taken SSIZE_MAX
  omega

theorem taken_le_length (r : ℕ) (count : Word) : taken r count stream ≤ stream.length := by
  unfold taken
  omega

/-- What `read` returns is not negative as an `ssize_t`. -/
theorem ret_taken {n : ℕ} (hn : n < 2 ^ 63) : (BitVec.ofNat 64 n).toNat = n ∧
    (BitVec.ofNat 64 n).toInt = n ∧ ((0#64).slt (BitVec.ofNat 64 n) = true ↔ n ≠ 0) := by
  have hnat : (BitVec.ofNat 64 n).toNat = n := by
    rw [BitVec.toNat_ofNat, Nat.mod_eq_of_lt (by omega)]
  have hint : (BitVec.ofNat 64 n).toInt = n := by
    rw [BitVec.toInt_eq_toNat_cond, hnat, if_pos (by omega)]
  refine ⟨hnat, hint, ?_⟩
  rw [BitVec.slt_iff_toInt_lt, hint, show (0#64).toInt = 0 by decide]
  omega

/-- A number of bytes is no error code. -/
theorem ret_taken_ne {n : ℕ} (hn : n < 2 ^ 63) :
    ¬ (BitVec.ofNat 64 n = -EFAULT ∨ BitVec.ofNat 64 n = -ENOMEM) := by
  have hnat := (ret_taken hn).1
  rintro (h | h)
  · rw [h, show (-EFAULT).toNat = 2 ^ 64 - 14 by decide] at hnat
    omega
  · rw [h, show (-ENOMEM).toNat = 2 ^ 64 - 12 by decide] at hnat
    omega

/-! ## The ways through the handler -/

theorem read_stream_no_buffer (hbuf : ctx.x 2 > stack_buf ∧ ¬ answer.malloc_ok) :
    read_stream answer ready ctx mem stream = ((-ENOMEM, ctx, mem), stream) := by
  unfold read_stream handle_read host_read
  cases ready with
  | none => exact Prod.ext (if_pos hbuf) (if_pos hbuf)
  | some r => exact Prod.ext (if_pos hbuf) (if_pos hbuf)

section Buffer

variable (hbuf : ¬ (ctx.x 2 > stack_buf ∧ ¬ answer.malloc_ok))
include hbuf

theorem read_stream_fails :
    read_stream answer none ctx mem stream = ((-1#64, ctx, mem), stream) := by
  unfold read_stream handle_read host_read
  exact Prod.ext (if_neg hbuf) (if_neg hbuf)

/-- With a buffer, the bytes leave the stream whether or not they reach the guest. -/
theorem read_stream_takes {r n : ℕ} (hn : taken r (ctx.x 2) stream = n) :
    read_stream answer (some r) ctx mem stream =
      (if n = 0 then (0#64, ctx, mem)
        else if mem.check_perms (ctx.x 1) (BitVec.ofNat 64 n) PROT_WRITE then
          (BitVec.ofNat 64 n, ctx, { mem with
            host := fill mem.host (ctx.x 1) (BitVec.ofNat 64 n).toNat fun i => stream.getD i 0#8 })
        else (-EFAULT, ctx, mem), stream.drop n) := by
  have hlt : n < 2 ^ 63 := hn ▸ taken_lt r (ctx.x 2)
  unfold read_stream handle_read host_read
  dsimp only
  rw [hn, if_neg hbuf, if_neg hbuf]
  refine Prod.ext ?_ rfl
  by_cases h0 : n = 0
  · subst h0
    rfl
  · dsimp only
    rw [if_pos ((ret_taken hlt).2.2.mpr h0), if_neg h0]
    unfold MemoryManager.write_bytes
    by_cases hperm : mem.check_perms (ctx.x 1) (BitVec.ofNat 64 n) PROT_WRITE = true
    · rw [if_pos hperm, if_pos hperm]
      rfl
    · rw [if_neg hperm, if_neg hperm]
      rfl

end Buffer

/-! ## The promise -/

/-- A refused call that took nothing. -/
theorem exact_refused {v : Word} (hv : ¬ 0 ≤ v.toInt) :
    ReadExact ctx mem stream ((v, ctx, mem), stream) :=
  ⟨fun _ => ⟨rfl, rfl⟩, fun h => absurd h hv⟩

/-- At the end of the stream, or for `count` 0. -/
theorem exact_none : ReadExact ctx mem stream ((0#64, ctx, mem), stream.drop 0) := by
  refine ⟨fun _ => ⟨rfl, rfl⟩, fun _ => ⟨Nat.zero_le _, rfl, fun i hi => ?_⟩⟩
  exact absurd hi (Nat.not_lt_zero i)

theorem exact_delivered {n : ℕ} (hlt : n < 2 ^ 63) (hle : n ≤ stream.length) :
    ReadExact ctx mem stream ((BitVec.ofNat 64 n, ctx, { mem with
      host := fill mem.host (ctx.x 1) (BitVec.ofNat 64 n).toNat fun i => stream.getD i 0#8 }),
        stream.drop n) := by
  obtain ⟨hnat, -, -⟩ := ret_taken hlt
  refine ⟨fun h => absurd h (ret_taken_ne hlt), fun _ => ?_⟩
  simp only [hnat]
  refine ⟨hle, trivial, fun i hi => ?_⟩
  unfold fill
  rw [off_sub_self (by omega), if_pos hi]

/-- Bytes that were taken and not delivered. -/
theorem not_exact_lost {n : ℕ} (hle : n ≤ stream.length) (h0 : n ≠ 0) :
    ¬ ReadExact ctx mem stream ((-EFAULT, ctx, mem), stream.drop n) := by
  intro h
  have hlen := congrArg List.length (h.refused (.inl rfl)).1
  rw [List.length_drop] at hlen
  omega

/-- **What `handle_read` promises** holds exactly if the call is refused before the `read`, no byte is
taken, or the guest may write the bytes. -/
theorem handle_read_exact_iff :
    ReadExact ctx mem stream (read_stream answer ready ctx mem stream) ↔
      ReadGranted answer ready ctx mem stream := by
  unfold ReadGranted
  by_cases hbuf : ctx.x 2 > stack_buf ∧ ¬ answer.malloc_ok
  · rw [read_stream_no_buffer hbuf]
    exact iff_of_true (exact_refused (by decide)) (.inl hbuf)
  rw [or_iff_right hbuf]
  cases ready with
  | none =>
    rw [read_stream_fails hbuf]
    exact iff_of_true (exact_refused (by decide)) fun r h => nomatch h
  | some r =>
    obtain ⟨n, hn⟩ : ∃ n, taken r (ctx.x 2) stream = n := ⟨_, rfl⟩
    have hlt : n < 2 ^ 63 := hn ▸ taken_lt r (ctx.x 2)
    have hle : n ≤ stream.length := hn ▸ taken_le_length r (ctx.x 2)
    simp only [Option.some.injEq, forall_eq', hn]
    rw [read_stream_takes hbuf hn]
    by_cases h0 : n = 0
    · rw [if_pos h0, h0]
      exact iff_of_true exact_none (.inl rfl)
    rw [if_neg h0, or_iff_right h0]
    split_ifs with hperm
    · exact iff_of_true (exact_delivered hlt hle) hperm
    · exact iff_of_false (not_exact_lost hle h0) hperm

end Read

/-- A guest that reads 3 bytes to an address at which nothing is mapped loses them. -/
theorem read_loses_bytes :
    let answer : HostAnswer := ⟨0#64, fun _ => 0#8, fun _ _ _ => false, true, fun _ => 0#8⟩
    let ctx := (CPUContext.zero.set_x 1 4096#64).set_x 2 3#64
    let mem := MemoryManager.new fun _ => 0#8
    (read_stream answer (some 3) ctx mem [1#8, 2#8, 3#8]).1.1 = -EFAULT ∧
    (read_stream answer (some 3) ctx mem [1#8, 2#8, 3#8]).2 = [] ∧
    ¬ ReadExact ctx mem [1#8, 2#8, 3#8] (read_stream answer (some 3) ctx mem [1#8, 2#8, 3#8]) := by
  intro answer ctx mem
  have hlost : (read_stream answer (some 3) ctx mem [1#8, 2#8, 3#8]).2 = [] := by
    decide
  have hfault : (read_stream answer (some 3) ctx mem [1#8, 2#8, 3#8]).1.1 = -EFAULT := by
    decide
  refine ⟨hfault, hlost, fun h => ?_⟩
  have hkept := (h.refused (.inl hfault)).1
  rw [hlost] at hkept
  exact nomatch hkept

end SyscallHandler

end Bbarm64
