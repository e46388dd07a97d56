import Bbarm64.Lib.Trace
import Bbarm64.Syscall.Read

/-!
# Syscall.Stream — the streams of a process

A process reads and writes its descriptors by `handle_read` and `handle_write`, in any order and with
any use of its memory between the calls.  What the guest was told that it wrote is what the streams
got, byte by byte and in order; and what it got from the streams is what was taken from them exactly if
every read was granted (`streams_iff`).
-/

namespace Bbarm64

open X86

namespace SyscallHandler

/-- The `n` bytes at an address. -/
def bytes_at (m : Mem) (addr : Word) (n : ℕ) : List Byte :=
  (List.range n).map fun i => m (off addr i)

/-- The host's `write`: it fails, or it takes bytes from the start of the buffer, as the host pleases. -/
def host_write (answer : HostAnswer) (ready : Option ℕ) (buf : List Byte) : HostAnswer × List Byte :=
  match ready with
  | none => ({ answer with ret := -1#64 }, [])
  | some ready =>
    let n := min (min ready SSIZE_MAX) buf.length
    ({ answer with ret := BitVec.ofNat 64 n }, buf.take n)

/-- `handle_write` to a descriptor, and what its stream gets: nothing if `write` is not called. -/
def write_stream (answer : HostAnswer) (ready : Option ℕ) (ctx : CPUContext) (mem : MemoryManager) :
    Outcome × List Byte :=
  let buf := mem.read_bytes (ctx.x 1) (ctx.x 2)
  let (answer, sent) := host_write answer ready (buf.getD [])
  (handle_write answer ctx mem,
    if ctx.x 2 > stack_buf ∧ ¬ answer.malloc_ok then [] else if buf.isSome then sent else [])

/-! ## Runs -/

abbrev Fd := BitVec 32

/-- A process.  `delivered` is what the guest was given by the calls to `read`, and `accepted` what it
was told that `write` took. -/
structure Process where
  mem : MemoryManager
  input : Fd → List Byte
  output : Fd → List Byte
  delivered : Fd → List Byte
  accepted : Fd → List Byte

/-- A call with its registers, and what the host contributes; or anything that leaves the streams
alone. -/
inductive IoCall where
  | read (answer : HostAnswer) (ready : Option ℕ) (ctx : CPUContext)
  | write (answer : HostAnswer) (ready : Option ℕ) (ctx : CPUContext)
  | other (mem : MemoryManager)

/-- `static_cast<int>(ctx.x[0])` -/
def fd (ctx : CPUContext) : Fd := (ctx.x 0).setWidth 32

/-- The bytes at the buffer that a call with result `ret` is about. -/
def reported (ret : Word) (ctx : CPUContext) (mem : MemoryManager) : List Byte :=
  if 0 ≤ ret.toInt then bytes_at mem.host (ctx.x 1) ret.toNat else []

/-- More bytes for one of the streams. -/
def push (streams : Fd → List Byte) (fd : Fd) (bytes : List Byte) : Fd → List Byte :=
  Function.update streams fd (streams fd ++ bytes)

def Process.call (p : Process) : IoCall → Process
  | .read answer ready ctx =>
    let r := read_stream answer ready ctx p.mem (p.input (fd ctx))
    { p with
      mem := r.1.2.2
      input := Function.update p.input (fd ctx) r.2
      delivered := push p.delivered (fd ctx) (reported r.1.1 ctx r.1.2.2) }
  | .write answer ready ctx =>
    let r := write_stream answer ready ctx p.mem
    { p with
      mem := r.1.2.2
      output := push p.output (fd ctx) r.2
      accepted := push p.accepted (fd ctx) (reported r.1.1 ctx p.mem) }
  | .other mem => { p with mem }

/-- A process that has not read or written yet. -/
def start (mem : MemoryManager) (input output : Fd → List Byte) : Process where
  mem := mem
  input := input
  output := output
  delivered _ := []
  accepted _ := []

def IoRuns (mem : MemoryManager) (input output : Fd → List Byte) :
    List (Process × IoCall) → Process → Prop :=
  Trace (· = start mem input output) fun p call p' => p' = p.call call

/-- A read does not take bytes that the guest may not be given. -/
def Process.Grants (p : Process) : IoCall → Prop
  | .read answer ready ctx => ReadGranted answer ready ctx p.mem (p.input (fd ctx))
  | .write _ _ _ | .other _ => True

section Calls

variable {answer : HostAnswer} {ready : Option ℕ} {ctx : CPUContext} {mem : MemoryManager}
  {stream : List Byte}

/-- Bytes that were just put there. -/
theorem bytes_at_fill {m : Mem} {addr : Word} {n : ℕ} (hn : n < 2 ^ 64) (src : ℕ → Byte) :
    bytes_at (fill m addr n src) addr n = (List.range n).map src := by
  refine List.map_congr_left fun i hi => ?_
  have hi : i < n := List.mem_range.mp hi
  show (if (off addr i - addr).toNat < n then _ else _) = src i
  rw [off_sub_self (by omega), if_pos hi]

theorem map_getD_range {n : ℕ} (hn : n ≤ stream.length) :
    ((List.range n).map fun i => stream.getD i 0#8) = stream.take n := by
  refine List.ext_getElem? fun i => ?_
  rw [List.getElem?_map, List.getElem?_take]
  split_ifs with hi
  · have hlt : i < stream.length := by omega
    rw [List.getElem?_range hi, Option.map_some, List.getD_eq_getElem?_getD,
      List.getElem?_eq_getElem hlt]
    rfl
  · rw [List.getElem?_eq_none (by rw [List.length_range]; omega)]
    rfl

theorem reported_of_neg {ret : Word} (h : ¬ 0 ≤ ret.toInt) : reported ret ctx mem = [] := if_neg h

theorem reported_ofNat {n : ℕ} (hn : n < 2 ^ 63) :
    reported (BitVec.ofNat 64 n) ctx mem = bytes_at mem.host (ctx.x 1) n := by
  obtain ⟨hnat, hint, -⟩ := ret_taken hn
  rw [reported, hnat, hint, if_pos (Int.natCast_nonneg n)]

/-- **One read** gives the guest what it takes from the stream exactly if it is granted. -/
theorem read_stream_iff : reported (read_stream answer ready ctx mem stream).1.1 ctx
      (read_stream answer ready ctx mem stream).1.2.2 ++
        (read_stream answer ready ctx mem stream).2 = stream ↔
      ReadGranted answer ready ctx mem stream := by
  have hnomem : ¬ 0 ≤ (-ENOMEM).toInt := by decide
  have hfault : ¬ 0 ≤ (-EFAULT).toInt := by decide
  have hfail : ¬ 0 ≤ (-1#64).toInt := by decide
  unfold ReadGranted
  by_cases hbuf : ctx.x 2 > stack_buf ∧ ¬ answer.malloc_ok
  · rw [read_stream_no_buffer hbuf, reported_of_neg hnomem]
    exact iff_of_true rfl (.inl hbuf)
  rw [or_iff_right hbuf]
  cases ready with
  | none =>
    rw [read_stream_fails hbuf, reported_of_neg hfail]
    exact iff_of_true rfl fun r h => nomatch h
  | some r =>
    obtain ⟨n, hn⟩ : ∃ n, taken r (ctx.x 2) stream = n := ⟨_, rfl⟩
    have hlt : n < 2 ^ 63 := hn ▸ taken_lt r (ctx.x 2)
    have hle : n ≤ stream.length := hn ▸ taken_le_length r (ctx.x 2)
    simp only [Option.some.injEq, forall_eq', hn]
    rw [read_stream_takes hbuf hn]
    by_cases h0 : n = 0
    · rw [if_pos h0, h0]
      exact iff_of_true rfl (.inl rfl)
    rw [if_neg h0, or_iff_right h0]
    split_ifs with hperm
    · have hnat := (ret_taken hlt).1
      refine iff_of_true ?_ hperm
      rw [reported_ofNat hlt, hnat, bytes_at_fill (by omega), map_getD_range hle]
      exact List.take_append_drop n stream
    · refine iff_of_false (fun h => ?_) hperm
      rw [reported_of_neg hfault, List.nil_append] at h
      have hlen := congrArg List.length h
      rw [List.length_drop] at hlen
      omega

/-- **One write** gives the stream what it says. -/
theorem write_stream_sent : (write_stream answer ready ctx mem).2 =
    reported (write_stream answer ready ctx mem).1.1 ctx mem := by
  have hnomem : ¬ 0 ≤ (-ENOMEM).toInt := by decide
  have hfault : ¬ 0 ≤ (-EFAULT).toInt := by decide
  have hfail : ¬ 0 ≤ (-1#64).toInt := by decide
  unfold write_stream handle_write
  have hmalloc : ∀ buf, (host_write answer ready buf).1.malloc_ok = answer.malloc_ok := by
    intro buf
    cases ready <;> rfl
  dsimp only
  simp only [hmalloc]
  by_cases hbuf : ctx.x 2 > stack_buf ∧ ¬ answer.malloc_ok
  · rw [if_pos hbuf, if_pos hbuf]
    exact (reported_of_neg hnomem).symm
  rw [if_neg hbuf, if_neg hbuf]
  cases hread : mem.read_bytes (ctx.x 1) (ctx.x 2) with
  | none =>
    exact (reported_of_neg hfault).symm
  | some buf =>
    have hbytes : buf = bytes_at mem.host (ctx.x 1) (ctx.x 2).toNat := by
      unfold MemoryManager.read_bytes at hread
      split_ifs at hread
      exact (Option.some.inj hread).symm
    cases ready with
    | none => exact (reported_of_neg hfail).symm
    | some r =>
      have hlen : buf.length = (ctx.x 2).toNat := by
        rw [hbytes, bytes_at, List.length_map, List.length_range]
      have hlt : min (min r SSIZE_MAX) buf.length < 2 ^ 63 := by
        unfold SSIZE_MAX
        omega
      refine Eq.trans ?_ (reported_ofNat hlt).symm
      have hle : min (min r SSIZE_MAX) buf.length ≤ (ctx.x 2).toNat := by omega
      show buf.take (min (min r SSIZE_MAX) buf.length) = _
      generalize min (min r SSIZE_MAX) buf.length = n at hle
      rw [hbytes, bytes_at, ← List.map_take, List.take_range, Nat.min_eq_left hle]
      rfl

end Calls

section Runs

variable {mem : MemoryManager} {input output : Fd → List Byte} {p : Process}
  {es : List (Process × IoCall)}

/-- Nothing that was taken from a stream is missing. -/
def Process.Complete (input : Fd → List Byte) (p : Process) : Prop :=
  ∀ fd, p.delivered fd ++ p.input fd = input fd

theorem push_same (streams : Fd → List Byte) (fd : Fd) (bytes : List Byte) :
    push streams fd bytes fd = streams fd ++ bytes := Function.update_self ..

theorem push_of_ne (streams : Fd → List Byte) {k fd : Fd} (h : k ≠ fd) (bytes : List Byte) :
    push streams fd bytes k = streams k := Function.update_of_ne h ..

/-- Some bytes are taken from one stream, and some are given to the guest. -/
theorem complete_iff (h : p.Complete input) (fd : Fd) (bytes rest : List Byte) :
    (∀ k, push p.delivered fd bytes k ++ Function.update p.input fd rest k = input k) ↔
      bytes ++ rest = p.input fd := by
  constructor
  · intro h'
    have hk := h' fd
    rw [push_same, Function.update_self, List.append_assoc, ← h fd] at hk
    exact List.append_cancel_left hk
  · intro hsplit k
    by_cases hk : k = fd
    · rw [hk, push_same, Function.update_self, List.append_assoc, hsplit, h fd]
    · rw [push_of_ne _ hk, Function.update_of_ne hk, h k]

/-- **One call** keeps the deliveries complete exactly if it does not take bytes that the guest may not
be given. -/
theorem complete_call_iff (h : p.Complete input) (call : IoCall) :
    (p.call call).Complete input ↔ p.Grants call := by
  cases call with
  | read answer ready ctx => exact (complete_iff h (fd ctx) _ _).trans read_stream_iff
  | write answer ready ctx => exact iff_of_true h trivial
  | other mem => exact iff_of_true h trivial

/-- What the streams got is what the guest was told. -/
def Process.Honest (output : Fd → List Byte) (p : Process) : Prop :=
  ∀ fd, p.output fd = output fd ++ p.accepted fd

theorem honest_push (h : p.Honest output) (fd : Fd) {bytes told : List Byte} (he : bytes = told)
    (k : Fd) : push p.output fd bytes k = output k ++ push p.accepted fd told k := by
  rw [he]
  by_cases hk : k = fd
  · rw [hk, push_same, push_same, h fd, List.append_assoc]
  · rw [push_of_ne _ hk, push_of_ne _ hk, h k]

theorem honest_call (h : p.Honest output) (call : IoCall) : (p.call call).Honest output := by
  cases call with
  | read answer ready ctx => exact h
  | write answer ready ctx => exact honest_push h (fd ctx) write_stream_sent
  | other mem => exact h

/-- **Streams**: in every run of calls, in any order and over any descriptors, what the guest was given
from a stream and what is left of it are the stream, throughout, exactly if no read took bytes that the
guest may not be given; and a stream that is written got what the guest was told, byte by byte and in
order. -/
theorem streams_iff (h : IoRuns mem input output es p) :
    (Trace.Throughout (Process.Complete input) es p ↔ ∀ e ∈ es, e.1.Grants e.2) ∧
      Trace.Throughout (Process.Honest output) es p := by
  constructor
  · refine Trace.safe_iff (I := fun _ => True) (G := Process.Grants) ?_ (fun _ _ _ _ _ => trivial) ?_ h
    · rintro _ rfl
      exact ⟨trivial, fun _ => rfl⟩
    · rintro p call _ _ hp rfl
      exact complete_call_iff hp call
  · refine Trace.inv ?_ ?_ h
    · rintro _ rfl k
      exact (List.append_nil _).symm
    · rintro p call _ hp rfl
      exact honest_call hp call

theorem IoRuns.call (h : IoRuns mem input output es p) (call : IoCall) :
    IoRuns mem input output (es ++ [(p, call)]) (p.call call) := h.snoc rfl

/-- A page at 0x10000. -/
def io_mem : MemoryManager :=
  { MemoryManager.new (fun _ => 0#8) with
    regions_ := [{ addr := 0x10000#64, size := 0x1000#64, perms := PROT_READ ||| PROT_WRITE }] }

/-- The registers of a call for 16 bytes at 0x10000. -/
def io_ctx (fd : Word) : CPUContext :=
  ((CPUContext.zero.set_x 0 fd).set_x 1 0x10000#64).set_x 2 16#64

def io_answer : HostAnswer := ⟨0#64, fun _ => 0#8, fun _ _ _ => false, true, fun _ => 0#8⟩

/-- Two bytes come from descriptor 0, and they go to descriptor 1 with one more. -/
theorem streams_iff_copy : ∃ es p,
    IoRuns io_mem (fun _ => [1#8, 2#8, 3#8]) (fun _ => []) es p ∧
    es.map (·.2) = [.read io_answer (some 2) (io_ctx 0#64), .write io_answer (some 3) (io_ctx 1#64)] ∧
    (Trace.Throughout (Process.Complete fun _ => [1#8, 2#8, 3#8]) es p ↔ ∀ e ∈ es, e.1.Grants e.2) ∧
    p.output 1#32 = [] ++ p.accepted 1#32 := by
  have hnil : IoRuns io_mem (fun _ => [1#8, 2#8, 3#8]) (fun _ => []) [] _ := .nil rfl
  have hrun := (hnil.call (.read io_answer (some 2) (io_ctx 0#64))).call
    (.write io_answer (some 3) (io_ctx 1#64))
  exact ⟨_, _, hrun, rfl, (streams_iff hrun).1, (streams_iff hrun).2.2 1#32⟩

end Runs

end SyscallHandler

end Bbarm64
