import Bbarm64.Core.Regions
import Bbarm64.Syscall.Handlers

/-!
# Syscall.Brk — what a `brk` request returns

`handle_brk` hands back what `set_brk` returns, 0 or -1, where the Linux call returns the break in
force.  Only a request of 0 asks `get_brk`.  So a request is answered as by Linux exactly if it is 0, or
it is refused while the break happens to be -1 (`brk_answers_iff`).
-/

namespace Bbarm64

open X86 MemoryManager

namespace SyscallHandler

/-- The request returns the break in force behind it: the address asked for if `set_brk` accepts it, as a
following request of 0 does too, and the unchanged break if it is 0 or refused. -/
structure AnswersBrk (ctx : CPUContext) (mem : MemoryManager) : Prop where
  in_force : (handle_brk ctx mem).1 = (handle_brk ctx mem).2.2.get_brk
  accepted : ctx.x 0 ≠ 0#64 → (mem.set_brk (ctx.x 0)).1 = 0#32 → (handle_brk ctx mem).1 = ctx.x 0 ∧
    ∀ ctx' : CPUContext, ctx'.x 0 = 0#64 → (handle_brk ctx' (handle_brk ctx mem).2.2).1 = ctx.x 0
  unchanged : ctx.x 0 = 0#64 ∨ (mem.set_brk (ctx.x 0)).1 ≠ 0#32 →
    (handle_brk ctx mem).1 = mem.get_brk ∧ (handle_brk ctx mem).2.2.get_brk = mem.get_brk

/-- The request is 0, or it is refused and the break is the last address. -/
def BrkKnown (ctx : CPUContext) (mem : MemoryManager) : Prop :=
  ctx.x 0 = 0#64 ∨ ctx.x 0 < mem.mmap_base_ ∧ mem.brk_ = BitVec.allOnes 64

/-- The requests of a sequence, each with the manager it is made to. -/
def brk_calls : MemoryManager → List CPUContext → List (CPUContext × MemoryManager)
  | _, [] => []
  | mem, ctx :: rest => (ctx, mem) :: brk_calls (handle_brk ctx mem).2.2 rest

section Brk

variable {ctx : CPUContext} {mem : MemoryManager}

theorem handle_brk_zero (h : ctx.x 0 = 0#64) : handle_brk ctx mem = (mem.get_brk, ctx, mem) := by
  unfold handle_brk
  dsimp only
  rw [if_pos h]

theorem handle_brk_refused (h : ctx.x 0 ≠ 0#64) (hlt : ctx.x 0 < mem.mmap_base_) :
    handle_brk ctx mem = (BitVec.allOnes 64, ctx, mem) := by
  unfold handle_brk set_brk
  dsimp only
  rw [if_neg h, if_pos hlt]
  rfl

theorem handle_brk_accepted (h : ctx.x 0 ≠ 0#64) (hle : ¬ ctx.x 0 < mem.mmap_base_) :
    handle_brk ctx mem = (0#64, ctx, { mem with brk_ := ctx.x 0 }) := by
  unfold handle_brk set_brk
  dsimp only
  rw [if_neg h, if_neg hle]
  rfl

theorem set_brk_refused (hlt : ctx.x 0 < mem.mmap_base_) : (mem.set_brk (ctx.x 0)).1 = -1#32 := by
  unfold set_brk
  rw [if_pos hlt]

/-- **One request** is answered as by Linux exactly if it is 0, or refused while the break is -1. -/
theorem answersBrk_iff : AnswersBrk ctx mem ↔ BrkKnown ctx mem := by
  have hne : -1#32 ≠ 0#32 := by decide
  unfold BrkKnown
  by_cases hzero : ctx.x 0 = 0#64
  · refine iff_of_true ⟨?_, fun h => absurd hzero h, fun _ => ?_⟩ (.inl hzero)
    · rw [handle_brk_zero hzero]
    · rw [handle_brk_zero hzero]
      exact ⟨rfl, rfl⟩
  · rw [or_iff_right hzero]
    by_cases hlt : ctx.x 0 < mem.mmap_base_
    · rw [and_iff_right hlt]
      have hset := set_brk_refused hlt
      constructor
      · intro h
        have hforce := h.in_force
        rw [handle_brk_refused hzero hlt] at hforce
        exact hforce.symm
      · intro hbrk
        have hret : handle_brk ctx mem = (mem.get_brk, ctx, mem) := by
          rw [handle_brk_refused hzero hlt, get_brk, hbrk]
        refine ⟨?_, fun _ h => ?_, fun _ => ?_⟩
        · rw [hret]
        · rw [hset] at h
          exact absurd h hne
        · rw [hret]
          exact ⟨rfl, rfl⟩
    · refine iff_of_false (fun h => ?_) fun h => hlt h.1
      -- what is returned is 0, and the break is the address asked for
      have hforce := h.in_force
      rw [handle_brk_accepted hzero hlt] at hforce
      exact hzero hforce.symm

/-- A request that is answered as by Linux leaves the manager as it was. -/
theorem handle_brk_mem_of_known (h : BrkKnown ctx mem) : (handle_brk ctx mem).2.2 = mem := by
  rcases h with hzero | ⟨hlt, -⟩
  · rw [handle_brk_zero hzero]
  · by_cases hzero : ctx.x 0 = 0#64
    · rw [handle_brk_zero hzero]
    · rw [handle_brk_refused hzero hlt]

/-- A run is answered as by Linux exactly if each of its requests would be as the first one. -/
theorem answersBrk_calls_iff (ctxs : List CPUContext) :
    (∀ c ∈ brk_calls mem ctxs, AnswersBrk c.1 c.2) ↔ ∀ ctx ∈ ctxs, BrkKnown ctx mem := by
  induction ctxs generalizing mem with
  | nil => exact iff_of_true (List.forall_mem_nil _) (List.forall_mem_nil _)
  | cons ctx ctxs ih =>
    rw [brk_calls, List.forall_mem_cons, List.forall_mem_cons, ih, answersBrk_iff]
    refine and_congr_right fun hknown => ?_
    rw [handle_brk_mem_of_known hknown]

end Brk

/-- **Requests for the break**: in every sequence of them, each is answered as by Linux exactly if it is 0,
or refused while the break is -1; and all of them are exactly if each is 0, or refused where the sequence
starts with a break of -1. -/
theorem brk_answers_iff (mem : MemoryManager) (ctxs : List CPUContext) :
    (∀ c ∈ brk_calls mem ctxs, (AnswersBrk c.1 c.2 ↔ BrkKnown c.1 c.2)) ∧
    ((∀ c ∈ brk_calls mem ctxs, AnswersBrk c.1 c.2) ↔ ∀ ctx ∈ ctxs, BrkKnown ctx mem) :=
  ⟨fun _ _ => answersBrk_iff, answersBrk_calls_iff ctxs⟩

/-- The guest asks for a page of heap and gets 0. -/
theorem not_answers_brk : ∃ c ∈ brk_calls fresh [CPUContext.zero.set_x 0 0x180001000#64],
    ¬ AnswersBrk c.1 c.2 := by
  refine ⟨_, List.mem_singleton_self _, fun h => ?_⟩
  exact absurd h.in_force (by decide)

end SyscallHandler

end Bbarm64
