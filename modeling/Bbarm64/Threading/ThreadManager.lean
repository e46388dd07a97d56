import Bbarm64.Engine.Run
import Bbarm64.Lib.Trace

/-!
# Threading.ThreadManager — `create_thread` and the thread it starts

`create_thread` copies the context of the parent into a record of the manager, and `thread_entry`
calls `run` of the engine with the `pc` of that record.  The engine, though, runs on the context it was
constructed with: the registers of the record are never read.  A new thread leaves the parent alone
exactly if the engine is already stopped (`isolated_iff`), so that no guest instruction runs.

The moved-from `info` of `create_thread` receives the handle of the thread.  Its destructor finds the
thread joinable and ends the process, so that the caller never goes on.  `flags` and `ctid` are not
read, and `set_tls` does nothing.
-/

namespace Bbarm64

open X86

/-- `thread` is the host thread that the member of the record manages, if any. -/
structure ThreadInfo where
  tid : Word
  thread : Option ℕ
  ctx : CPUContext
  active : Bool

structure ThreadManager where
  threads_ : List ThreadInfo := []
  next_tid_ : Word := 1#64

namespace ThreadManager

open ExecEngine

/-- The manager and the local `info`, when the host thread has started. -/
def create_thread (mgr : ThreadManager) (host_thread : ℕ) (stack tls : Word)
    (parent_ctx : CPUContext) : ThreadManager × ThreadInfo :=
  let tid := mgr.next_tid_
  let ctx := ((parent_ctx.set 31 stack).set 101 tls).set 102 tid
  -- Set up child return value (0 for child)
  let ctx := ctx.set_x 0 0#64
  let info : ThreadInfo := { tid, thread := none, ctx, active := true }
  ({ threads_ := mgr.threads_ ++ [info], next_tid_ := mgr.next_tid_ + 1#64 },
    { info with thread := some host_thread })

/-- `info->active = false` -/
def deactivate (mgr : ThreadManager) (info : ℕ) : ThreadManager :=
  { mgr with threads_ := mgr.threads_.modify info fun t => { t with active := false } }

/-- An object of type `CPUContext`: outside of the manager, or in one of its records. -/
inductive Ref where
  | guest (i : ℕ)
  | record (i : ℕ)
  deriving DecidableEq

/-- What the call is given. -/
structure Call where
  stack : Word
  ptid : Word
  tls : Word
  parent : Ref

/-! ## The two threads -/

/-- Where the caller is: `info` is the local variable. -/
inductive Caller where
  | calls
  | started (info : ThreadInfo)
  | stored (info : ThreadInfo)
  | returned (tid : BitVec 32)
  | ended

/-- Where `thread_entry` is, for the record `info`: before `run`, at the head of its loop, in the
body, behind it. -/
inductive Child where
  | absent
  | entry (info : ℕ)
  | loop (info iter : ℕ)
  | body (info iter : ℕ)
  | finished

structure System where
  guest : ℕ → CPUContext
  mem : MemoryManager
  cache : TranslationCache
  mgr : ThreadManager
  caller : Caller
  child : Child

namespace System

/-- The system at the call. -/
def calling (guest : ℕ → CPUContext) (mem : MemoryManager) (cache : TranslationCache)
    (mgr : ThreadManager) : System := { guest, mem, cache, mgr, caller := .calls, child := .absent }

def context (s : System) : Ref → CPUContext
  | .guest i => s.guest i
  | .record i => (s.mgr.threads_[i]?).elim .zero (·.ctx)

def set_guest (s : System) (i : ℕ) (ctx : CPUContext) : System :=
  { s with guest := Function.update s.guest i ctx }

/-- The engine whose `ctx_` is the object `engine`, in the loop of a thread. -/
def run_state (s : System) (engine iter : ℕ) : RunState := ⟨s.guest engine, s.mem, s.cache, iter⟩

end System

inductive Event where
  | create | store_ptid | returns | terminates
  | entry | begins | round | leaves
  deriving DecidableEq

/-- The event is one of the new thread. -/
def Event.OfChild : Event → Prop
  | .create | .store_ptid | .returns | .terminates => False
  | .entry | .begins | .round | .leaves => True

/-- One step of the caller or of the new thread.  The object of the engine lies at `c`. -/
inductive Step (c : Word) (engine : ℕ) (call : Call) (s : System) : Event → System → Prop where
  | create {host_thread : ℕ} {mgr : ThreadManager} {info : ThreadInfo} (h : s.caller = .calls)
    (hr : create_thread s.mgr host_thread call.stack call.tls (s.context call.parent) = (mgr, info)) :
    Step c engine call s .create
      { s with mgr, caller := .started info, child := .entry s.mgr.threads_.length }
  | store_ptid {info : ThreadInfo} (h : s.caller = .started info) :
    Step c engine call s .store_ptid
      { s with
        mem := if call.ptid ≠ 0#64 then
          { s.mem with host := writeN 4 s.mem.host call.ptid info.tid } else s.mem
        caller := .stored info }
  | returns {info : ThreadInfo} (h : s.caller = .stored info) (ht : info.thread = none) :
    Step c engine call s .returns { s with caller := .returned (info.tid.setWidth 32) }
  | terminates {info : ThreadInfo} (h : s.caller = .stored info) (ht : info.thread ≠ none) :
    Step c engine call s .terminates { s with caller := .ended }
  | entry {info : ℕ} (hp : s.caller ≠ .ended) (h : s.child = .entry info) :
    Step c engine call s .entry
      { s.set_guest engine ((s.guest engine).set_pc (s.context (.record info)).pc) with
        child := .loop info 0 }
  | begins {info iter : ℕ} (hp : s.caller ≠ .ended) (h : s.child = .loop info iter)
    (hgo : (s.run_state engine iter).Running) :
    Step c engine call s .begins { s with child := .body info iter }
  | round {info iter : ℕ} {answer : HostAnswer} {cpu : Cpu} {r : RunState} (hp : s.caller ≠ .ended)
    (h : s.child = .body info iter) (hr : Iterates c answer cpu (s.run_state engine iter) r) :
    Step c engine call s .round
      { s.set_guest engine r.ctx with
        mem := r.mem, cache := r.cache, child := .loop info r.iter }
  | leaves {info iter : ℕ} (hp : s.caller ≠ .ended) (h : s.child = .loop info iter)
    (hgo : ¬ (s.run_state engine iter).Running) :
    Step c engine call s .leaves { s with mgr := deactivate s.mgr info, child := .finished }

/-- The steps of the two threads from a call on, in any order. -/
def Runs (c : Word) (engine : ℕ) (call : Call) (s₀ : System) : List (System × Event) → System → Prop :=
  Trace (· = s₀) (Step c engine call)

/-! ## Isolation -/

/-- The context of a new thread: `x0` is 0, `sp` and `tpidr_el0` are arguments, `pc` is the
parent's. -/
structure Fresh (call : Call) (parent own : CPUContext) : Prop where
  x0 : own.x 0 = 0#64
  sp : own.sp = call.stack
  tpidr_el0 : own.tpidr_el0 = call.tls
  pc : own.pc = parent.pc

/-- The new thread gets a context of its own, its rounds run on that context, and its steps do not
change the context of the parent. -/
structure Isolated (engine : ℕ) (call : Call) (s : System) (e : Event) (s' : System) : Prop where
  fresh : e = .create →
    Fresh call (s.context call.parent) (s'.context (.record s.mgr.threads_.length))
  own : e = .begins ∨ e = .round → ∀ info iter, s.child = .loop info iter ∨ s.child = .body info iter →
    Ref.guest engine = .record info
  parent : e.OfChild → s'.context call.parent = s.context call.parent

section Contexts

variable {s : System}

/-- The context of a new thread. -/
theorem fresh_of_create {mgr mgr' : ThreadManager} {info : ThreadInfo} {host_thread : ℕ} {call : Call}
    {parent_ctx : CPUContext}
    (hr : create_thread mgr host_thread call.stack call.tls parent_ctx = (mgr', info)) :
    Fresh call parent_ctx info.ctx := by
  cases hr
  exact ⟨rfl, rfl, rfl, rfl⟩

/-- It is the record of the new thread. -/
theorem context_new {mgr : ThreadManager} {info : ThreadInfo} {host_thread : ℕ} {stack tls : Word}
    {parent_ctx : CPUContext} (hr : create_thread s.mgr host_thread stack tls parent_ctx = (mgr, info))
    (caller : Caller) (child : Child) :
    ({ s with mgr, caller, child } : System).context (.record s.mgr.threads_.length) = info.ctx := by
  cases hr
  simp [System.context]

/-- The objects that exist already. -/
theorem context_old {mgr : ThreadManager} {info : ThreadInfo} {host_thread : ℕ} {stack tls : Word}
    {parent_ctx : CPUContext} (hr : create_thread s.mgr host_thread stack tls parent_ctx = (mgr, info))
    (caller : Caller) (child : Child) {r : Ref} (h : ∀ i, r = .record i → i < s.mgr.threads_.length) :
    ({ s with mgr, caller, child } : System).context r = s.context r := by
  cases hr
  cases r with
  | guest i => rfl
  | record i => simp [System.context, List.getElem?_append_left (h i rfl)]

theorem context_deactivate (info : ℕ) (child : Child) (r : Ref) :
    ({ s with mgr := deactivate s.mgr info, child } : System).context r = s.context r := by
  cases r with
  | guest i => rfl
  | record i =>
    simp only [System.context, deactivate, List.getElem?_modify]
    cases s.mgr.threads_[i]? with
    | none => rfl
    | some t =>
      by_cases h : info = i
      · simp [h]
      · simp [h]

theorem set_pc_self (ctx : CPUContext) : ctx.set_pc ctx.pc = ctx := by
  refine CPUContext.ext fun i => ?_
  rw [CPUContext.set_pc, CPUContext.set_word]
  split_ifs with h
  · rw [h]
    rfl
  · rfl

/-- The new thread enters `run` with the `pc` of its parent. -/
theorem context_entry {engine : ℕ} {r : Ref} (child : Child) {pc : Word} (h : pc = (s.context r).pc) :
    ({ s.set_guest engine ((s.guest engine).set_pc pc) with child } : System).context r =
      s.context r := by
  cases r with
  | record i => rfl
  | guest i =>
    show Function.update s.guest engine ((s.guest engine).set_pc pc) i = s.guest i
    by_cases he : i = engine
    · subst he
      rw [Function.update_self, h]
      exact set_pc_self _
    · rw [Function.update_of_ne he]

end Contexts

/-! ## A stopped engine -/

/-- The engine is stopped and the parent has the context `p`. -/
structure Stopped (engine : ℕ) (call : Call) (p : CPUContext) (s : System) : Prop where
  flags : (s.guest engine).crashed = true ∨ (s.guest engine).exited = true
  parent : s.context call.parent = p
  exists_parent : s.caller = .calls → ∀ i, call.parent = .record i → i < s.mgr.threads_.length
  entry : ∀ info, s.child = .entry info → (s.context (.record info)).pc = p.pc
  body : ∀ info iter, s.child ≠ .body info iter

section Runs

variable {c : Word} {engine : ℕ} {call : Call} {p : CPUContext} {s s' : System} {e : Event}

theorem Stopped.not_running (h : Stopped engine call p s) (iter : ℕ) :
    ¬ (s.run_state engine iter).Running := by
  rintro ⟨hcrashed, hexited, -⟩
  have hcrashed : (s.guest engine).crashed = false := hcrashed
  have hexited : (s.guest engine).exited = false := hexited
  rcases h.flags with hf | hf
  · exact Bool.noConfusion (hf.symm.trans hcrashed)
  · exact Bool.noConfusion (hf.symm.trans hexited)

/-- **One step** leaves the engine stopped. -/
theorem Stopped.step (h : Stopped engine call p s) (hs : Step c engine call s e s') :
    Stopped engine call p s' := by
  cases hs with
  | create hc hr =>
    refine ⟨h.flags, ?_, nofun, ?_, nofun⟩
    · rw [context_old hr _ _ (h.exists_parent hc)]
      exact h.parent
    · rintro info hi
      obtain rfl := Child.entry.inj hi
      rw [context_new hr, ← h.parent]
      exact (fresh_of_create hr).pc
  | store_ptid hc => exact ⟨h.flags, h.parent, nofun, h.entry, h.body⟩
  | returns hc ht => exact ⟨h.flags, h.parent, nofun, h.entry, h.body⟩
  | terminates hc ht => exact ⟨h.flags, h.parent, nofun, h.entry, h.body⟩
  | entry hp hc =>
    refine ⟨?_, ?_, h.exists_parent, nofun, nofun⟩
    · show (Function.update s.guest engine _ engine).crashed = true ∨
        (Function.update s.guest engine _ engine).exited = true
      rw [Function.update_self]
      exact h.flags
    · rw [context_entry _ (by rw [h.entry _ hc, h.parent]), h.parent]
  | begins hp hc hgo => exact absurd hgo (h.not_running _)
  | round hp hc hr => exact absurd hc (h.body _ _)
  | leaves hp hc hgo =>
    refine ⟨h.flags, ?_, ?_, nofun, nofun⟩
    · rw [context_deactivate]
      exact h.parent
    · intro hcalls i hi
      have hlt := h.exists_parent hcalls i hi
      simpa [deactivate] using hlt

/-- A step of a stopped engine is isolated. -/
theorem Stopped.isolated (h : Stopped engine call p s) (hs : Step c engine call s e s') :
    Isolated engine call s e s' := by
  have h' := h.step hs
  refine ⟨?_, ?_, fun _ => h'.parent.trans h.parent.symm⟩
  · rintro rfl
    cases hs with
    | create hc hr =>
      rw [context_new hr]
      exact fresh_of_create hr
  · rintro (rfl | rfl)
    · cases hs with
      | begins hp hc hgo => exact absurd hgo (h.not_running _)
    · cases hs with
      | round hp hc hr => exact absurd hc (h.body _ _)

/-- The new thread comes to the loop, with the `pc` of its parent in the context of the engine. -/
theorem loop_of_call (c : Word) (engine : ℕ) (call : Call) (guest : ℕ → CPUContext)
    (mem : MemoryManager) (cache : TranslationCache) (mgr : ThreadManager) :
    let s₀ := System.calling guest mem cache mgr
    ∃ es s, Runs c engine call s₀ es s ∧ s.caller ≠ .ended ∧ s.child = .loop mgr.threads_.length 0 ∧
      s.run_state engine 0 =
        ⟨(guest engine).set_pc (s₀.context call.parent).pc, mem, cache, 0⟩ := by
  intro s₀
  obtain ⟨mgr', info, hr⟩ : ∃ mgr' info,
      create_thread mgr 0 call.stack call.tls (s₀.context call.parent) = (mgr', info) := ⟨_, _, rfl⟩
  obtain ⟨s₁, hcreate, hcaller, hchild, hguest, hmem, hcache, hpc⟩ : ∃ s₁,
      Step c engine call s₀ .create s₁ ∧ s₁.caller ≠ .ended ∧
        s₁.child = .entry mgr.threads_.length ∧ s₁.guest = guest ∧ s₁.mem = mem ∧
        s₁.cache = cache ∧
        (s₁.context (.record mgr.threads_.length)).pc = (s₀.context call.parent).pc := by
    refine ⟨_, .create rfl hr, nofun, rfl, rfl, rfl, rfl, ?_⟩
    exact (congrArg CPUContext.pc (context_new hr _ _)).trans (fresh_of_create hr).pc
  refine ⟨_, _, .snoc (.snoc (.nil rfl) hcreate) (.entry hcaller hchild), hcaller, rfl, ?_⟩
  rw [← hguest, ← hmem, ← hcache, ← hpc]
  exact congrArg (RunState.mk · s₁.mem s₁.cache 0) (Function.update_self _ _ _)

/-- **Isolation**: in every order of the steps of the two threads the new thread has a context of its
own, runs on it and leaves the parent's alone, exactly if the engine had crashed or exited before. -/
theorem isolated_iff {guest : ℕ → CPUContext} {mem : MemoryManager} {cache : TranslationCache}
    {mgr : ThreadManager} (hparent : ∀ i, call.parent = .record i → i < mgr.threads_.length) :
    (∀ es s e s', Runs c engine call (.calling guest mem cache mgr) es s →
        Step c engine call s e s' → Isolated engine call s e s') ↔
      (guest engine).crashed = true ∨ (guest engine).exited = true := by
  constructor
  · intro h
    by_contra hstopped
    simp only [not_or, Bool.not_eq_true] at hstopped
    obtain ⟨es, s, hrun, hcaller, hloop, hs⟩ := loop_of_call c engine call guest mem cache mgr
    have hgo : (s.run_state engine 0).Running := by
      rw [hs]
      exact ⟨hstopped.1, hstopped.2, (by decide : 0 < max_iter)⟩
    have hown := (h es s _ _ hrun (.begins hcaller hloop hgo)).own (.inl rfl) _ _ (.inl hloop)
    cases hown
  · intro hflags es s e s' hrun hs
    obtain ⟨p, h0⟩ : ∃ p, Stopped engine call p (.calling guest mem cache mgr) :=
      ⟨_, hflags, rfl, fun _ => hparent, nofun, nofun⟩
    have hinv : Trace.Throughout (Stopped engine call p) es s := by
      refine Trace.inv ?_ (fun _ _ _ hs ht => hs.step ht) hrun
      rintro _ rfl
      exact h0
    exact hinv.2.isolated hs

/-- The engine of a guest in front of `svc #0`, and a call for a thread with a stack of its own. -/
def svc_system : System :=
  let g := svc_state 222#64 0x10000#64
  .calling (fun _ => g.ctx) g.mem g.cache {}

def svc_call : Call := ⟨0x20000#64, 0#64, 0x30000#64, .guest 0⟩

/-- With that guest. -/
theorem isolated_iff_svc :
    (∀ es s e s', Runs 0x8000#64 0 svc_call svc_system es s →
        Step 0x8000#64 0 svc_call s e s' → Isolated 0 svc_call s e s') ↔
      (svc_system.guest 0).crashed = true ∨ (svc_system.guest 0).exited = true :=
  isolated_iff nofun

/-- The system call of the new thread moves the `pc` of its parent. -/
theorem not_isolated : ∃ es s s', Runs 0x8000#64 0 svc_call svc_system es s ∧
    Step 0x8000#64 0 svc_call s .round s' ∧ (s.context svc_call.parent).pc = 0#64 ∧
      (s'.context svc_call.parent).pc = 4#64 ∧ ¬ Isolated 0 svc_call s .round s' := by
  obtain ⟨es, s, hrun, hcaller, hloop, hs⟩ := loop_of_call 0x8000#64 0 svc_call
    (fun _ => (svc_state 222#64 0x10000#64).ctx) (svc_state 222#64 0x10000#64).mem
    (svc_state 222#64 0x10000#64).cache {}
  have hs : s.run_state 0 0 = svc_state 222#64 0x10000#64 :=
    hs.trans (congrArg (RunState.mk · _ _ 0) (set_pc_self _))
  have hgo : (s.run_state 0 0).Running := by
    rw [hs]
    exact ⟨by decide, by decide, by decide⟩
  have hsvc : (svc_state 222#64 0x10000#64).AtSvc := ⟨by decide, 0xD4000001#32, by decide, by decide⟩
  obtain ⟨r, hr, hpc⟩ : ∃ r, Iterates 0x8000#64 granted ⟨0#64, .cleared⟩ (s.run_state 0 0) r ∧
      r.ctx.pc = 4#64 := by
    rw [hs]
    exact ⟨_, (iterates_svc_iff (hs ▸ hgo) hsvc).mpr rfl, by decide⟩
  have hpc₀ : (s.guest 0).pc = 0#64 := congrArg (·.ctx.pc) hs
  refine ⟨_, _, _, .snoc hrun (.begins hcaller hloop hgo), .round hcaller rfl hr, hpc₀, ?_, ?_⟩
  · show (Function.update s.guest 0 r.ctx 0).pc = 4#64
    rw [Function.update_self]
    exact hpc
  · intro h
    cases h.own (.inr rfl) _ _ (.inr rfl)

end Runs

end ThreadManager

end Bbarm64
