import Bbarm64.Threading.ThreadManager
import Mathlib.Data.List.Induction
import Mathlib.Data.List.Nodup

/-!
# Threading.Ownership — who owns the threads

`create_thread` stores the record before it constructs the thread, and assigns the thread to the
moved-from `info`.  No record ever owns a thread (`records_own_nothing`): the first one that starts ends
the process in the destructor of `info`, and `join_all` would not find it.  So the threads of a sequence of
calls are owned and joined exactly if there are none (`all_joined_iff`).
-/

namespace Bbarm64

open X86

namespace ThreadManager

/-- A call of `create_thread`: the host starts a thread, or `std::thread` throws. -/
structure Start where
  host_thread : Option ℕ
  stack : Word
  tls : Word
  parent_ctx : CPUContext

/-- The threads that were started, and whether the destructor of a joinable `std::thread` has ended the
process. -/
structure Threads where
  mgr : ThreadManager := {}
  started : List ℕ := []
  terminated : Bool := false

/-- One call.  Where `std::thread` throws, the record is in the vector already. -/
def Threads.call (s : Threads) (q : Start) : Threads :=
  if s.terminated then s
  else match q.host_thread with
    | none => { s with mgr := (create_thread s.mgr 0 q.stack q.tls q.parent_ctx).1 }
    | some h =>
      let (mgr, info) := create_thread s.mgr h q.stack q.tls q.parent_ctx
      { mgr, started := s.started ++ [h], terminated := info.thread.isSome }

/-- The records behind `join_all`, and the threads that were joined. -/
def join_all (mgr : ThreadManager) : ThreadManager × List ℕ :=
  ({ mgr with threads_ := mgr.threads_.map fun t => { t with thread := none } },
    mgr.threads_.filterMap (·.thread))

/-- The calls, one after the other, in a new manager. -/
def create_threads (calls : List Start) : Threads := calls.foldl Threads.call {}

/-- What `join_all` joins behind the calls: in a process that has ended, nothing. -/
def Threads.joined (s : Threads) : List ℕ := if s.terminated then [] else (join_all s.mgr).2

/-- Each thread is owned by one record, and `join_all` joins it. -/
structure AllJoined (s : Threads) : Prop where
  alive : s.terminated = false
  owned : ∀ h ∈ s.started, ∃! i : Fin s.mgr.threads_.length, s.mgr.threads_[i].thread = some h
  tids : (s.mgr.threads_.map (·.tid)).Nodup
  joined : ∀ h ∈ s.started, h ∈ s.joined

/-- What holds of the records as long as the process goes on: the `n`-th has the tid `n + 1`, and none owns
a thread. -/
structure Unowned (s : Threads) : Prop where
  tids : s.mgr.threads_.map (·.tid) = (List.range s.mgr.threads_.length).map fun n =>
    BitVec.ofNat 64 (n + 1)
  next : s.mgr.next_tid_ = BitVec.ofNat 64 (s.mgr.threads_.length + 1)
  threads : ∀ t ∈ s.mgr.threads_, t.thread = none

section Calls

variable {s : Threads} {q : Start} {calls : List Start}

/-- What a call does to the records. -/
theorem create_thread_threads (mgr : ThreadManager) (h : ℕ) (stack tls : Word) (ctx : CPUContext) :
    ∃ t : ThreadInfo, t.tid = mgr.next_tid_ ∧ t.thread = none ∧
      (create_thread mgr h stack tls ctx).1 = ⟨mgr.threads_ ++ [t], mgr.next_tid_ + 1#64⟩ :=
  ⟨_, rfl, rfl, rfl⟩

theorem call_terminated (hended : s.terminated = true) : s.call q = s := if_pos hended

/-- A call whose thread does not start. -/
theorem call_none (hended : ¬ s.terminated = true) (hq : q.host_thread = none) :
    s.call q = { s with mgr := (create_thread s.mgr 0 q.stack q.tls q.parent_ctx).1 } := by
  unfold Threads.call
  rw [if_neg hended, hq]

/-- A call whose thread starts. -/
theorem call_some {h : ℕ} (hended : ¬ s.terminated = true) (hq : q.host_thread = some h) :
    s.call q = ⟨(create_thread s.mgr h q.stack q.tls q.parent_ctx).1, s.started ++ [h], true⟩ := by
  unfold Threads.call
  rw [if_neg hended, hq]
  rfl

/-- **One call** adds a record without a thread, whether or not a thread starts. -/
theorem Unowned.call (hs : Unowned s) : Unowned (s.call q) := by
  have hadd : ∀ (h : ℕ) (s' : Threads),
      s'.mgr = (create_thread s.mgr h q.stack q.tls q.parent_ctx).1 → Unowned s' := by
    intro h s' hmgr
    obtain ⟨t, htid, hthread, hcreate⟩ :=
      create_thread_threads s.mgr h q.stack q.tls q.parent_ctx
    rw [hcreate] at hmgr
    constructor
    · rw [hmgr, List.map_append, hs.tids, List.length_append, List.length_singleton, List.range_succ,
        List.map_append, List.map_singleton, List.map_singleton, htid, hs.next]
    · rw [hmgr, hs.next, List.length_append, List.length_singleton, ← BitVec.ofNat_add]
    · rw [hmgr]
      intro u hu
      rcases List.mem_append.mp hu with hu | hu
      · exact hs.threads u hu
      · rw [List.mem_singleton.mp hu, hthread]
  by_cases hended : s.terminated = true
  · rw [call_terminated hended]
    exact hs
  · cases hq : q.host_thread with
    | none =>
      rw [call_none hended hq]
      exact hadd 0 _ rfl
    | some h =>
      rw [call_some hended hq]
      exact hadd h _ rfl

/-- **No record owns a thread** behind any sequence of calls. -/
theorem records_own_nothing (calls : List Start) : Unowned (create_threads calls) := by
  unfold create_threads
  induction calls using List.reverseRecOn with
  | nil => exact ⟨rfl, rfl, List.forall_mem_nil _⟩
  | append_singleton calls q ih =>
    rw [List.foldl_append]
    exact ih.call

/-- As long as no thread starts, each call leaves its record. -/
theorem create_threads_none (h : ∀ q ∈ calls, q.host_thread = none) :
    (create_threads calls).started = [] ∧ (create_threads calls).terminated = false ∧
      (create_threads calls).mgr.threads_.length = calls.length := by
  unfold create_threads
  induction calls using List.reverseRecOn with
  | nil => exact ⟨rfl, rfl, rfl⟩
  | append_singleton calls q ih =>
    obtain ⟨hstarted, hended, hlen⟩ := ih fun q' hq => h q' (List.mem_append_left _ hq)
    have hnone := h q (List.mem_append_right _ (List.mem_singleton_self q))
    rw [List.foldl_append, List.foldl_cons, List.foldl_nil, List.length_append]
    generalize calls.foldl Threads.call {} = s at hstarted hended hlen ⊢
    rw [call_none (Bool.eq_false_iff.mp hended) hnone]
    refine ⟨hstarted, hended, ?_⟩
    obtain ⟨t, -, -, hcreate⟩ := create_thread_threads s.mgr 0 q.stack q.tls q.parent_ctx
    show (create_thread s.mgr 0 q.stack q.tls q.parent_ctx).1.threads_.length = _
    rw [hcreate, ← hlen]
    exact List.length_append

/-- A process in which no thread was started goes on, and no call has started one. -/
theorem of_started_nil (h : (create_threads calls).started = []) :
    (create_threads calls).terminated = false ∧ ∀ q ∈ calls, q.host_thread = none := by
  unfold create_threads at h ⊢
  induction calls using List.reverseRecOn with
  | nil => exact ⟨rfl, List.forall_mem_nil _⟩
  | append_singleton calls q ih =>
    rw [List.foldl_append, List.foldl_cons, List.foldl_nil] at h ⊢
    generalize calls.foldl Threads.call {} = s at ih h ⊢
    by_cases hended : s.terminated = true
    · rw [call_terminated hended] at h
      exact absurd hended (Bool.eq_false_iff.mp (ih h).1)
    · cases hq : q.host_thread with
      | none =>
        rw [call_none hended hq] at h ⊢
        exact ⟨(ih h).1, List.forall_mem_append.mpr ⟨(ih h).2, List.forall_mem_singleton.mpr hq⟩⟩
      | some k =>
        rw [call_some hended hq] at h
        exact absurd h (List.append_ne_nil_of_right_ne_nil _ (List.cons_ne_nil k []))

/-- The tids `1`, …, `n` of `uint64_t` are distinct up to `2 ^ 64` of them. -/
theorem nodup_tids_iff (n : ℕ) :
    ((List.range n).map fun k => BitVec.ofNat 64 (k + 1)).Nodup ↔ n ≤ 2 ^ 64 := by
  rw [List.nodup_map_iff_inj_on List.nodup_range]
  simp only [List.mem_range]
  constructor
  · intro h
    by_contra hn
    have heq : BitVec.ofNat 64 (0 + 1) = BitVec.ofNat 64 (2 ^ 64 + 1) := by
      decide
    have hinj := h 0 (by omega) (2 ^ 64) (by omega) heq
    omega
  · intro hn i hi j hj hij
    have hnat := congrArg BitVec.toNat hij
    rw [BitVec.toNat_ofNat, BitVec.toNat_ofNat] at hnat
    omega

/-- **Threads are owned and joined** exactly if none starts: each call fails, and there are no more of
them than tids. -/
theorem all_joined_iff : AllJoined (create_threads calls) ↔
    (∀ q ∈ calls, q.host_thread = none) ∧ calls.length ≤ 2 ^ 64 := by
  have hunowned := records_own_nothing calls
  constructor
  · rintro ⟨-, howned, htids, -⟩
    have hnil : (create_threads calls).started = [] := by
      refine List.eq_nil_iff_forall_not_mem.mpr fun h hh => ?_
      obtain ⟨i, hi, -⟩ := howned h hh
      have hnone := hunowned.threads _ (List.getElem_mem i.isLt)
      exact absurd (hnone.symm.trans hi) (Option.some_ne_none h).symm
    obtain ⟨-, hnone⟩ := of_started_nil hnil
    obtain ⟨-, -, hlen⟩ := create_threads_none hnone
    rw [hunowned.tids, nodup_tids_iff, hlen] at htids
    exact ⟨hnone, htids⟩
  · rintro ⟨hnone, hlen⟩
    obtain ⟨hstarted, halive, hrecords⟩ := create_threads_none hnone
    refine ⟨halive, ?_, ?_, ?_⟩
    · rw [hstarted]
      exact List.forall_mem_nil _
    · rw [hunowned.tids, nodup_tids_iff, hrecords]
      exact hlen
    · rw [hstarted]
      exact List.forall_mem_nil _

end Calls

/-- The first thread that starts is in no record. -/
theorem first_thread_lost :
    let s := create_threads [⟨some 0, 0x20000#64, 0x30000#64, .zero⟩]
    s.started = [0] ∧ s.terminated = true ∧ s.joined = [] ∧ ¬ AllJoined s :=
  ⟨rfl, rfl, rfl, fun h => Bool.noConfusion h.alive⟩

end ThreadManager

end Bbarm64
