import Bbarm64.Engine.Loop

/-!
# Engine.Ending — how a run of the engine ends

The flags that end the loop are set by the system calls exit and exit_group and by crashes only.  On a
program of the A64 subset the run stops at its first call of exit, with the status that the program
asked for, or at the limit of the rounds (`loop_ends`).
-/

namespace Bbarm64

open X86 SyscallHandler

namespace ExecEngine

/-- The call is exit or exit_group. -/
def ends_program (call : A64.Call Mem) : Prop := is_exit ((call.reg 8#5).setWidth 32)

/-- No round follows. -/
def Stopped (c : Word) (s : RunState) : Prop := ∀ answer cpu s', ¬ Iterates c answer cpu s s'

/-- The exit flag against the calls: it is set by the last of them, the only exit, or there was none. -/
inductive Ends (calls : List (A64.Call Mem)) (s : RunState) : Prop where
  | going (hexited : s.ctx.exited = false) (h : ∀ call ∈ calls, ¬ ends_program call)
  | exited {before : List (A64.Call Mem)} {call : A64.Call Mem} (hexited : s.ctx.exited = true)
    (hcalls : calls = before ++ [call]) (h : ∀ call ∈ before, ¬ ends_program call)
    (hcall : ends_program call) (hstatus : s.ctx.exit_status = (call.reg 0#5).setWidth 32)

section Ending

variable {p : A64.Program} {c pool : Word} {answer : HostAnswer} {cpu : Cpu} {s₀ s s' : RunState}
  {es : List (RunState × HostAnswer × Cpu)} {k : ℕ}

theorem exited_congr {ctx ctx' : CPUContext} (h : ctx'.word 103 = ctx.word 103) :
    ctx'.exited = ctx.exited := by
  rw [CPUContext.exited, CPUContext.exited, CPUContext.state_flags, CPUContext.state_flags, h]

/-- The exit flag is set. -/
theorem exited_of_state_flags {ctx : CPUContext} {f : BitVec 32}
    (h : ctx.state_flags = f ||| CPUContext.STATE_EXITED) : ctx.exited = true := by
  have hbit : (f ||| CPUContext.STATE_EXITED) &&& CPUContext.STATE_EXITED = CPUContext.STATE_EXITED := by
    ext i hi
    rw [BitVec.getElem_and, BitVec.getElem_or]
    cases CPUContext.STATE_EXITED[i] <;> simp
  rw [CPUContext.exited, h, hbit]
  rfl

/-- A round that does not crash is counted. -/
theorem iterates_iter (h : Iterates c answer cpu s s') (hgo : s'.ctx.crashed = false) :
    s'.iter = s.iter + 1 := by
  cases h with
  | hit | svc | translated | interpreted => rfl
  | unknown => exact absurd (crashed_crash s.ctx) (Bool.eq_false_iff.mp hgo)

/-- **One round**: an exit ends the run, every other call and every block leave the flag alone. -/
theorem Ends.round (h : Ends (svc_calls c pool es) s) (hl : Layout p c pool)
    (hr : RoundAt p c pool answer cpu k s s') (hi : Iterates c answer cpu s s')
    (hgo : s'.ctx.crashed = false) : Ends (svc_calls c pool (es ++ [(s, answer, cpu)])) s' := by
  have hrun := iterates_running hi
  rw [svc_calls_snoc]
  cases h with
  | exited hexited _ _ _ _ => exact absurd hexited (Bool.eq_false_iff.mp hrun.2.1)
  | going hexited hcalls =>
    cases hr with
    | svc _ _ hat _ =>
      have key : ∃ t, (∀ u, Iterates c answer cpu s u ↔ u = t) ∧ _ := svc_frame hrun hat
      obtain ⟨t, ht, -, -, -, hexit⟩ := key
      obtain rfl := (ht s').mp hi
      rw [svc_call, if_pos hat, Option.toList_some]
      split_ifs at hexit with hnr
      · exact .exited (exited_of_state_flags hexit.2) rfl hcalls hnr hexit.1
      · refine .going (exited_congr hexit ▸ hexited) fun call hcall => ?_
        rcases List.mem_append.mp hcall with hcall | hcall
        · exact hcalls call hcall
        · obtain rfl := List.mem_singleton.mp hcall
          exact hnr
    | block _ _ hat _ hready hx _ =>
      have hword := ((hready.executes hl hx).2 hgo).rest 103 (by decide) (by decide)
      rw [svc_call, if_neg hat, Option.toList_none, List.append_nil]
      exact .going (exited_congr hword ▸ hexited) hcalls
    | interpreted _ _ _ hd hat hg =>
      have hctx : s'.ctx = (execute_decoded (s.ctx, s.mem) _).1 := congrArg Prod.fst hg
      have hword := (interp_rest hd (s.ctx, s.mem)).2 103 (by decide)
      rw [svc_call, if_neg hat.1.not_atSvc, Option.toList_none, List.append_nil]
      exact .going ((exited_congr (hctx ▸ hword)).trans hexited) hcalls

/-- **How the loop ends**: such a run has at most one call of exit, and it is its last round, with the
exit status of the program.  Each round counts.  At a word of the program the run stops if and only
if the program has exited or the limit of the rounds is reached. -/
theorem loop_ends (hs : Starts p c pool s₀) (h₀ : s₀.ctx.exited = false) (h : Loop c s₀ es s)
    (hes : ∀ e ∈ es, OnProgram p c pool e.2.1 e.1) (hgo : s.ctx.crashed = false) :
    Ends (svc_calls c pool es) s ∧ s.iter = s₀.iter + es.length ∧
      ((p.word s.ctx.pc).isSome → (Stopped c s ↔ s.ctx.exited = true ∨ max_iter ≤ s.iter)) := by
  have hworks := hs.throughout h hes
  refine ⟨?_, ?_, fun hat => ?_⟩
  · induction h with
    | nil he =>
      obtain rfl := he
      exact .going h₀ (List.forall_mem_nil _)
    | @snoc es s s' x h hi ih =>
      obtain ⟨hbefore, -⟩ := Trace.throughout_snoc.mp hworks
      have hon := hes (s, x) (List.mem_append_right _ (List.mem_singleton_self _))
      obtain ⟨k, hlt, hk⟩ := exists_addr hon.at_word
      have ih := ih (fun e he => hes e (List.mem_append_left _ he)) (iterates_running hi).1 hbefore
      exact ih.round hs.layout (hbefore.2.round_cases hk hlt hi) hi hgo
  · clear hworks hes
    induction h with
    | nil he =>
      obtain rfl := he
      rfl
    | snoc h hi ih =>
      rw [iterates_iter hi hgo, ih (iterates_running hi).1, List.length_append, List.length_singleton,
        Nat.add_assoc]
  · obtain ⟨k, hlt, hk⟩ := exists_addr hat
    constructor
    · intro hstop
      by_contra hno
      have hrun : s.Running := ⟨hgo, by simpa using fun he => hno (.inl he),
        Nat.lt_of_not_le fun hle => hno (.inr hle)⟩
      obtain ⟨cpu, s', hi, -⟩ := hworks.2.progress hs.layout hk hlt hrun granted
      exact hstop _ _ _ hi
    · rintro hend answer cpu s' hi
      obtain ⟨-, hexited, hiter⟩ := iterates_running hi
      rcases hend with he | hle
      · exact absurd he (Bool.eq_false_iff.mp hexited)
      · omega

/-- In front of the SVC of `exit_program`, with the registers of its two MOVZ. -/
def exit_last : RunState :=
  { exit_start with ctx := ((CPUContext.zero.set_pc 0x1008#64).set_x 8 93#64).set_x 0 3#64 }

/-- The round of the SVC. -/
theorem loop_ends_exit : ∃ e s, Loop 0x8000#64 exit_last [e] s ∧ s.ctx.exited = true ∧
    s.ctx.exit_status = 3#32 ∧ s.iter = 1 := by
  have hs : Starts exit_program 0x8000#64 0x10000#64 exit_last :=
    ⟨exit_starts.layout, exit_starts.program, exit_starts.cache⟩
  have hrun : exit_last.Running := ⟨by decide, by decide, by decide⟩
  have hk : exit_last.ctx.pc = exit_program.addr 2 := by decide
  have hat : exit_last.AtSvc := ⟨rfl, 0xD4000001#32, by decide, by decide⟩
  obtain ⟨cpu, s, hi, hgo⟩ := hs.works.progress hs.layout hk (by decide) hrun granted
  have hon : OnProgram exit_program 0x8000#64 0x10000#64 granted exit_last := by
    refine ⟨by decide, fun _ a hw => ?_⟩
    simp +decide [SvcWrites] at hw
  obtain ⟨hout, hiter, -⟩ :=
    loop_ends hs (by decide) (.one hi) (List.forall_mem_singleton.mpr hon) hgo
  have hcalls : svc_calls 0x8000#64 0x10000#64 [(exit_last, granted, cpu)] =
      (svc_call 0x8000#64 0x10000#64 (exit_last, granted, cpu)).toList := by
    rw [← List.nil_append [(exit_last, granted, cpu)], svc_calls_snoc]
    rfl
  rw [hcalls, svc_call, if_pos hat, Option.toList_some] at hout
  refine ⟨_, s, .one hi, ?_⟩
  cases hout with
  | going _ h =>
    have hexit : is_exit (svc_nr exit_last) := by decide
    exact absurd hexit (h _ (List.mem_singleton_self _))
  | exited hexited hcalls _ _ hstatus =>
    have hlast := congrArg List.getLast? hcalls
    rw [List.getLast?_concat, List.getLast?_singleton] at hlast
    obtain rfl := Option.some.inj hlast
    have hstatus' : ((exit_last.ctx.x 0).setWidth 32 : BitVec 32) = 3#32 := by decide
    exact ⟨hexited, hstatus.trans hstatus', hiter⟩

end Ending

end ExecEngine

end Bbarm64
