import Bbarm64.Engine.Exec
import Bbarm64.Syscall.Handlers
import Bbarm64.X86.Process
import Mathlib.Algebra.Ring.Int.Defs

/-!
# Engine.Run — the loop of `ExecEngine::run`

`Iterates` is one round of the loop.  `execute_block` hands the host CPU the code at `host_code`,
with RDI pointing to the context object at `c`; the other registers and the stack are whatever they
are.  `ctx` is the content of that object, and `mem.host` the rest of the memory of the process.
-/

namespace Bbarm64

open X86 ARM64Decoder

namespace ExecEngine

/-- The engine at the head of the loop. -/
structure RunState where
  ctx : CPUContext
  mem : MemoryManager
  cache : TranslationCache
  iter : ℕ

def max_iter : ℕ := 10000000

/-- The loop condition. -/
def RunState.Running (s : RunState) : Prop :=
  s.ctx.crashed = false ∧ s.ctx.exited = false ∧ s.iter < max_iter

/-! ## System calls -/

/-- `static_cast<int>(handler.execute(ctx))` -/
def handle_syscall (answer : HostAnswer) (ctx : CPUContext) (mem : MemoryManager) :
    BitVec 32 × CPUContext × MemoryManager :=
  let (result, ctx, mem) := SyscallHandler.execute answer ctx mem
  (result.setWidth 32, ctx, mem)

/-- The SVC branch: `pc` moves on, and the `int` goes to `x0` through an `int64_t`. -/
def run_svc (answer : HostAnswer) (g : Guest) : Guest :=
  let ctx := g.1.set_pc (g.1.pc + 4#64)
  let (result, ctx, mem) := handle_syscall answer ctx g.2
  (ctx.set_x 0 (result.signExtend 64), mem)

/-! ## Blocks -/

/-- A state of the host CPU as it enters the code at `code` for the guest `g`. -/
structure Enters (c code : Word) (g : Guest) (cpu : Cpu) : Prop where
  ip : cpu.ip = code
  rdi : cpu.st.reg rdi = c
  ctx : CtxAt cpu.st.mem c g.1
  host : CtxOutside c g.2.host cpu.st.mem

/-- What the host CPU leaves behind: it came to a `ret`, or a fault took it out of the code, upon
which the signal handler sets the crash flag. -/
inductive Leaves (c : Word) (g : Guest) (cpu : Cpu) : Guest → Prop where
  | ret {cpu' : Cpu} {ctx : CPUContext} (h : Cycles cpu cpu') (hr : cpu'.next = some (.ret, 1))
    (hctx : CtxAt cpu'.st.mem c ctx) : Leaves c g cpu (ctx, { g.2 with host := cpu'.st.mem })
  | fault {cpu' : Cpu} {ctx : CPUContext} (h : Cycles cpu cpu') (hctx : CtxAt cpu'.st.mem c ctx) :
    Leaves c g cpu (crash ctx, { g.2 with host := cpu'.st.mem })

/-- `execute_block`, with the host CPU in state `cpu` when it calls the block. -/
inductive Executes (c : Word) (cpu : Cpu) (block : BlockInfo) (g : Guest) : Guest → Prop where
  | skip (h : block.host_code = 0#64 ∨ block.is_valid = false) : Executes c cpu block g g
  | run {g' : Guest} (hcode : block.host_code ≠ 0#64) (hvalid : block.is_valid = true)
    (he : Enters c block.host_code g cpu) (hl : Leaves c g cpu g') : Executes c cpu block g g'

/-! ## The loop -/

/-- The engine fetches an SVC: no block at `pc`, and the word there is one. -/
def RunState.AtSvc (s : RunState) : Prop :=
  (s.cache.lookup s.ctx.pc).1 = none ∧ ∃ raw, s.mem.read_u32 s.ctx.pc = some raw ∧ is_svc raw

/-- The engine fetches a word that goes to the translator. -/
def RunState.AtCode (s : RunState) (raw : BitVec 32) : Prop :=
  (s.cache.lookup s.ctx.pc).1 = none ∧ s.mem.read_u32 s.ctx.pc = some raw ∧ ¬ is_svc raw

/-- One round of the loop, with the context object at `c`.  The host takes part with its answer to a
system call and the state of the CPU at the entry of a block. -/
inductive Iterates (c : Word) (answer : HostAnswer) (cpu : Cpu) (s : RunState) :
    RunState → Prop where
  | hit {block : BlockInfo} {cache : TranslationCache} {g : Guest} (hgo : s.Running)
    (hb : s.cache.lookup s.ctx.pc = (some block, cache))
    (hx : Executes c cpu block (s.ctx, s.mem) g) :
    Iterates c answer cpu s ⟨g.1, g.2, cache, s.iter + 1⟩
  | svc {g : Guest} (hgo : s.Running) (hs : s.AtSvc) (hg : run_svc answer (s.ctx, s.mem) = g) :
    Iterates c answer cpu s ⟨g.1, g.2, s.cache, s.iter + 1⟩
  | translated {raw : BitVec 32} {block : BlockInfo} {r : Translation} {g : Guest} (hgo : s.Running)
    (hw : s.AtCode raw) (hr : translate_block s.cache s.mem s.ctx.pc = r)
    (hb : r.block = some block) (hx : Executes c cpu block (s.ctx, r.mem) g) :
    Iterates c answer cpu s ⟨g.1, g.2, r.cache, s.iter + 1⟩
  | interpreted {raw : BitVec 32} {r : Translation} {decoded : DecodedInstr} {g : Guest}
    (hgo : s.Running) (hw : s.AtCode raw) (hr : translate_block s.cache s.mem s.ctx.pc = r)
    (hb : r.block = none) (hd : decode? raw = some decoded)
    (hg : execute_decoded (s.ctx, r.mem) decoded = g) :
    Iterates c answer cpu s ⟨g.1, g.2, r.cache, s.iter + 1⟩
  | unknown {raw : BitVec 32} {r : Translation} (hgo : s.Running) (hw : s.AtCode raw)
    (hr : translate_block s.cache s.mem s.ctx.pc = r) (hb : r.block = none)
    (hd : decode? raw = none) : Iterates c answer cpu s ⟨crash s.ctx, r.mem, r.cache, s.iter⟩

/-! ## Results of system calls -/

section Svc

variable {c : Word} {answer : HostAnswer} {cpu : Cpu} {s s' : RunState}

/-- What `SyscallHandler::execute` returns for the SVC at `pc`. -/
def svc_result (answer : HostAnswer) (s : RunState) : Word :=
  (SyscallHandler.execute answer (s.ctx.set_pc (s.ctx.pc + 4#64)) s.mem).1

/-- The round of an SVC is the SVC branch. -/
theorem iterates_svc_iff (hgo : s.Running) (hs : s.AtSvc) : Iterates c answer cpu s s' ↔
    s' = ⟨(run_svc answer (s.ctx, s.mem)).1, (run_svc answer (s.ctx, s.mem)).2, s.cache,
      s.iter + 1⟩ := by
  obtain ⟨hnone, raw, hread, hsvc⟩ := hs
  have hcode : ∀ raw', ¬ s.AtCode raw' := by
    rintro raw' ⟨-, hread', hnot⟩
    obtain rfl := Option.some.inj (hread.symm.trans hread')
    exact hnot hsvc
  constructor
  · intro h
    cases h with
    | hit _ hb _ => rw [hb] at hnone; cases hnone
    | svc _ _ hg => rw [hg]
    | translated _ hw _ _ _ => exact absurd hw (hcode _)
    | interpreted _ hw _ _ _ _ => exact absurd hw (hcode _)
    | unknown _ hw _ _ _ => exact absurd hw (hcode _)
  · rintro rfl
    exact .svc hgo ⟨hnone, raw, hread, hsvc⟩ rfl

/-- `x0` gets the low half of the result, sign-extended. -/
theorem run_svc_x0 (answer : HostAnswer) (s : RunState) :
    (run_svc answer (s.ctx, s.mem)).1.x 0 = ((svc_result answer s).setWidth 32).signExtend 64 := rfl

theorem signExtend_setWidth_eq_iff (r : Word) :
    (r.setWidth 32).signExtend 64 = r ↔ -2 ^ 31 ≤ r.toInt ∧ r.toInt < 2 ^ 31 := by
  rw [← BitVec.toInt_inj, BitVec.toInt_signExtend_of_le (by decide), BitVec.toInt_setWidth]
  constructor
  · intro h
    have hlo := Int.le_bmod (x := r.toNat) (by decide : 0 < 2 ^ 32)
    have hhi := Int.bmod_lt (x := r.toNat) (by decide : 0 < 2 ^ 32)
    omega
  · rintro ⟨hlo, hhi⟩
    have hr : (r.toNat : ℤ).bmod (2 ^ 32) = r.toInt.bmod (2 ^ 32) := by
      rw [BitVec.toInt_eq_toNat_bmod, Int.bmod_bmod_of_dvd (by decide)]
    rw [hr]
    exact Int.bmod_eq_of_le (by omega) (by omega)

/-- **Results of system calls**: the round leaves the result in `x0` exactly if it is in the range
of `int`. -/
theorem svc_x0_iff (hgo : s.Running) (hs : s.AtSvc) :
    ∃ s', (∀ t, Iterates c answer cpu s t ↔ t = s') ∧
      (s'.ctx.x 0 = svc_result answer s ↔
        -2 ^ 31 ≤ (svc_result answer s).toInt ∧ (svc_result answer s).toInt < 2 ^ 31) := by
  refine ⟨_, fun t => iterates_svc_iff hgo hs, ?_⟩
  rw [run_svc_x0]
  exact signExtend_setWidth_eq_iff _

/-- `svc #0` at 0, the guest asking for 4096 bytes at the address `hint` with the call `nr`. -/
def svc_state (nr hint : Word) : RunState where
  ctx := ((CPUContext.zero.set_x 8 nr).set_x 0 hint).set_x 1 4096#64
  mem := .new fun a => if a = 0#64 then 0x01#8 else if a = 3#64 then 0xD4#8 else 0#8
  cache := .init 4 0x10000#64
  iter := 0

/-- Every host call succeeds and gives 0. -/
def granted : HostAnswer := ⟨0#64, fun _ => 0#8, fun _ _ _ => true, true, fun _ => 0#8⟩

/-- At `mmap` with the hint 0x10000. -/
theorem svc_x0_iff_low :
    let s := svc_state 222#64 0x10000#64
    let cpu : Cpu := ⟨0#64, .cleared⟩
    ∃ s', (∀ t, Iterates 0x8000#64 granted cpu s t ↔ t = s') ∧
      (s'.ctx.x 0 = svc_result granted s ↔
        -2 ^ 31 ≤ (svc_result granted s).toInt ∧ (svc_result granted s).toInt < 2 ^ 31) := by
  intro s cpu
  have hgo : s.Running := ⟨by decide, by decide, by decide⟩
  have hs : s.AtSvc := ⟨by decide, 0xD4000001#32, by decide, by decide⟩
  exact svc_x0_iff hgo hs

/-- `mmap` with the hint 2^32 returns that address, and the guest gets 0. -/
theorem svc_x0_high :
    let s := svc_state 222#64 0x100000000#64
    s.Running ∧ s.AtSvc ∧ svc_result granted s = 0x100000000#64 ∧
      ∀ cpu s', Iterates 0x8000#64 granted cpu s s' → s'.ctx.x 0 = 0#64 := by
  intro s
  have hgo : s.Running := ⟨by decide, by decide, by decide⟩
  have hs : s.AtSvc := ⟨by decide, 0xD4000001#32, by decide, by decide⟩
  refine ⟨hgo, hs, by decide, fun cpu s' h => ?_⟩
  rw [(iterates_svc_iff hgo hs).mp h, run_svc_x0]
  decide

/-! ## What a system call leaves alone -/

open SyscallHandler

/-- The number of the system call. -/
def svc_nr (s : RunState) : BitVec 32 := (s.ctx.x 8).setWidth 32

/-- The context behind the SVC branch: `pc`, the exit fields, `x0`. -/
theorem run_svc_ctx (answer : HostAnswer) (s : RunState) :
    (run_svc answer (s.ctx, s.mem)).1 =
      (if is_exit (svc_nr s) then exit_ctx (s.ctx.set_pc (s.ctx.pc + 4#64))
        else s.ctx.set_pc (s.ctx.pc + 4#64)).set_x 0
          (((svc_result answer s).setWidth 32).signExtend 64) := by
  have h := execute_ctx answer (s.ctx.set_pc (s.ctx.pc + 4#64)) s.mem
  unfold run_svc handle_syscall svc_result
  dsimp only
  rw [h]
  rfl

theorem exit_ctx_word (ctx : CPUContext) {i : ℕ} (h : i ≠ 103) :
    (exit_ctx ctx).word i = ctx.word i := by
  simp [exit_ctx, CPUContext.set_state_flags, CPUContext.set_exit_status, h]

theorem exit_ctx_exit_status (ctx : CPUContext) :
    (exit_ctx ctx).exit_status = (ctx.x 0).setWidth 32 := by
  simp [exit_ctx]

theorem exit_ctx_state_flags (ctx : CPUContext) :
    (exit_ctx ctx).state_flags = ctx.state_flags ||| CPUContext.STATE_EXITED := by
  simp [exit_ctx]

/-- **Frame of a system call**: the round of an SVC moves `pc` behind it, writes `x0`, and for exit
and exit_group the exit status and the exit flag.  Every other word of the context stays: `x1` to
`x30`, `sp`, `lr`, `nzcv`, the vector registers, `fpcr`, `fpsr`, `tpidr_el0` and `tid`, and without
an exit the state flags. -/
theorem svc_frame (hgo : s.Running) (hs : s.AtSvc) :
    ∃ s', (∀ t, Iterates c answer cpu s t ↔ t = s') ∧ s'.ctx.pc = s.ctx.pc + 4#64 ∧
      s'.ctx.x 0 = ((svc_result answer s).setWidth 32).signExtend 64 ∧
      (∀ i, i ≠ 0 → i ≠ 32 → i ≠ 103 → s'.ctx.word i = s.ctx.word i) ∧
      if is_exit (svc_nr s) then
        s'.ctx.exit_status = (s.ctx.x 0).setWidth 32 ∧
          s'.ctx.state_flags = s.ctx.state_flags ||| CPUContext.STATE_EXITED
      else s'.ctx.word 103 = s.ctx.word 103 := by
  refine ⟨_, fun t => iterates_svc_iff hgo hs, ?_⟩
  dsimp only
  rw [run_svc_ctx]
  have hpc : ∀ i, i ≠ 32 → (s.ctx.set_pc (s.ctx.pc + 4#64)).word i = s.ctx.word i :=
    fun i hi => if_neg hi
  have hx0 : ∀ (ctx : CPUContext) (v : Word) (i : ℕ), i ≠ 0 → (ctx.set_x 0 v).word i = ctx.word i :=
    fun ctx v i hi => if_neg hi
  generalize ((svc_result answer s).setWidth 32).signExtend 64 = v
  generalize hctx : s.ctx.set_pc (s.ctx.pc + 4#64) = ctx at hpc ⊢
  have hat : ctx.word 32 = s.ctx.pc + 4#64 := by
    rw [← hctx]
    rfl
  split_ifs with hexit
  · have h103 : ((exit_ctx ctx).set_x 0 v).word 103 = (exit_ctx ctx).word 103 := rfl
    refine ⟨?_, rfl, fun i h0 h32 hlast => ?_, ?_, ?_⟩
    · rw [CPUContext.pc, hx0 _ _ _ (by decide), exit_ctx_word _ (by decide), hat]
    · rw [hx0 _ _ _ h0, exit_ctx_word _ hlast, hpc i h32]
    · rw [CPUContext.exit_status, h103, ← CPUContext.exit_status, exit_ctx_exit_status, CPUContext.x,
        CPUContext.x, hpc 0 (by decide)]
    · rw [CPUContext.state_flags, h103, ← CPUContext.state_flags, exit_ctx_state_flags,
        CPUContext.state_flags, CPUContext.state_flags, hpc 103 (by decide)]
  · refine ⟨?_, rfl, fun i h0 h32 _ => ?_, ?_⟩
    · rw [CPUContext.pc, hx0 _ _ _ (by decide), hat]
    · rw [hx0 _ _ _ h0, hpc i h32]
    · rw [hx0 _ _ _ (by decide), hpc 103 (by decide)]

/-- At `exit_group(3)`. -/
theorem svc_frame_exit_group :
    let s := svc_state 94#64 3#64
    let cpu : Cpu := ⟨0#64, .cleared⟩
    ∃ s', (∀ t, Iterates 0x8000#64 granted cpu s t ↔ t = s') ∧ s'.ctx.pc = 4#64 ∧
      s'.ctx.x 8 = 94#64 ∧ s'.ctx.exit_status = 3#32 := by
  intro s cpu
  have hgo : s.Running := ⟨by decide, by decide, by decide⟩
  have hs : s.AtSvc := ⟨by decide, 0xD4000001#32, by decide, by decide⟩
  have key : ∃ s', (∀ t, Iterates 0x8000#64 granted cpu s t ↔ t = s') ∧ _ := svc_frame hgo hs
  obtain ⟨s', hs', hpc, -, hword, hexit⟩ := key
  rw [if_pos (by decide)] at hexit
  exact ⟨s', hs', hpc, hword 8 (by decide) (by decide) (by decide), hexit.1⟩

end Svc

end ExecEngine

end Bbarm64
