import Bbarm64.Engine.ProgramRound

/-!
# Engine.Loop — runs of the engine

Whole runs of the loop from an empty cache.  Whatever the guest code is, as long as the rounds spare the
words and the slots of the blocks, a block that is found runs the code of the words that are at its
address now (`leaves_found_iff`).  A program of the A64 subset is executed as A64 says as long as no
branch back is left to the interpreter: the run of the engine is a run of the program, with the system
calls in the same order (`loop_follows_iff`).
-/

namespace Bbarm64

open X86 ARM64Decoder IRLowering SyscallHandler TranslationCache

namespace ExecEngine

/-- The runs of the loop from `s₀`, with what the host contributes to each round. -/
def Loop (c : Word) (s₀ : RunState) : List (RunState × HostAnswer × Cpu) → RunState → Prop :=
  Trace (· = s₀) fun s x s' => Iterates c x.1 x.2 s s'

section Loop

variable {c pool : Word} {s₀ s : RunState} {es : List (RunState × HostAnswer × Cpu)}

/-- The invariant rule of the loop. -/
theorem Loop.inv {I : RunState → Prop} {G : HostAnswer → Cpu → RunState → Prop} (h : Loop c s₀ es s)
    (h0 : I s₀) (hstep : ∀ answer cpu s s', I s → G answer cpu s → Iterates c answer cpu s s' → I s')
    (hg : ∀ e ∈ es, G e.2.1 e.2.2 e.1) : Trace.Throughout I es s :=
  Trace.inv_of_good (G := fun s x => G x.1 x.2 s) (by rintro _ rfl; exact h0)
    (fun s x s' hs hgood hi => hstep x.1 x.2 s s' hs hgood hi) h hg

theorem iterates_running {answer : HostAnswer} {cpu : Cpu} {s' : RunState}
    (h : Iterates c answer cpu s s') : s.Running := by
  cases h <;> assumption

theorem Loop.one {answer : HostAnswer} {cpu : Cpu} (h : Iterates c answer cpu s₀ s) :
    Loop c s₀ [(s₀, answer, cpu)] s := by
  have hnil : Loop c s₀ [] s₀ := .nil rfl
  exact Trace.snoc hnil h

end Loop

/-! ## Programs -/

/-- The engine in front of its first round, with a program in guest memory. -/
structure Starts (p : A64.Program) (c pool : Word) (s₀ : RunState) : Prop where
  layout : Layout p c pool
  program : ProgramAt s₀.mem.host p
  cache : ∃ capacity, s₀.cache = .init capacity pool

/-- The round starts at a word of the program, and its system call leaves the program and the engine
alone. -/
structure OnProgram (p : A64.Program) (c pool : Word) (answer : HostAnswer) (s : RunState) : Prop where
  at_word : (p.word s.ctx.pc).isSome
  tame : Tame p c pool answer s

section Programs

variable {p : A64.Program} {c pool : Word} {s₀ s : RunState}
  {es : List (RunState × HostAnswer × Cpu)}

theorem exists_addr {pc : Word} (h : (p.word pc).isSome) : ∃ k < p.words.length, pc = p.addr k := by
  obtain ⟨w, hw⟩ := Option.isSome_iff_exists.mp h
  obtain ⟨k, hk, he⟩ := A64.Program.word_eq_some_iff.mp hw
  exact ⟨k, (List.getElem?_eq_some_iff.mp hk).1, he⟩

theorem Starts.works (h : Starts p c pool s₀) : Works p pool s₀ := by
  obtain ⟨capacity, hcache⟩ := h.cache
  obtain ⟨ctx, mem, cache, iter⟩ := s₀
  obtain rfl : cache = .init capacity pool := hcache
  exact ⟨h.program, installed_init ctx mem iter, nofun⟩

theorem Starts.serves (h : Starts p c pool s₀) (hroom : Room p s₀.cache) : Serves p pool s₀ := by
  refine ⟨h.works, ?_⟩
  obtain ⟨capacity, hcache⟩ := h.cache
  rw [hcache] at hroom ⊢
  have hlive : live (.init capacity pool) = 0 := by rw [live, found_init, Set.ncard_empty]
  have hrows : RowsIn p (.init capacity pool) := fun _ b h => absurd h.symm (Option.some_ne_none b)
  refine ⟨⟨List.nodup_nil, rfl, rfl, rfl, ?_⟩, hroom, List.forall_mem_nil _, hrows⟩
  rw [hlive]
  exact Nat.zero_le _

theorem Starts.throughout (h : Starts p c pool s₀) (hrun : Loop c s₀ es s)
    (hes : ∀ e ∈ es, OnProgram p c pool e.2.1 e.1) : Trace.Throughout (Works p pool) es s := by
  refine Loop.inv (G := fun answer _ s => OnProgram p c pool answer s) hrun h.works ?_ hes
  intro answer cpu s s' hs hon hi
  obtain ⟨k, hlt, hk⟩ := exists_addr hon.at_word
  exact hs.round h.layout hk hlt hi hon.tame

theorem Starts.throughout_serves (h : Starts p c pool s₀) (hroom : Room p s₀.cache)
    (hrun : Loop c s₀ es s) (hes : ∀ e ∈ es, OnProgram p c pool e.2.1 e.1) :
    Trace.Throughout (Serves p pool) es s := by
  refine Loop.inv (G := fun answer _ s => OnProgram p c pool answer s) hrun (h.serves hroom) ?_ hes
  intro answer cpu s s' hs hon hi
  obtain ⟨k, hlt, hk⟩ := exists_addr hon.at_word
  exact hs.round h.layout hk hlt hi hon.tame

/-- The states of a run that does not crash. -/
theorem Loop.not_crashed (h : Loop c s₀ es s) (hgo : s.ctx.crashed = false) :
    Trace.Throughout (fun s => s.ctx.crashed = false) es s := by
  refine ⟨fun e he => ?_, hgo⟩
  obtain ⟨s', hi⟩ := Trace.exists_step h he
  exact (iterates_running hi).1

end Programs

/-- `movz x8, #93`, `movz x0, #3`, `svc #0` at 0x1000: the call is `exit(3)`. -/
def exit_program : A64.Program where
  base := 0x1000#64
  words := [0xD2800BA8#32, 0xD2800060#32, 0xD4000001#32]
  fits := by decide
  known := by
    simp only [List.forall_mem_cons]
    exact ⟨.inr (by decide), .inr (by decide), .inl (by decide), List.forall_mem_nil _⟩
  ends := by
    intro w hw
    obtain rfl := Option.mem_some.mp hw
    exact .inl (by decide)

def exit_start : RunState where
  ctx := CPUContext.zero.set_pc 0x1000#64
  mem := .new (fill (fun _ => 0#8) 0x1000#64 12 fun i =>
    byteAt (exit_program.words.getD (i / 4) 0#32) (i % 4))
  cache := .init 64 0x10000#64
  iter := 0

theorem exit_starts : Starts exit_program 0x8000#64 0x10000#64 exit_start := by
  have hlen : exit_program.words.length = 3 := rfl
  have hbase : exit_program.base = 0x1000#64 := rfl
  have hsize : DEFAULT_CODE_POOL_SIZE = 67108864 := rfl
  refine ⟨⟨mapped_pool, fun a hctx hpool => ?_, fun a hprog hown => ?_⟩, ?_, 64, rfl⟩
  · simp only [InCtx, InPool, CPUContext.words, hsize, BitVec.toNat_sub, BitVec.toNat_ofNat] at *
    omega
  · simp only [InProgram, Own, InCtx, InPool, CPUContext.words, hsize, hlen, hbase, BitVec.toNat_sub,
      BitVec.toNat_ofNat] at *
    omega
  · intro k w hw
    have hlt : k < 3 := (List.getElem?_eq_some_iff.mp hw).1
    obtain rfl | rfl | rfl : k = 0 ∨ k = 1 ∨ k = 2 := by omega
    all_goals
      obtain rfl := Option.some.inj hw
      decide

theorem exit_room : Room exit_program exit_start.cache := ⟨by decide, by decide⟩

theorem exit_running : exit_start.Running := ⟨by decide, by decide, by decide⟩

/-- The first round, which makes and runs the block of the two MOVZ. -/
theorem exit_round : exit_start.Translates ∧ ∃ cpu s, Iterates 0x8000#64 granted cpu exit_start s ∧
    OnProgram exit_program 0x8000#64 0x10000#64 granted exit_start ∧ s.ctx.crashed = false := by
  have hl := exit_starts.layout
  have hk : exit_start.ctx.pc = exit_program.addr 0 := rfl
  have hlt : 0 < exit_program.words.length := by decide
  have hword : exit_start.mem.read_u32 exit_start.ctx.pc = some 0xD2800BA8#32 := by decide
  have hat : exit_start.AtCode 0xD2800BA8#32 := ⟨rfl, hword, by decide⟩
  obtain ⟨htr, -⟩ := (exit_starts.serves exit_room).translate hl hk hlt hat
  obtain ⟨cpu, s, hi, hgo⟩ := exit_starts.works.progress hl hk hlt exit_running granted
  refine ⟨htr, cpu, s, hi, ⟨by decide, fun hsvc => ?_⟩, hgo⟩
  obtain ⟨-, raw, hread, hraw⟩ := hsvc
  obtain rfl := Option.some.inj (hword.symm.trans hread)
  exact absurd hraw (by decide)

/-! ## Found blocks -/

section Found

variable {c pool : Word} {s₀ s : RunState} {es : List (RunState × HostAnswer × Cpu)}

/-- **Blocks stay in place**: in a run from an empty cache whose rounds write neither to the words of
the blocks nor to their slots, every block that is found, in every state, has a slot of its own in the
pool with the code of the block of the words that are at its address now. -/
theorem installed_loop {capacity : ℕ} (hcache : s₀.cache = .init capacity pool)
    (h : Loop c s₀ es s) (hes : ∀ e ∈ es, SparesBlocks c e.2.1 e.2.2 e.1) :
    Trace.Throughout (Installed pool) es s := by
  obtain ⟨ctx, mem, cache, iter⟩ := s₀
  obtain rfl : cache = .init capacity pool := hcache
  exact h.inv (installed_init ctx mem iter) (fun _ _ _ _ hs hgood hi => hs.round hi hgood) hes

/-- Behind the first block of `exit_program`. -/
theorem installed_loop_exit : ∃ e s, Loop 0x8000#64 exit_start [e] s ∧
    Trace.Throughout (Installed 0x10000#64) [e] s := by
  have hk : exit_start.ctx.pc = exit_program.addr 0 := rfl
  have hlt : 0 < exit_program.words.length := by decide
  obtain ⟨-, cpu, s, hi, hon, -⟩ := exit_round
  have hspares := exit_starts.works.spares exit_starts.layout hk hlt hi hon.tame
  exact ⟨_, s, .one hi, installed_loop rfl (.one hi) (List.forall_mem_singleton.mpr hspares)⟩

/-- **Found blocks run the code of the current words**: in such a run, if the code of the instructions
that are now at the address of a found block fits a slot and does not store there, the host CPU leaves
the block with what running their IR gives, or by a fault somewhere in their code. -/
theorem leaves_found_iff {capacity : ℕ} (hcache : s₀.cache = .init capacity pool)
    (hmapped : Mapped pool) (hctx : ∀ a, InCtx c a → ¬ InPool pool a) (h : Loop c s₀ es s)
    (hes : ∀ e ∈ es, SparesBlocks c e.2.1 e.2.2 e.1) {pc : Word} {block : BlockInfo} {cpu : Cpu}
    {g' : Guest} (hb : (s.cache.lookup pc).1 = some block) (hfits : Fits (current s pc block) pc)
    (he : Enters c block.host_code (s.ctx, s.mem) cpu)
    (hst : ∀ i t, Performs (encodeAll (blockInstrs (current s pc block) pc)) cpu.st i t →
      ∀ a, InSlot a block.host_code → ¬ i.StoresAt t a) :
    let ds := current s pc block
    Leaves c (s.ctx, s.mem) cpu g' ↔
      (∃ ctx, let m := (runIr (fallthrough ds pc) (blockIr ds pc) (enter cpu.st)).mem
        CtxAt m c ctx ∧ g' = (ctx, { s.mem with host := m })) ∨
      ∃ b ctx, Steps (encodeAll (blockInstrs ds pc)) ⟨0, cpu.st⟩ b ∧ CtxAt b.st.mem c ctx ∧
        g' = (crash ctx, { s.mem with host := b.st.mem }) := by
  obtain ⟨ctx, mem, cache, iter⟩ := s₀
  obtain rfl : cache = .init capacity pool := hcache
  have hin := h.inv (installed_init ctx mem iter) (fun _ _ _ _ hs hgood hi => hs.round hi hgood) hes
  have hundisturbed := hin.2.undisturbed hmapped hctx hb hfits he hst
  have hret := @returns_iff (fallthrough (current s pc block) pc) (blockIr (current s pc block) pc)
    cpu.st
  rw [leaves_iff hundisturbed he.ip]
  refine or_congr_left ⟨?_, ?_⟩
  · rintro ⟨s', ctx, hs', hat, rfl⟩
    obtain rfl := hret.mp hs'
    exact ⟨ctx, hat, rfl⟩
  · rintro ⟨ctx, hat, rfl⟩
    exact ⟨_, ctx, hret.mpr rfl, hat, rfl⟩

/-- The block of `exit_program`, in the state behind its first run. -/
theorem leaves_found_iff_exit : ∃ e s block, let cpu := entering 0x8000#64 block.host_code (s.ctx, s.mem)
    Loop 0x8000#64 exit_start [e] s ∧ (s.cache.lookup 0x1000#64).1 = some block ∧
    ∀ g', Leaves 0x8000#64 (s.ctx, s.mem) cpu g' ↔
      (∃ ctx, let m := (runIr (fallthrough (current s 0x1000#64 block) 0x1000#64)
          (blockIr (current s 0x1000#64 block) 0x1000#64) (enter cpu.st)).mem
        CtxAt m 0x8000#64 ctx ∧ g' = (ctx, { s.mem with host := m })) ∨
      ∃ b ctx, Steps (encodeAll (blockInstrs (current s 0x1000#64 block) 0x1000#64)) ⟨0, cpu.st⟩ b ∧
        CtxAt b.st.mem 0x8000#64 ctx ∧ g' = (crash ctx, { s.mem with host := b.st.mem }) := by
  have hl := exit_starts.layout
  have hk : exit_start.ctx.pc = exit_program.addr 0 := rfl
  have hlt : 0 < exit_program.words.length := by decide
  obtain ⟨htr, cpu, s, hi, hon, -⟩ := exit_round
  have hserves := (exit_starts.serves exit_room).round hl hk hlt hi hon.tame
  have hspares := exit_starts.works.spares hl hk hlt hi hon.tame
  -- the block of the round is found
  have hkeys : exit_start.ctx.pc ∈ s.cache.keys := by
    rcases ((exit_starts.serves exit_room).keys hl hk hlt hi).2 with ⟨-, -, hkeys⟩ | ⟨hno, -⟩
    · rw [hkeys]
      exact List.mem_append_right _ (List.mem_singleton_self _)
    · exact absurd htr hno
  have hview := hserves.cache.valid _ hkeys
  rw [← lookup_translated, Option.isSome_map] at hview
  obtain ⟨block, hb⟩ := Option.isSome_iff_exists.mp hview
  obtain ⟨k, is, -, hrow, -, hds⟩ := hserves.works.current hb
  have hlen := hds.decodes.length_eq ▸ hrow.le
  have hslot : ∀ a, InSlot a block.host_code → ¬ InCtx 0x8000#64 a := by
    intro a ha hctx
    have hv : s.cache.view exit_start.ctx.pc = some block.translated := by
      rw [← lookup_translated, hb]
      rfl
    exact hl.ctx_pool a hctx (hserves.works.holds (.found hv ha))
  refine ⟨_, s, block, .one hi, hb, fun g' => ?_⟩
  refine leaves_found_iff rfl mapped_pool hl.ctx_pool (.one hi) (List.forall_mem_singleton.mpr hspares)
    hb (hds.fits hlen) (enters_entering _ _ _) ?_
  intro i t hp a ha hs
  exact hslot a ha (hds.performs_storesAt hp hs)

end Found

/-! ## Refinement of A64 -/

/-- The memory without the bytes of the engine. -/
def visible (c pool : Word) (m : Mem) : Mem := fun a => if Own c pool a then 0#8 else m a

instance (s : RunState) : Decidable s.AtSvc :=
  decidable_of_iff ((s.cache.lookup s.ctx.pc).1.isNone = true ∧
      (s.mem.read_u32 s.ctx.pc).any (fun raw => decide (is_svc raw)) = true) <| by
    simp [RunState.AtSvc, Option.any_eq_true]

/-- The system call of the round, as the guest sees it. -/
def svc_call (c pool : Word) (e : RunState × HostAnswer × Cpu) : Option (A64.Call Mem) :=
  if e.1.AtSvc then
    some {
      reg := guest_regs e.1.ctx
      mem := visible c pool e.1.mem.host
      result := ((svc_result e.2.1 e.1).setWidth 32).signExtend 64
      mem' := visible c pool (run_svc e.2.1 (e.1.ctx, e.1.mem)).2.host }
  else none

/-- The system calls of the run. -/
def svc_calls (c pool : Word) (es : List (RunState × HostAnswer × Cpu)) : List (A64.Call Mem) :=
  es.filterMap (svc_call c pool)

section Refinement

variable {p : A64.Program} {c pool : Word} {answer : HostAnswer} {cpu : Cpu} {s₀ s s' : RunState}
  {es : List (RunState × HostAnswer × Cpu)} {k : ℕ}

/-- The words that the run executes. -/
def executed (es : List (RunState × HostAnswer × Cpu)) : ℕ := (es.map fun e => e.1.steps).sum

/-- The run of the engine as a run of the program, with at least one and up to 64 words in each round;
the words of the context behind `pc` are as they were, up to the flags and the exit status. -/
structure Simulates (p : A64.Program) (c pool : Word) (s₀ : RunState)
    (es : List (RunState × HostAnswer × Cpu)) (s : RunState) : Prop where
  runs : A64.Runs p.word (guest s₀.ctx) (visible c pool s₀.mem.host) (executed es)
    (svc_calls c pool es) (guest s.ctx) (visible c pool s.mem.host)
  le : es.length ≤ executed es
  le_mul : executed es ≤ max_instr * es.length
  rest : ∀ i, 32 < i → i < 103 → s.ctx.word i = s₀.ctx.word i

/-- The round interprets a branch back. -/
def RunState.GoesBack (s : RunState) : Prop :=
  ∃ raw i, s.Interprets raw ∧ A64.Insn.ofWord? raw = some i ∧ Back i

theorem not_goesBack (h : ∀ raw, ¬ s.Interprets raw) : ¬ s.GoesBack := by
  rintro ⟨raw, i, hi, -⟩
  exact h raw hi

theorem RunState.Interprets.goesBack_iff {raw : BitVec 32} {i : A64.Insn} (h : s.Interprets raw)
    (hi : A64.Insn.ofWord? raw = some i) : s.GoesBack ↔ Back i := by
  refine ⟨?_, fun hb => ⟨raw, i, h, hi, hb⟩⟩
  rintro ⟨raw', j, ⟨⟨-, hread, -⟩, -⟩, hj, hb⟩
  obtain rfl := Option.some.inj (hread.symm.trans h.1.2.1)
  obtain rfl := Option.some.inj (hj.symm.trans hi)
  exact hb

/-- Behind an SVC, the words but for `x0` and the last one. -/
theorem run_svc_word (answer : HostAnswer) (s : RunState) {i : ℕ} (h0 : i ≠ 0) (h103 : i ≠ 103) :
    (run_svc answer (s.ctx, s.mem)).1.word i = (s.ctx.set_pc (s.ctx.pc + 4#64)).word i := by
  rw [run_svc_ctx, CPUContext.set_x, CPUContext.set_word, if_neg h0]
  split_ifs
  · exact exit_ctx_word _ h103
  · rfl

/-- The state behind an SVC. -/
theorem guest_run_svc (answer : HostAnswer) (s : RunState) :
    guest (run_svc answer (s.ctx, s.mem)).1 =
      (guest s.ctx).answer (((svc_result answer s).setWidth 32).signExtend 64) := by
  have hword := @run_svc_word answer s
  have hx0 := run_svc_x0 answer s
  generalize (run_svc answer (s.ctx, s.mem)).1 = ctx at hword hx0 ⊢
  generalize ((svc_result answer s).setWidth 32).signExtend 64 = v at hx0 ⊢
  have hreg : guest_regs ctx = fun q => if q = 0#5 then v else guest_regs s.ctx q := by
    funext q
    have hlt := q.isLt
    by_cases hq : q = 0#5
    · rw [if_pos hq, hq]
      exact hx0
    · have hne : q.toNat ≠ 0 := fun h => hq (BitVec.eq_of_toNat_eq h)
      have h32 : q.toNat ≠ 32 := by omega
      rw [if_neg hq, guest_regs, hword hne (by omega)]
      exact if_neg h32
  have hpc : ctx.pc = s.ctx.pc + 4#64 := hword (by decide) (by decide)
  rw [guest, hreg, hpc]
  rfl

theorem svc_calls_snoc (e : RunState × HostAnswer × Cpu) :
    svc_calls c pool (es ++ [e]) = svc_calls c pool es ++ (svc_call c pool e).toList := by
  rw [svc_calls, svc_calls, List.filterMap_append]
  cases h : svc_call c pool e <;> simp [h]

theorem executed_snoc (s : RunState) (x : HostAnswer × Cpu) :
    executed (es ++ [(s, x)]) = executed es + s.steps := by
  rw [executed, executed, List.map_append, List.sum_append]
  rfl

/-- Behind a number of steps. -/
theorem Simulates.extend {l : List (A64.Call Mem)} (h : Simulates p c pool s₀ es s)
    (hcalls : (svc_call c pool (s, answer, cpu)).toList = l)
    (hruns : A64.Runs p.word (guest s₀.ctx) (visible c pool s₀.mem.host) (executed es + s.steps)
      (svc_calls c pool es ++ l) (guest s'.ctx) (visible c pool s'.mem.host))
    (hpos : 1 ≤ s.steps) (hle : s.steps ≤ max_instr)
    (hrest : ∀ i, 32 < i → i < 103 → s'.ctx.word i = s.ctx.word i) :
    Simulates p c pool s₀ (es ++ [(s, answer, cpu)]) s' := by
  have hmax : max_instr = 64 := rfl
  have hle₀ := h.le
  have hle_mul := h.le_mul
  rw [hmax] at hle_mul
  refine ⟨?_, ?_, ?_, fun i h32 h103 => (hrest i h32 h103).trans (h.rest i h32 h103)⟩
  · rw [executed_snoc, svc_calls_snoc, hcalls]
    exact hruns
  · rw [executed_snoc, List.length_append, List.length_singleton]
    omega
  · rw [executed_snoc, List.length_append, List.length_singleton, hmax]
    omega

theorem word_guest {w : BitVec 32} (hk : s.ctx.pc = p.addr k) (hw : p.words[k]? = some w) :
    p.word (guest s.ctx).pc = some w := by
  rw [guest, hk, A64.Program.word_addr (List.getElem?_eq_some_iff.mp hw).1, hw]

/-- A round that answers a system call. -/
theorem Simulates.svc {w : BitVec 32} (h : Simulates p c pool s₀ es s) (hk : s.ctx.pc = p.addr k)
    (hw : p.words[k]? = some w) (hs : A64.isSvc w) (hat : s.AtSvc) :
    Simulates p c pool s₀ (es ++ [(s, answer, cpu)])
      ⟨(run_svc answer (s.ctx, s.mem)).1, (run_svc answer (s.ctx, s.mem)).2, s.cache, s.iter + 1⟩ := by
  have hsteps := steps_svc hat
  refine h.extend (by rw [svc_call, if_pos hat, Option.toList_some]) ?_ ?_ ?_ fun i h32 h103 => ?_
  · rw [hsteps]
    dsimp only
    rw [guest_run_svc]
    exact h.runs.svc (word_guest hk hw) hs _ _
  · rw [hsteps]
  · rw [hsteps]
    decide
  · dsimp only
    rw [run_svc_word answer s (by omega) (by omega)]
    exact if_neg (by omega)

/-- A round that runs a block. -/
theorem Simulates.block {is : List A64.Insn} {block : BlockInfo} {mem : MemoryManager}
    (h : Simulates p c pool s₀ es s) (hl : Layout p c pool) (hk : s.ctx.pc = p.addr k)
    (hrow : RowAt p k is) (hsteps : s.steps = is.length) (hat : ¬ s.AtSvc)
    (hready : Ready pool is block (s.ctx, mem))
    (hx : Executes c cpu block (s.ctx, mem) (s'.ctx, s'.mem))
    (hmem : ∀ a, ¬ InPool pool a → mem.host a = s.mem.host a) (hgo : s'.ctx.crashed = false) :
    Simulates p c pool s₀ (es ++ [(s, answer, cpu)]) s' := by
  have hf := (hready.executes hl hx).2 hgo
  have hvisible : visible c pool s'.mem.host = visible c pool s.mem.host := by
    funext a
    unfold visible
    split_ifs with hown
    · rfl
    · have hout : 8 * CPUContext.words ≤ (a - c).toNat :=
        Nat.le_of_not_lt fun hctx => hown (.inl hctx)
      exact (hf.outside a hout).trans (hmem a fun hpool => hown (.inr hpool))
  have hcall : (svc_call c pool (s, answer, cpu)).toList = [] := by
    rw [svc_call, if_neg hat, Option.toList_none]
  refine h.extend hcall ?_ ?_ ?_ fun i h32 h103 => ?_
  · rw [hsteps, hvisible, hf.state, List.append_nil]
    exact h.runs.insns hk hrow.insns hrow.inner
  · rw [hsteps]
    exact List.length_pos_iff.mpr hrow.nonempty
  · rw [hsteps]
    exact hrow.le
  · have hwords : CPUContext.words = 104 := rfl
    exact hf.rest i h32 (by omega)

/-- A round of the interpreter. -/
theorem Simulates.interpreted_iff {w : BitVec 32} {i : A64.Insn} {d : DecodedInstr}
    (h : Simulates p c pool s₀ es s) (hk : s.ctx.pc = p.addr k) (hw : p.words[k]? = some w)
    (hs : ¬ A64.isSvc w) (hi : A64.Insn.ofWord? w = some i) (hd : Decodes i d) (hat : s.Interprets w)
    (hg : (s'.ctx, s'.mem) = execute_decoded (s.ctx, s.mem) d) :
    Simulates p c pool s₀ (es ++ [(s, answer, cpu)]) s' ↔ ¬ Back i := by
  obtain ⟨hmem, hrest⟩ := interp_rest hd (s.ctx, s.mem)
  have hctx : s'.ctx = (execute_decoded (s.ctx, s.mem) d).1 := congrArg Prod.fst hg
  have hmem' : s'.mem = s.mem := (congrArg Prod.snd hg).trans hmem
  have hsteps := steps_interpreted hat
  have hcall : (svc_call c pool (s, answer, cpu)).toList = [] := by
    rw [svc_call, if_neg hat.1.not_atSvc, Option.toList_none]
  have hruns := h.runs.insn (word_guest hk hw) hs hi
  constructor
  · -- behind a branch back the program is at one word and the interpreter at another
    intro hsim hb
    have hruns' := hsim.runs
    rw [executed_snoc, svc_calls_snoc, hcall, List.append_nil, hsteps] at hruns'
    obtain ⟨-, hstate, -⟩ := hruns'.unique hruns List.prefix_rfl List.prefix_rfl
    refine interp_back hd hb (s.ctx, s.mem) ?_
    rw [← hctx, ← hstate]
    rfl
  · intro hb
    refine h.extend hcall ?_ (by omega) ?_ fun j h32 _ => ?_
    · rw [hsteps, List.append_nil, hctx, hmem', interp_insn hd hb]
      exact hruns
    · rw [hsteps]
      decide
    · rw [hctx]
      exact hrest j h32

/-- **One round** is a number of steps of the program, unless it interprets a branch back. -/
theorem Simulates.round_iff (h : Simulates p c pool s₀ es s) (hl : Layout p c pool)
    (hk : s.ctx.pc = p.addr k) (hr : RoundAt p c pool answer cpu k s s')
    (hgo : s'.ctx.crashed = false) :
    Simulates p c pool s₀ (es ++ [(s, answer, cpu)]) s' ↔ ¬ s.GoesBack := by
  cases hr with
  | svc hw hs hat he =>
    subst he
    exact iff_of_true (h.svc hk hw hs hat) (not_goesBack fun raw hi => hi.1.not_atSvc hat)
  | block hrow hsteps hat hint hready hx hmem =>
    exact iff_of_true (h.block hl hk hrow hsteps hat hready hx hmem hgo) (not_goesBack hint)
  | interpreted hw hs hi hd hat hg =>
    rw [hat.goesBack_iff hi]
    exact h.interpreted_iff hk hw hs hi hd hat hg

/-- A whole run, by the step of each round. -/
theorem Starts.simulates_iff (hs : Starts p c pool s₀) (h : Loop c s₀ es s)
    (hes : ∀ e ∈ es, OnProgram p c pool e.2.1 e.1) (hgo : s.ctx.crashed = false) :
    Trace.Always (Simulates p c pool s₀) es s ↔ ∀ e ∈ es, ¬ e.1.GoesBack := by
  have hworks := hs.throughout h hes
  have hcrash := h.not_crashed hgo
  refine Trace.always_iff (I := fun s => Works p pool s ∧ s.ctx.crashed = false)
    (P := fun s x => OnProgram p c pool x.1 s) (G := fun s _ => ¬ s.GoesBack) ?_ ?_ h
    ⟨fun e he => ⟨hworks.1 e he, hcrash.1 e he⟩, hworks.2, hcrash.2⟩ hes
  · rintro _ rfl
    exact ⟨.refl, Nat.le_refl 0, Nat.zero_le _, fun _ _ _ => rfl⟩
  · intro es s x s' hi hi' hon hround hsim
    obtain ⟨k, hlt, hk⟩ := exists_addr hon.at_word
    exact hsim.round_iff hs.layout hk (hi.1.round_cases hk hlt hround) hi'.2

/-- With room, no word is left to the interpreter. -/
theorem Starts.simulates (hs : Starts p c pool s₀) (hroom : Room p s₀.cache) (h : Loop c s₀ es s)
    (hes : ∀ e ∈ es, OnProgram p c pool e.2.1 e.1) (hgo : s.ctx.crashed = false) :
    Simulates p c pool s₀ es s := by
  refine ((hs.simulates_iff h hes hgo).mpr ?_).2
  rintro e he ⟨raw, i, ⟨hat, hnone⟩, -⟩
  obtain ⟨k, hlt, hk⟩ := exists_addr (hes e he).at_word
  have hserves := (hs.throughout_serves hroom h hes).1 e he
  have hsome := (hserves.translate hs.layout hk hlt hat).1.2
  rw [hnone] at hsome
  cases hsome

/-- **The engine executes the program**, whatever the capacity of the cache and the length of the
program: a run of the loop that starts each round at a word of the program, and whose system calls
leave the program and the engine alone, is a run of the program as A64 has it, word for word, up to
each of its states, exactly if no branch back is left to the interpreter.  The system calls of the
program are those of the engine, with the registers and the memory that the guest sees.  Nothing is
said of a last round that crashes. -/
theorem loop_follows_iff (hs : Starts p c pool s₀) (h : Loop c s₀ es s)
    (hes : ∀ e ∈ es, OnProgram p c pool e.2.1 e.1) (hgo : s.ctx.crashed = false) :
    Trace.Always (Simulates p c pool s₀) es s ↔ ∀ e ∈ es, ¬ e.1.GoesBack := hs.simulates_iff h hes hgo

/-- The first round of `exit_program`. -/
theorem loop_follows_iff_exit : ∃ e s, Loop 0x8000#64 exit_start [e] s ∧
    (Trace.Always (Simulates exit_program 0x8000#64 0x10000#64 exit_start) [e] s ↔
      ∀ e' ∈ [e], ¬ e'.1.GoesBack) := by
  obtain ⟨-, cpu, s, hi, hon, hgo⟩ := exit_round
  exact ⟨_, s, .one hi, loop_follows_iff exit_starts (.one hi) (List.forall_mem_singleton.mpr hon) hgo⟩

/-- **The engine does not get stuck**: wherever such a run has come to a word of the program, for every
answer to a system call there is a round that does not crash.  With a slot and a place in the block map
for each word, no word is left to the interpreter. -/
theorem loop_progress (hs : Starts p c pool s₀) (h : Loop c s₀ es s)
    (hes : ∀ e ∈ es, OnProgram p c pool e.2.1 e.1) (hgo : s.Running)
    (hat : (p.word s.ctx.pc).isSome) :
    (∀ answer, ∃ cpu s', Iterates c answer cpu s s' ∧ s'.ctx.crashed = false) ∧
      (Room p s₀.cache → ∀ raw, ¬ s.Interprets raw) := by
  obtain ⟨k, hlt, hk⟩ := exists_addr hat
  refine ⟨(hs.throughout h hes).2.progress hs.layout hk hlt hgo, ?_⟩
  rintro hroom raw ⟨hcode, hnone⟩
  have hsome := ((hs.throughout_serves hroom h hes).2.translate hs.layout hk hlt hcode).1.2
  rw [hnone] at hsome
  cases hsome

/-- In front of the first round of `exit_program`. -/
theorem loop_progress_exit : (∃ cpu s', Iterates 0x8000#64 granted cpu exit_start s' ∧
    s'.ctx.crashed = false) ∧ ∀ raw, ¬ exit_start.Interprets raw := by
  obtain ⟨hgo, hroom⟩ :=
    loop_progress exit_starts (.nil rfl) (List.forall_mem_nil _) exit_running (by decide)
  exact ⟨hgo granted, hroom exit_room⟩

instance (s : RunState) : Decidable s.Translates :=
  decidable_of_iff (((s.cache.lookup s.ctx.pc).1.isNone = true ∧
      (s.mem.read_u32 s.ctx.pc).any (fun raw => !decide (is_svc raw)) = true) ∧
      (translate_block s.cache s.mem s.ctx.pc).block.isSome = true) <| by
    simp [RunState.Translates, RunState.AtCode, Option.any_eq_true]

/-- The addresses of the translations, in their order. -/
def translated (es : List (RunState × HostAnswer × Cpu)) : List Word :=
  (es.filter fun e => e.1.Translates).map (·.1.ctx.pc)

/-- **Each address is translated once**: in such a run with room the block map has the addresses of the
translations, all different, and the pool is used up by a slot for each. -/
theorem loop_translates_once (hs : Starts p c pool s₀) (hroom : Room p s₀.cache) (h : Loop c s₀ es s)
    (hes : ∀ e ∈ es, OnProgram p c pool e.2.1 e.1) :
    s.cache.keys = translated es ∧ (translated es).Nodup ∧
      (translated es).length ≤ p.words.length ∧
      s.cache.code_pool_used_ = slot_size * (translated es).length := by
  have hserves := hs.throughout_serves hroom h hes
  have hkeys : s.cache.keys = translated es := by
    induction h with
    | nil he =>
      obtain rfl := he
      obtain ⟨_, hcache⟩ := hs.cache
      rw [hcache]
      rfl
    | @snoc es s s' x h hi ih =>
      obtain ⟨hbefore, -⟩ := Trace.throughout_snoc.mp hserves
      have hon := hes (s, x) (List.mem_append_right _ (List.mem_singleton_self _))
      obtain ⟨k, hlt, hk⟩ := exists_addr hon.at_word
      have ih := ih (fun e he => hes e (List.mem_append_left _ he)) hbefore
      rw [translated, List.filter_append, List.map_append, ← translated, ← ih]
      rcases (hbefore.2.keys hs.layout hk hlt hi).2 with ⟨htr, -, he⟩ | ⟨hno, he⟩
      · simp [he, htr]
      · simp [he, hno]
  have hcache := hserves.2.cache
  have hle := hcache.length_le
  have hslots := hroom.slots
  have hused := hcache.accounts.used
  rw [← hkeys]
  refine ⟨rfl, hcache.accounts.nodup, hle, ?_⟩
  rwa [Nat.min_eq_left (Nat.le_trans hle hslots)] at hused

/-- Behind the first round of `exit_program`. -/
theorem loop_translates_once_exit : ∃ e s, Loop 0x8000#64 exit_start [e] s ∧
    s.cache.keys = translated [e] ∧ s.cache.code_pool_used_ ≤ slot_size * 3 := by
  obtain ⟨-, cpu, s, hi, hon, -⟩ := exit_round
  obtain ⟨hkeys, -, hle, hused⟩ :=
    loop_translates_once exit_starts exit_room (.one hi) (List.forall_mem_singleton.mpr hon)
  refine ⟨_, s, .one hi, hkeys, ?_⟩
  rw [hused]
  exact Nat.mul_le_mul_left slot_size hle

end Refinement

end ExecEngine

end Bbarm64
