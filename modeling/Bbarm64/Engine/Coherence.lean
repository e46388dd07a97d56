import Bbarm64.Cache.CacheLog
import Bbarm64.Engine.Capacity
import Bbarm64.Engine.Footprint

/-!
# Engine.Coherence — translations and the guest words they were made from

A run carries along which words each block was translated from.  Nothing in the engine takes a block
out of the cache when its words change: `invalidate` and `invalidate_range` have no caller, no region
is ever marked as translated, and dropping the list of translated pages touches no block.  So the
blocks stay in step with memory as long as no round writes to their words (`coherent_run`), and
`mmap` over translated code leaves a stale block (`stale_after_mmap`).
-/

namespace Bbarm64

open X86 ARM64Decoder IRBuilder TranslationCache

namespace ExecEngine

/-! ## Guest words -/

/-- The `n` words at `pc` and up. -/
def words (m : Mem) (pc : Word) (n : ℕ) : List (BitVec 32) :=
  (List.range n).map fun i => read32 m (off pc (4 * i))

/-- The address lies in the `n` words at `pc`. -/
def InWords (a pc : Word) (n : ℕ) : Prop := (a - pc).toNat < 4 * n

theorem words_congr {m m' : Mem} {pc : Word} {n : ℕ} (hn : n < 2 ^ 32)
    (h : ∀ a, InWords a pc n → m' a = m a) : words m' pc n = words m pc n := by
  refine List.map_congr_left fun i hi => read32_congr fun j hj => h _ ?_
  have hi : i < n := List.mem_range.mp hi
  have h0 : off pc 0 = pc := BitVec.add_zero pc
  have hsub := off_sub_toNat (c := pc) (o := 4 * i + j) (p := 0) (Nat.zero_le _) (by omega)
  rw [h0] at hsub
  rw [InWords, off_add, hsub]
  omega

theorem off_succ (pc : Word) (i : ℕ) : off pc (4 * (i + 1)) = off (pc + 4#64) (4 * i) := by
  rw [show 4 * (i + 1) = 4 + 4 * i by omega, ← off_add]
  rfl

theorem words_succ (m : Mem) (pc : Word) (n : ℕ) :
    words m pc (n + 1) = read32 m pc :: words m (pc + 4#64) n := by
  have h0 : off pc (4 * 0) = pc := BitVec.add_zero pc
  rw [words, List.range_succ_eq_map, List.map_cons, List.map_map, h0]
  simp only [Function.comp_def, Nat.succ_eq_add_one, off_succ]
  rfl

theorem collect_length_le {mem : MemoryManager} {n : ℕ} {pc : Word} :
    (collect mem n pc).length ≤ n := by
  induction n generalizing pc with
  | zero => exact Nat.le_refl 0
  | succ n ih =>
    have hc := collect_collects mem n pc
    generalize collect mem (n + 1) pc = ds at hc
    cases hc with
    | stop => exact Nat.zero_le _
    | last => exact Nat.succ_le_succ (Nat.zero_le n)
    | more => exact Nat.succ_le_succ ih

/-- The decode loop reads the words at `pc`. -/
theorem collect_raw {mem : MemoryManager} {n : ℕ} {pc : Word} :
    (collect mem n pc).map (·.raw) = words mem.host pc (collect mem n pc).length := by
  induction n generalizing pc with
  | zero => rfl
  | succ n ih =>
    have hc := collect_collects mem n pc
    generalize collect mem (n + 1) pc = ds at hc
    cases hc with
    | stop => rfl
    | last hraw _ hd _ =>
      obtain rfl := Option.some.inj hraw
      rw [List.length_singleton, words_succ, List.map_singleton, decode?_raw hd]
      rfl
    | more hraw _ hd _ =>
      obtain rfl := Option.some.inj hraw
      rw [List.length_cons, words_succ, List.map_cons, decode?_raw hd, ih]

/-- The block counts the collected instructions: 64 at most. -/
theorem collect_count {mem : MemoryManager} {pc : Word} {ir_block : IRBlock}
    (h : IRBuilder.build (collect mem max_instr pc) pc = some ir_block) :
    ir_block.arm_instr_count.toNat = (collect mem max_instr pc).length := by
  have hle : (collect mem max_instr pc).length ≤ max_instr := collect_length_le
  rw [build_count collect_wellDecoded collect_endsLast h, BitVec.toNat_ofNat]
  unfold max_instr at hle ⊢
  omega

/-! ## The cache behind a translation -/

/-- `translate_block` as operations on the cache: none when there is no code, a request that is refused,
or a request and the insert of the new block. -/
inductive Caches (t : TranslationCache) (mem : MemoryManager) (pc : Word) :
    Option BlockInfo → TranslationCache → Prop where
  | empty (h : collect mem max_instr pc = []) : Caches t mem pc none t
  | full (h : collect mem max_instr pc ≠ []) (hnull : (t.alloc_host_code slot_size).1 = 0#64) :
    Caches t mem pc none (t.apply (.alloc_host_code slot_size))
  | done {block : BlockInfo} (h : collect mem max_instr pc ≠ [])
    (hnull : (t.alloc_host_code slot_size).1 ≠ 0#64)
    (hcount : block.arm_instr_count.toNat = (collect mem max_instr pc).length) :
    Caches t mem pc (some block) ((t.apply (.alloc_host_code slot_size)).apply
      (.insert pc block.host_code block.host_code_size block.arm_instr_count))

theorem translate_block_caches (t : TranslationCache) (mem : MemoryManager) (pc : Word) :
    Caches t mem pc (translate_block t mem pc).block (translate_block t mem pc).cache := by
  obtain ⟨ir_block, hbuild, -⟩ := build_spec (collect mem max_instr pc) pc
  have hcount := collect_count hbuild
  have hfull := @Caches.full t mem pc
  have hdone := fun block => @Caches.done t mem pc block
  unfold translate_block
  simp only [hbuild]
  by_cases hds : collect mem max_instr pc = []
  · rw [if_pos (by rw [hds]; rfl)]
    exact .empty hds
  rw [if_neg (by simpa using hds)]
  rw [TranslationCache.apply] at hfull
  simp only [TranslationCache.apply] at hdone
  generalize t.alloc_host_code slot_size = al at hfull hdone ⊢
  by_cases hnull : al.1 = 0#64
  · rw [if_pos hnull]
    exact hfull hds hnull
  · rw [if_neg hnull]
    exact hdone ⟨pc, al.1, _, ir_block.arm_instr_count, 0#64, 0#64, true, false⟩ hds hnull hcount

/-- A block in the view after `translate_block` was there before, or it is the new one. -/
theorem translate_block_view {t : TranslationCache} {mem : MemoryManager} {pc pc' : Word}
    {b : Translated} (h : (translate_block t mem pc).cache.view pc' = some b) :
    t.view pc' = some b ∨ (translate_block t mem pc).block.isSome ∧ pc' = pc ∧
      b.arm_instr_count.toNat = (collect mem max_instr pc).length := by
  have hc := translate_block_caches t mem pc
  have halloc : ∀ b, (t.apply (.alloc_host_code slot_size)).view pc' = some b →
      t.view pc' = some b := fun b hb => (view_of_apply _ hb).resolve_right List.not_mem_nil
  generalize (translate_block t mem pc).block = ob at hc ⊢
  generalize (translate_block t mem pc).cache = t' at hc h
  cases hc with
  | empty => exact .inl h
  | full => exact .inl (halloc b h)
  | done _ _ hcount =>
    rcases view_of_apply _ h with h | h
    · exact .inl (halloc b h)
    · obtain ⟨rfl, rfl⟩ := Event.insert.inj (List.mem_singleton.mp h)
      exact .inr ⟨rfl, rfl, hcount⟩

/-! ## Runs -/

/-- The words that the last translation at an address was made from. -/
abbrev Sources := Word → List (BitVec 32)

/-- The states at the head of the loop in runs from an empty cache, with the sources of the blocks;
`P` holds of every round. -/
inductive Run (c : Word) (P : HostAnswer → Cpu → RunState → Prop) :
    RunState → Sources → Prop where
  | start {capacity : ℕ} {pool : Word} (ctx : CPUContext) (mem : MemoryManager) :
    Run c P ⟨ctx, mem, .init capacity pool, 0⟩ fun _ => []
  | round {answer : HostAnswer} {cpu : Cpu} {s s' : RunState} {source : Sources}
    (h : Run c P s source) (hi : Iterates c answer cpu s s') (hp : P answer cpu s)
    (ht : ¬ s.Translates) : Run c P s' source
  | translation {answer : HostAnswer} {cpu : Cpu} {s s' : RunState} {source : Sources}
    (h : Run c P s source) (hi : Iterates c answer cpu s s') (hp : P answer cpu s)
    (ht : s.Translates) : Run c P s'
      (Function.update source s.ctx.pc ((collect s.mem max_instr s.ctx.pc).map (·.raw)))

/-- For every block that `lookup` finds, the words at its address are those it was made from. -/
def Coherent (s : RunState) (source : Sources) : Prop :=
  ∀ pc info, (s.cache.lookup pc).1 = some info →
    words s.mem.host pc info.arm_instr_count.toNat = source pc

/-- The address lies in the words of a block that `lookup` finds, or of the block that this round
makes. -/
inductive RunState.Covers (s : RunState) (a : Word) : Prop where
  | found {pc : Word} {info : BlockInfo} (h : (s.cache.lookup pc).1 = some info)
    (ha : InWords a pc info.arm_instr_count.toNat)
  | made (ht : s.Translates)
    (ha : InWords a s.ctx.pc (collect s.mem max_instr s.ctx.pc).length)

/-- The round writes to no word of a block. -/
def Spares (c : Word) (answer : HostAnswer) (cpu : Cpu) (s : RunState) : Prop :=
  ∀ a, s.Writes c answer cpu a → ¬ s.Covers a

section Step

variable {c : Word} {answer : HostAnswer} {cpu : Cpu} {s s' : RunState} {source : Sources}

theorem coherent_iff : Coherent s source ↔ ∀ pc b, s.cache.view pc = some b →
    words s.mem.host pc b.arm_instr_count.toNat = source pc := by
  constructor
  · intro h pc b hb
    rw [← lookup_translated] at hb
    obtain ⟨info, hl, rfl⟩ := Option.map_eq_some_iff.mp hb
    exact h pc info hl
  · intro h pc info hl
    exact h pc info.translated (by rw [← lookup_translated, hl]; rfl)

theorem covers_of_view {pc a : Word} {b : Translated} (hb : s.cache.view pc = some b)
    (ha : InWords a pc b.arm_instr_count.toNat) : s.Covers a := by
  rw [← lookup_translated] at hb
  obtain ⟨info, hl, rfl⟩ := Option.map_eq_some_iff.mp hb
  exact .found hl ha

/-- Without a new block, the frame is all there is to show. -/
theorem coherent_of_frame (hc : Coherent s source)
    (hview : ∀ pc b, s'.cache.view pc = some b → s.cache.view pc = some b)
    (hframe : ∀ a, s.Covers a → s'.mem.host a = s.mem.host a) : Coherent s' source := by
  refine coherent_iff.mpr fun pc b hb => ?_
  have hb' := hview pc b hb
  rw [words_congr b.arm_instr_count.isLt fun a ha => hframe a (covers_of_view hb' ha)]
  exact coherent_iff.mp hc pc b hb'

/-- With a new block at `pc`, where there was none. -/
theorem coherent_of_translation (hc : Coherent s source) (ht : s.Translates)
    (hview : ∀ pc b, s'.cache.view pc = some b → s.cache.view pc = some b ∨ pc = s.ctx.pc ∧
      b.arm_instr_count.toNat = (collect s.mem max_instr s.ctx.pc).length)
    (hframe : ∀ a, s.Covers a → s'.mem.host a = s.mem.host a) :
    Coherent s' (Function.update source s.ctx.pc
      ((collect s.mem max_instr s.ctx.pc).map (·.raw))) := by
  have hnone : s.cache.view s.ctx.pc = none := by
    obtain ⟨raw, hl, -⟩ := ht.1
    rw [← lookup_translated, hl]
    rfl
  refine coherent_iff.mpr fun pc b hb => ?_
  rcases hview pc b hb with hb' | ⟨rfl, hlen⟩
  · have hne : pc ≠ s.ctx.pc := by
      rintro rfl
      rw [hnone] at hb'
      cases hb'
    rw [words_congr b.arm_instr_count.isLt fun a ha => hframe a (covers_of_view hb' ha),
      Function.update_of_ne hne]
    exact coherent_iff.mp hc pc b hb'
  · have hle : (collect s.mem max_instr s.ctx.pc).length ≤ max_instr := collect_length_le
    have hlt : max_instr < 2 ^ 32 := by decide
    rw [hlen, Function.update_self, collect_raw]
    exact words_congr (by omega) fun a ha => hframe a (.made ht ha)

/-- What a round adds to the view: nothing, or the block that it makes. -/
theorem iterates_view (h : Iterates c answer cpu s s') {pc : Word} {b : Translated}
    (hb : s'.cache.view pc = some b) : s.cache.view pc = some b ∨ s.Translates ∧ pc = s.ctx.pc ∧
      b.arm_instr_count.toNat = (collect s.mem max_instr s.ctx.pc).length := by
  have htr : ∀ raw, s.AtCode raw → (translate_block s.cache s.mem s.ctx.pc).cache.view pc = some b →
      s.cache.view pc = some b ∨ s.Translates ∧ pc = s.ctx.pc ∧
        b.arm_instr_count.toNat = (collect s.mem max_instr s.ctx.pc).length := fun raw hw hb =>
    (translate_block_view hb).imp_right fun ⟨hsome, hrest⟩ => ⟨⟨⟨raw, hw⟩, hsome⟩, hrest⟩
  cases h with
  | hit _ hl _ =>
    have hcache : _ = _ := congrArg Prod.snd hl
    subst hcache
    exact .inl ((@view_of_apply s.cache (.lookup s.ctx.pc) pc b hb).resolve_right List.not_mem_nil)
  | svc _ _ _ => exact .inl hb
  | translated _ hw hr _ _ =>
    subst hr
    exact htr _ hw hb
  | interpreted _ hw hr _ _ _ =>
    subst hr
    exact htr _ hw hb
  | unknown _ hw hr _ _ =>
    subst hr
    exact htr _ hw hb

theorem frame_of_spares (h : Iterates c answer cpu s s') (hp : Spares c answer cpu s) (a : Word)
    (ha : s.Covers a) : s'.mem.host a = s.mem.host a :=
  iterates_host h fun hw => hp a hw ha

end Step

/-- **Coherence**: in a run whose rounds all leave the words of the blocks alone, every block that
`lookup` finds is the translation of the words in memory. -/
theorem coherent_run {c : Word} {s : RunState} {source : Sources} (h : Run c (Spares c) s source) :
    Coherent s source := by
  induction h with
  | start ctx mem => exact coherent_iff.mpr fun pc b hb => nomatch hb
  | round _ hi hp ht ih =>
    refine coherent_of_frame ih (fun pc b hb => ?_) (frame_of_spares hi hp)
    exact (iterates_view hi hb).resolve_right fun h => ht h.1
  | translation _ hi hp ht ih =>
    refine coherent_of_translation ih ht (fun pc b hb => ?_) (frame_of_spares hi hp)
    exact (iterates_view hi hb).imp_right And.right

/-! ## Translated code that maps a page over itself -/

/-- `movz x8, #222`, `movz x0, #0x1000`, `movz x1, #0x1000`, `svc #0`: the call is `mmap` of the page
at 0x1000. -/
def remap : List (BitVec 32) := [0xD2801BC8#32, 0xD2820000#32, 0xD2820001#32, 0xD4000001#32]

/-- The program at 0x1000. -/
def remap_start : RunState where
  ctx := CPUContext.zero.set_pc 0x1000#64
  mem := .new (fill (fun _ => 0#8) 0x1000#64 16 fun i => byteAt (remap.getD (i / 4) 0#32) (i % 4))
  cache := .init 64 0x10000#64
  iter := 0

def remap_translation : Translation :=
  translate_block remap_start.cache remap_start.mem remap_start.ctx.pc

def remap_block : BlockInfo := remap_translation.block.getD {}

/-- The host CPU at the entry of the block, with the context object at 0x8000. -/
def remap_cpu : Cpu where
  ip := 0x10000#64
  st := { State.cleared with
    reg := fun r => if r = rdi then 0x8000#64 else if r = rsp then 0x40000#64 else 0#64
    mem := writeN 8 remap_translation.mem.host (off 0x8000#64 256) 0x1000#64 }

/-- The host CPU at the `ret` of the block. -/
def remap_return : Cpu := (cyclesN 9 remap_cpu).getD remap_cpu

/-- The engine behind the block, at the SVC. -/
def remap_svc : RunState where
  ctx := ⟨fun i => X86.word remap_return.st.mem 0x8000#64 (8 * i)⟩
  mem := { remap_translation.mem with host := remap_return.st.mem }
  cache := remap_translation.cache
  iter := 1

/-- The values of the two rounds: the block of three instructions and its nine cycles to the `ret`, which
store outside of the program; and the SVC behind it, which clears the words of the block. -/
@[mk_iff]
structure RemapRuns : Prop where
  fresh : (remap_start.cache.lookup remap_start.ctx.pc).1 = none
  word : remap_start.mem.read_u32 remap_start.ctx.pc = some 0xD2801BC8#32
  source : (collect remap_start.mem max_instr 0x1000#64).map (·.raw) =
    [0xD2801BC8#32, 0xD2820000#32, 0xD2820001#32]
  made : remap_translation.block.isSome = true
  host_code : remap_block.host_code = 0x10000#64
  valid : remap_block.is_valid = true
  cycles : (cyclesN 9 remap_cpu).isSome = true
  ret : remap_return.next = some (.ret, 1)
  ends : (cyclesN 10 remap_cpu).isNone = true
  stores : ∀ k < 10, (storeAddrN k remap_cpu).all fun x => 0x2000 ≤ x.toNat ∧ x.toNat + 8 ≤ 0x100000
  crashed : remap_svc.ctx.crashed = false
  exited : remap_svc.ctx.exited = false
  svc_fresh : (remap_svc.cache.lookup remap_svc.ctx.pc).1 = none
  svc_word : remap_svc.mem.read_u32 remap_svc.ctx.pc = some 0xD4000001#32
  kept : (remap_svc.cache.lookup 0x1000#64).1.map (·.arm_instr_count) = some 3#32
  mapped : words (run_svc granted (remap_svc.ctx, remap_svc.mem)).2.host 0x1000#64 3 =
    [0#32, 0#32, 0#32]

theorem RemapRuns.atCode (hr : RemapRuns) : remap_start.AtCode 0xD2801BC8#32 :=
  ⟨hr.fresh, hr.word, by decide⟩

theorem RemapRuns.block_eq (hr : RemapRuns) : remap_translation.block = some remap_block :=
  (Option.getD_of_ne_none (Option.isSome_iff_ne_none.mp hr.made) _).symm

theorem RemapRuns.at_ret (hr : RemapRuns) : cyclesN 9 remap_cpu = some remap_return :=
  (Option.getD_of_ne_none (Option.isSome_iff_ne_none.mp hr.cycles) _).symm

theorem RemapRuns.translates (hr : RemapRuns) : remap_start.Translates :=
  ⟨⟨_, hr.atCode⟩, Option.isSome_iff_exists.mpr ⟨_, hr.block_eq⟩⟩

/-- Neither the program nor the code of the block is in the context object. -/
theorem RemapRuns.ctx_zero (hr : RemapRuns) {a : Word}
    (ha : (a - 0x8000#64).toNat < 8 * CPUContext.words) : remap_translation.mem.host a = 0#8 := by
  have hlo : 0x8000 ≤ a.toNat ∧ a.toNat < 0x8340 := by
    simp only [BitVec.toNat_sub, BitVec.toNat_ofNat, CPUContext.words] at ha
    have := a.isLt
    omega
  have hslot : remap_translation.mem.host a = remap_start.mem.host a := by
    by_contra hne
    obtain ⟨block, hb, hin⟩ := (translate_block_stores _ _ _).2 a hne
    obtain rfl := Option.some.inj (hr.block_eq.symm.trans hb)
    rw [InSlot, hr.host_code, slot_size] at hin
    simp only [BitVec.toNat_sub, BitVec.toNat_ofNat] at hin
    omega
  have hfar : 16 ≤ (a - 0x1000#64).toNat := by
    simp only [BitVec.toNat_sub, BitVec.toNat_ofNat]
    omega
  have hprogram : remap_start.mem.host = fill (fun _ => 0#8) 0x1000#64 16 fun i =>
      byteAt (remap.getD (i / 4) 0#32) (i % 4) := rfl
  rw [hslot, hprogram, fill_of_le hfar]

theorem RemapRuns.enters (hr : RemapRuns) : Enters 0x8000#64 remap_block.host_code
    (remap_start.ctx, remap_translation.mem) remap_cpu := by
  have hctx : CtxAt remap_cpu.st.mem 0x8000#64 remap_start.ctx :=
    CtxAt.write (k := 32) (ctxAt_zero_of fun a => hr.ctx_zero) (by decide) 0x1000#64
  exact ⟨hr.host_code.symm, rfl, hctx, outside_write _ _ (by decide) (by decide)⟩

theorem RemapRuns.executes (hr : RemapRuns) : Executes 0x8000#64 remap_cpu remap_block
    (remap_start.ctx, remap_translation.mem) (remap_svc.ctx, remap_svc.mem) := by
  have hcode : remap_block.host_code ≠ 0#64 := by
    rw [hr.host_code]
    decide
  exact .run hcode hr.valid hr.enters
    (.ret (cycles_of_cyclesN hr.at_ret) hr.ret fun _ _ => rfl)

theorem RemapRuns.iterates (hr : RemapRuns) : Iterates 0x8000#64 granted remap_cpu remap_start remap_svc := by
  have hgo : remap_start.Running := ⟨by decide, by decide, by decide⟩
  exact .translated hgo hr.atCode rfl hr.block_eq hr.executes

/-- Nothing the first round writes to lies in the three words of the new block. -/
theorem RemapRuns.spares (hr : RemapRuns) : Spares 0x8000#64 granted remap_cpu remap_start := by
  intro a hw hc
  have ha : (a - 0x1000#64).toNat < 12 := by
    cases hc with
    | found h _ => cases h
    | made _ ha =>
      have hlen : 4 * (collect remap_start.mem max_instr 0x1000#64).length = 12 := by
        rw [← List.length_map, hr.source]
        rfl
      exact Nat.lt_of_lt_of_eq ha hlen
  have hout : ∀ {x : Word} {n : ℕ}, (a - x).toNat < n → 0x2000 ≤ x.toNat → x.toNat + n ≤ 0x100000 →
      False := by
    intro x n hx hlo hhi
    simp only [BitVec.toNat_sub, BitVec.toNat_ofNat] at ha hx
    have := a.isLt
    omega
  cases hw with
  | ctx h => exact hout h (by decide) (by decide)
  | block _ h =>
    have hend : cyclesN 10 remap_cpu = none := Option.isNone_iff_eq_none.mp hr.ends
    obtain ⟨k, hk, x, hx, hax⟩ := storeAddrN_of_stores hend h
    have hx' := hr.stores k hk
    rw [hx, Option.all_some, decide_eq_true_iff] at hx'
    exact hout hax hx'.1 hx'.2
  | slot _ hb h =>
    obtain rfl := Option.some.inj (hr.block_eq.symm.trans hb)
    rw [InSlot, hr.host_code] at h
    exact hout h (by decide) (by decide)
  | interpreted _ hb _ _ => cases hr.block_eq.symm.trans hb
  | svc hs _ =>
    obtain ⟨-, raw, hread, hsvc⟩ := hs
    obtain rfl := Option.some.inj (hr.atCode.2.1.symm.trans hread)
    exact hr.atCode.2.2 hsvc

-- one evaluation, in which the values share the translation and the cycles
theorem remap_runs : RemapRuns := by
  rw [remapRuns_iff]
  decide +kernel

/-- The first round. -/
theorem coherent_run_remap :
    Coherent remap_svc (Function.update (fun _ => []) 0x1000#64
      ((collect remap_start.mem max_instr 0x1000#64).map (·.raw))) :=
  coherent_run (.translation (.start _ _) remap_runs.iterates remap_runs.spares remap_runs.translates)

/-- Behind the `mmap`, `lookup` still finds the block of three instructions, whose words are gone. -/
theorem stale_after_mmap : ∃ s source, Run 0x8000#64 (fun _ _ _ => True) s source ∧
    (s.cache.lookup 0x1000#64).1.map (·.arm_instr_count) = some 3#32 ∧
    words s.mem.host 0x1000#64 3 = [0#32, 0#32, 0#32] ∧
    source 0x1000#64 = [0xD2801BC8#32, 0xD2820000#32, 0xD2820001#32] := by
  have hr := remap_runs
  have hgo : remap_svc.Running := ⟨hr.crashed, hr.exited, by decide⟩
  have hs : remap_svc.AtSvc := ⟨hr.svc_fresh, 0xD4000001#32, hr.svc_word, by decide⟩
  have hnot : ¬ remap_svc.Translates := by
    rintro ⟨⟨raw, -, hread, hcode⟩, -⟩
    obtain ⟨-, raw', hread', hsvc⟩ := hs
    obtain rfl := Option.some.inj (hread.symm.trans hread')
    exact hcode hsvc
  have h₁ : Run 0x8000#64 (fun _ _ _ => True) remap_svc _ :=
    .translation (.start _ _) hr.iterates trivial hr.translates
  have hi : Iterates 0x8000#64 granted remap_cpu remap_svc _ := .svc hgo hs rfl
  refine ⟨_, _, .round h₁ hi trivial hnot, hr.kept, ?_, ?_⟩
  · dsimp only
    exact hr.mapped
  · exact (Function.update_self 0x1000#64 _ _).trans hr.source

end ExecEngine

end Bbarm64
