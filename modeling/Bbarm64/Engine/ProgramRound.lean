import Bbarm64.Engine.Agreement
import Bbarm64.Engine.Installed

/-!
# Engine.ProgramRound — a round of the loop on a program

A program of the A64 subset lies in guest memory, apart from the context object and the code pool.  At
a word of it a round answers an SVC, runs a block, found or new, of the instructions from that word on,
or interprets the word when the pool is used up (`Works.round_cases`), and the cache, the pool and the
words stay as this needs them (`Works.round`).  Each address is translated once at most, so a program
with no more words than the block map takes and the pool has slots is never interpreted (`Serves`).
-/

namespace Bbarm64

open X86 ARM64Decoder SyscallHandler TranslationCache

namespace ExecEngine

/-! ## The layout -/

def InProgram (p : A64.Program) (a : Word) : Prop := (a - p.base).toNat < 4 * p.words.length

/-- The bytes of the engine. -/
def Own (c pool a : Word) : Prop := InCtx c a ∨ InPool pool a

instance (c pool a : Word) : Decidable (Own c pool a) :=
  inferInstanceAs (Decidable ((_ : ℕ) < _ ∨ (_ : ℕ) < _))

/-- The program, the context object and the pool lie apart. -/
structure Layout (p : A64.Program) (c pool : Word) : Prop where
  mapped : Mapped pool
  ctx_pool : ∀ a, InCtx c a → ¬ InPool pool a
  program : ∀ a, InProgram p a → ¬ Own c pool a

section Addresses

variable {p : A64.Program} {c pool a : Word}

/-- The words of a block are in the program. -/
theorem inProgram_of_inWords {k n : ℕ} (hk : k + n ≤ p.words.length)
    (ha : InWords a (p.addr k) n) : InProgram p a := by
  have hfits := p.fits
  have hlt := a.isLt
  have hbase := p.base.isLt
  unfold InWords A64.Program.addr at ha
  unfold InProgram
  rw [BitVec.toNat_sub, BitVec.toNat_add, BitVec.toNat_ofNat] at ha
  rw [BitVec.toNat_sub]
  omega

end Addresses

/-! ## Rows of the program -/

/-- The instructions from word `k` on make up a block: at least one and up to 64, a branch last if at
all. -/
structure RowAt (p : A64.Program) (k : ℕ) (is : List A64.Insn) : Prop where
  insns : p.InsnsAt k is
  nonempty : is ≠ []
  le : is.length ≤ max_instr
  inner : ∀ i ∈ is.dropLast, i.isBranch = false

section Rows

variable {p : A64.Program} {k : ℕ} {is : List A64.Insn}

theorem RowAt.add_length_le (h : RowAt p k is) : k + is.length ≤ p.words.length := by
  have hpos := List.length_pos_iff.mpr h.nonempty
  have hlast := List.getElem?_eq_getElem (Nat.sub_lt hpos Nat.one_pos)
  obtain ⟨w, hw, -⟩ := h.insns _ _ hlast
  have hlt := (List.getElem?_eq_some_iff.mp hw).1
  omega

/-- Where the words of the program are in memory, they decode to the row. -/
theorem row_of_insnsAt {m : Mem} (hp : ProgramAt m p) (h : p.InsnsAt k is)
    (hinner : ∀ i ∈ is.dropLast, i.isBranch = false) :
    Row is (decoded (words m (p.addr k) is.length)) := by
  refine ⟨?_, hinner⟩
  clear hinner
  induction is generalizing k with
  | nil => exact .nil
  | cons i is ih =>
    obtain ⟨w, hw, -, hi⟩ := h 0 i rfl
    obtain ⟨d, hd, hdec⟩ := decodes_of_ofWord? hi
    rw [Nat.add_zero] at hw
    rw [List.length_cons, words_succ, hp k w hw, ← p.addr_succ, decoded, List.filterMap_cons, hd]
    exact .cons ⟨hdec, decode?_wellDecoded hd⟩ (ih h.tail)

/-- What the decode loop collects at a word that is no SVC. -/
theorem rowAt_collect {mem : MemoryManager} (hp : ProgramAt mem.host p) {w : BitVec 32}
    (hw : p.words[k]? = some w) (hs : ¬ A64.isSvc w) :
    ∃ is, RowAt p k is ∧ Row is (collect mem max_instr (p.addr k)) := by
  obtain ⟨is, his, hrow⟩ := collect_program hp max_instr (List.getElem?_eq_some_iff.mp hw).1
  have hlen : is.length = (collect mem max_instr (p.addr k)).length := hrow.decodes.length_eq
  have hne : collect mem max_instr (p.addr k) ≠ [] := collect_program_ne_nil hp hw hs
  refine ⟨is, ⟨his, ?_, by rw [hlen]; exact collect_length_le, hrow.inner⟩, hrow⟩
  rintro rfl
  exact hne (List.eq_nil_of_length_eq_zero hlen.symm)

end Rows

/-! ## The cache -/

section Cache

variable {t : TranslationCache} {pc : Word}

theorem put_keys_of_mem {m : List (Word × BlockInfo)} {k : Word} (h : k ∈ m.map (·.1))
    (info : BlockInfo) : (put m k info).map (·.1) = m.map (·.1) := by
  have hany : m.any (fun e => e.1 = k) = true := by simpa using h
  rw [put, if_pos hany, List.map_map]
  refine List.map_congr_left fun e _ => ?_
  by_cases he : e.1 = k <;> simp [he]

theorem put_of_notMem {m : List (Word × BlockInfo)} {k : Word} (h : k ∉ m.map (·.1))
    (info : BlockInfo) : put m k info = m ++ [(k, info)] := by
  have hany : ¬ m.any (fun e => e.1 = k) = true := by simpa using h
  rw [put, if_neg hany]

/-- `lookup` only counts. -/
theorem keys_lookup (t : TranslationCache) (pc : Word) : (t.lookup pc).2.keys = t.keys := by
  rcases lookup_cases t pc with ⟨info, he, -, hl⟩ | ⟨hl, -⟩
  · rw [hl]
    exact put_keys_of_mem ((entry_isSome _ pc).mp (by rw [he]; rfl)) _
  · rw [hl]

theorem view_lookup (t : TranslationCache) (pc : Word) : (t.lookup pc).2.view = t.view := by
  rcases lookup_cases t pc with ⟨info, he, hv, hl⟩ | ⟨hl, -⟩
  · rw [hl]
    funext pc'
    rw [view, view, entry_put]
    split_ifs with hpc
    · rw [hpc, he]
      simp [Option.filter, BlockInfo.found, BlockInfo.translated, hv]
    · rfl
  · rw [hl]

theorem capacity_lookup (t : TranslationCache) (pc : Word) :
    (t.lookup pc).2.capacity_ = t.capacity_ := by
  rcases lookup_cases t pc with ⟨info, -, -, hl⟩ | ⟨hl, -⟩ <;> rw [hl]

/-- What an insert of a new key does where there is room. -/
structure Adds (t : TranslationCache) (pc : Word) (t' : TranslationCache) : Prop where
  keys : t'.keys = t.keys ++ [pc]
  capacity : t'.capacity_ = t.capacity_
  here : (t'.view pc).isSome
  there : ∀ pc' ≠ pc, t'.view pc' = t.view pc'

theorem insert_adds (hroom : t.keys.length < t.capacity_) (hpc : pc ∉ t.keys) (host_code : Word)
    (n k : BitVec 32) : Adds t pc (t.insert pc host_code n k) := by
  have hlen : ¬ t.block_map_.length ≥ t.capacity_ := by
    rw [keys, List.length_map] at hroom
    omega
  have hput := fun info => put_of_notMem (m := t.block_map_) (k := pc) hpc info
  refine ⟨?_, ?_, ?_, fun pc' hne => ?_⟩
  · simp only [TranslationCache.insert, if_neg hlen, keys, hput, List.map_append, List.map_singleton]
  · simp only [TranslationCache.insert, if_neg hlen]
  · simp [TranslationCache.insert, if_neg hlen, view, entry_put, Option.filter]
  · simp only [TranslationCache.insert, if_neg hlen, view, entry_put, if_neg hne]

end Cache

/-- The blocks that are found are rows of the program. -/
def RowsIn (p : A64.Program) (t : TranslationCache) : Prop :=
  ∀ pc b, t.view pc = some b → ∃ k is, pc = p.addr k ∧ RowAt p k is ∧
    is.length = b.arm_instr_count.toNat

/-- Each word can have a place in the block map and a slot. -/
structure Room (p : A64.Program) (t : TranslationCache) : Prop where
  capacity : p.words.length ≤ t.capacity_
  slots : p.words.length ≤ pool_slots

/-- The cache on a program with room: every key is a word of the program, and its block is found. -/
structure ProgramCache (p : A64.Program) (pool : Word) (t : TranslationCache) : Prop where
  accounts : Accounts pool t.keys.length t
  room : Room p t
  valid : ∀ pc ∈ t.keys, (t.view pc).isSome
  rows : RowsIn p t

section ProgramCache

variable {p : A64.Program} {pool : Word} {t : TranslationCache} {k : ℕ}

theorem ProgramCache.lookup (h : ProgramCache p pool t) (pc : Word) :
    ProgramCache p pool (t.lookup pc).2 := by
  have hop : OnBlocks (.lookup pc) := trivial
  have haccounts : Accounts pool t.keys.length (t.lookup pc).2 := h.accounts.on_blocks hop
  refine ⟨?_, ?_, ?_, ?_⟩
  · rwa [keys_lookup]
  · exact ⟨by rw [capacity_lookup]; exact h.room.capacity, h.room.slots⟩
  · rw [keys_lookup, view_lookup]
    exact h.valid
  · rw [RowsIn, view_lookup]
    exact h.rows

theorem ProgramCache.notMem_keys (h : ProgramCache p pool t) {pc : Word}
    (hnone : (t.lookup pc).1 = none) : pc ∉ t.keys := by
  intro hmem
  have hview := h.valid pc hmem
  rw [← lookup_translated, hnone] at hview
  cases hview

/-- Each key is an address of the program. -/
theorem ProgramCache.subset (h : ProgramCache p pool t) :
    t.keys ⊆ (List.range p.words.length).map p.addr := by
  intro pc hmem
  obtain ⟨b, hb⟩ := Option.isSome_iff_exists.mp (h.valid pc hmem)
  obtain ⟨k, is, rfl, hrow, -⟩ := h.rows pc b hb
  have hle := hrow.add_length_le
  have hpos := List.length_pos_iff.mpr hrow.nonempty
  exact List.mem_map_of_mem (List.mem_range.mpr (by omega))

theorem ProgramCache.length_le (h : ProgramCache p pool t) : t.keys.length ≤ p.words.length := by
  have hle := (h.accounts.nodup.subperm h.subset).length_le
  rwa [List.length_map, List.length_range] at hle

/-- So a new one finds room. -/
theorem ProgramCache.length_lt (h : ProgramCache p pool t) (hk : k < p.words.length)
    (hpc : p.addr k ∉ t.keys) : t.keys.length < p.words.length := by
  have hsub : p.addr k :: t.keys ⊆ (List.range p.words.length).map p.addr :=
    List.cons_subset.mpr ⟨List.mem_map_of_mem (List.mem_range.mpr hk), h.subset⟩
  have hnodup : (p.addr k :: t.keys).Nodup := List.nodup_cons.mpr ⟨hpc, h.accounts.nodup⟩
  have hle := (hnodup.subperm hsub).length_le
  rwa [List.length_map, List.length_range] at hle

/-- **A translation** at a new address has a slot, and the cache takes the block up. -/
theorem ProgramCache.translate (h : ProgramCache p pool t) (hmapped : Mapped pool)
    {mem : MemoryManager} (hp : ProgramAt mem.host p) {w : BitVec 32} (hw : p.words[k]? = some w)
    (hs : ¬ A64.isSvc w) (hnone : (t.lookup (p.addr k)).1 = none) :
    ∃ block, (translate_block t mem (p.addr k)).block = some block ∧
      ProgramCache p pool (translate_block t mem (p.addr k)).cache ∧
      (translate_block t mem (p.addr k)).cache.keys = t.keys ++ [p.addr k] := by
  obtain ⟨is, hrow, hds⟩ := rowAt_collect hp hw hs
  have hlen : is.length = (collect mem max_instr (p.addr k)).length := hds.decodes.length_eq
  have hne : collect mem max_instr (p.addr k) ≠ [] := collect_program_ne_nil hp hw hs
  have hkeys := h.notMem_keys hnone
  have hlt := h.length_lt (List.getElem?_eq_some_iff.mp hw).1 hkeys
  have hslots := h.room.slots
  have hcapacity := h.room.capacity
  have haccounts := h.accounts.translate_block hmapped mem (p.addr k)
  have htranslates : (Use.translate_block mem (p.addr k)).translates = true := by
    rw [Use.translates, Bool.not_eq_true', List.isEmpty_eq_false_iff]
    exact hne
  rw [if_pos htranslates] at haccounts
  have hview := @translate_block_view t mem (p.addr k)
  have hc := translate_block_caches t mem (p.addr k)
  generalize (translate_block t mem (p.addr k)).block = ob at hc hview ⊢
  generalize (translate_block t mem (p.addr k)).cache = t' at hc hview haccounts ⊢
  rcases h.accounts.alloc hmapped with ⟨-, hsome, hcache⟩ | ⟨hfull, -, -⟩
  · cases hc with
    | empty hnil => exact absurd hnil hne
    | full _ hnull => exact absurd hnull hsome
    | @done block _ _ hcount =>
      refine ⟨block, rfl, ?_⟩
      -- behind the request, the blocks are the same
      obtain ⟨t₁, ht₁⟩ : ∃ t₁, t.apply (.alloc_host_code slot_size) = t₁ := ⟨_, rfl⟩
      have hk₁ : t₁.keys = t.keys := by rw [← ht₁, apply, hcache]; rfl
      have hcap₁ : t₁.capacity_ = t.capacity_ := by rw [← ht₁, apply, hcache]
      have hview₁ : t₁.view = t.view := by rw [← ht₁, apply, hcache]; rfl
      rw [ht₁] at haccounts hview ⊢
      have hadds : Adds t₁ (p.addr k) (t₁.apply (.insert (p.addr k) block.host_code
          block.host_code_size block.arm_instr_count)) :=
        insert_adds (by rw [hk₁, hcap₁]; omega) (by rw [hk₁]; exact hkeys) _ _ _
      generalize t₁.apply _ = t' at haccounts hview hadds ⊢
      obtain ⟨hk', hcap', hhere, hthere⟩ := hadds
      rw [hk₁] at hk'
      rw [hview₁] at hthere
      refine ⟨⟨?_, ⟨by rw [hcap', hcap₁]; exact hcapacity, hslots⟩, fun pc hpc => ?_,
        fun pc b hb => ?_⟩, hk'⟩
      · rwa [hk', List.length_append, List.length_singleton]
      · by_cases he : pc = p.addr k
        · rw [he]
          exact hhere
        · rw [hthere pc he]
          rw [hk', List.mem_append, List.mem_singleton] at hpc
          exact h.valid pc (hpc.resolve_right he)
      · rcases hview hb with hb | ⟨-, rfl, hcount'⟩
        · exact h.rows pc b hb
        · exact ⟨k, is, rfl, hrow, hlen.trans hcount'.symm⟩
  · omega

end ProgramCache

/-! ## Blocks -/

/-- The block runs the instructions `is`: its code is in its slot, in the memory of `g`. -/
structure Ready (pool : Word) (is : List A64.Insn) (block : BlockInfo) (g : Guest) : Prop where
  le : is.length ≤ max_instr
  slot : ∃ o, block.host_code = off pool o ∧ o + slot_size ≤ DEFAULT_CODE_POOL_SIZE
  valid : block.is_valid = true
  code : ∃ ds host, Row is ds ∧
    CodeAt g.2.host block.host_code (block_code ds g.1.pc block.host_code host)

section Ready

variable {p : A64.Program} {c pool : Word} {is : List A64.Insn} {block : BlockInfo} {g g' : Guest}
  {cpu : Cpu}

/-- The code is the same in the memory of the CPU, and its run does not store into it. -/
theorem Ready.undisturbed (h : Ready pool is block g) (hl : Layout p c pool)
    (he : Enters c block.host_code g cpu) :
    ∃ ds, Row is ds ∧ ds.length ≤ max_instr ∧ Undisturbed ds g.1.pc block.host_code cpu.st := by
  obtain ⟨ds, host, hrow, hcode⟩ := h.code
  obtain ⟨o, ho, hle⟩ := h.slot
  have hlen : ds.length ≤ max_instr := hrow.decodes.length_eq ▸ h.le
  have hnull : block.host_code ≠ 0#64 := ho ▸ off_pool_ne_zero hl.mapped hle
  have hapart : ∀ a, InSlot a block.host_code → 8 * CPUContext.words ≤ (a - c).toNat := by
    intro a ha
    rw [ho] at ha
    exact Nat.le_of_not_lt fun hc => hl.ctx_pool a hc (inPool_of_inSlot hle ha)
  have hfits : Fits ds g.1.pc := hrow.fits hlen
  have hsize := (fits_iff hrow.wellDecoded).mp hfits
  have hbytes := block_code_eq hrow.wellDecoded hnull hsize host
  have hcode' : CodeAt cpu.st.mem block.host_code (block_code ds g.1.pc block.host_code host) := by
    refine hcode.congr fun i hi => he.host _ (hapart _ ?_)
    have hslot : slot_size = 4096 := rfl
    rw [hbytes] at hi
    have hi : i < size (blockInstrs ds g.1.pc) := hi
    rw [InSlot, off_sub_self (by omega)]
    omega
  refine ⟨ds, hrow, hlen, program_undisturbed hrow hlen hnull hcode' ?_⟩
  rw [he.rdi]
  exact hapart

/-- **Execution of the block**: it stores to the context object only, and leaves the A64 result. -/
theorem Ready.executes (h : Ready pool is block g) (hl : Layout p c pool)
    (hx : Executes c cpu block g g') : (∀ a, Stores cpu a → InCtx c a) ∧
      (g'.1.crashed = false → Follows c g g' (A64.run is (guest g.1))) := by
  obtain ⟨o, ho, hle⟩ := h.slot
  cases hx with
  | skip hskip =>
    rcases hskip with hnull | hinvalid
    · exact absurd (ho ▸ hnull) (off_pool_ne_zero hl.mapped hle)
    · cases h.valid.symm.trans hinvalid
  | run _ _ he hleaves =>
    obtain ⟨ds, hrow, hlen, hu⟩ := h.undisturbed hl he
    refine ⟨fun a ha => hrow.stores hu he ha, fun hgo => ?_⟩
    exact (hrow.leaves hlen hu he rfl).1 g' hleaves hgo

/-- Some execution of the block leaves the A64 result. -/
theorem Ready.exists_executes (h : Ready pool is block g) (hl : Layout p c pool) :
    ∃ cpu g', Executes c cpu block g g' ∧ Follows c g g' (A64.run is (guest g.1)) := by
  obtain ⟨o, ho, hle⟩ := h.slot
  have he := enters_entering c block.host_code g
  obtain ⟨ds, hrow, hlen, hu⟩ := h.undisturbed hl he
  obtain ⟨g', hleaves, hf⟩ := (hrow.leaves hlen hu he rfl).2
  exact ⟨_, g', .run (ho ▸ off_pool_ne_zero hl.mapped hle) h.valid he hleaves, hf⟩

end Ready

/-! ## Rounds -/

/-- The engine at work on the program: the words are in memory, and the blocks that are found are rows
of it, in their slots. -/
structure Works (p : A64.Program) (pool : Word) (s : RunState) : Prop where
  program : ProgramAt s.mem.host p
  installed : Installed pool s
  rows : RowsIn p s.cache

/-- At work with room for every word. -/
structure Serves (p : A64.Program) (pool : Word) (s : RunState) : Prop where
  works : Works p pool s
  cache : ProgramCache p pool s.cache

/-- A system call of the round does not write to the program or to the bytes of the engine. -/
def Tame (p : A64.Program) (c pool : Word) (answer : HostAnswer) (s : RunState) : Prop :=
  s.AtSvc → ∀ a, SvcWrites answer s.ctx s.mem a → ¬ Own c pool a ∧ ¬ InProgram p a

/-- The round interprets the word `raw`. -/
def RunState.Interprets (s : RunState) (raw : BitVec 32) : Prop :=
  s.AtCode raw ∧ (translate_block s.cache s.mem s.ctx.pc).block = none

/-- The block of the round, found or made. -/
def RunState.block (s : RunState) : Option BlockInfo :=
  (s.cache.lookup s.ctx.pc).1.or (translate_block s.cache s.mem s.ctx.pc).block

/-- The words that the round executes: those of its block, or one. -/
def RunState.steps (s : RunState) : ℕ :=
  match s.block with
  | some block => block.arm_instr_count.toNat
  | none => 1

/-- How a round at word `k` goes: it answers the SVC there, it runs a block of the instructions from
there on, or it interprets the one there. -/
inductive RoundAt (p : A64.Program) (c pool : Word) (answer : HostAnswer) (cpu : Cpu) (k : ℕ)
    (s s' : RunState) : Prop where
  | svc {w : BitVec 32} (hw : p.words[k]? = some w) (hs : A64.isSvc w) (hat : s.AtSvc)
    (h : s' = ⟨(run_svc answer (s.ctx, s.mem)).1, (run_svc answer (s.ctx, s.mem)).2, s.cache,
      s.iter + 1⟩)
  | block {is : List A64.Insn} {block : BlockInfo} {mem : MemoryManager} (hrow : RowAt p k is)
    (hsteps : s.steps = is.length) (hat : ¬ s.AtSvc) (hno : ∀ raw, ¬ s.Interprets raw)
    (hready : Ready pool is block (s.ctx, mem))
    (hx : Executes c cpu block (s.ctx, mem) (s'.ctx, s'.mem))
    (hmem : ∀ a, ¬ InPool pool a → mem.host a = s.mem.host a)
  | interpreted {w : BitVec 32} {i : A64.Insn} {d : DecodedInstr} (hw : p.words[k]? = some w)
    (hs : ¬ A64.isSvc w) (hi : A64.Insn.ofWord? w = some i) (hd : Decodes i d) (hat : s.Interprets w)
    (hg : (s'.ctx, s'.mem) = execute_decoded (s.ctx, s.mem) d)

section Round

variable {p : A64.Program} {c pool : Word} {answer : HostAnswer} {cpu : Cpu} {s s' : RunState} {k : ℕ}
  {w : BitVec 32}

theorem RunState.AtCode.not_atSvc {raw : BitVec 32} (h : s.AtCode raw) : ¬ s.AtSvc := by
  rintro ⟨-, raw', hread, hsvc⟩
  obtain rfl := Option.some.inj (h.2.1.symm.trans hread)
  exact h.2.2 hsvc

theorem RunState.AtCode.lookup_eq {raw : BitVec 32} (h : s.AtCode raw) {block : BlockInfo}
    {cache : TranslationCache} (hlook : s.cache.lookup s.ctx.pc = (some block, cache)) : False := by
  have hnone := h.1
  rw [hlook] at hnone
  cases hnone

/-- Where the translator is not called, a round is one step. -/
theorem steps_svc (h : s.AtSvc) : s.steps = 1 := by
  obtain ⟨hnone, raw, hread, hsvc⟩ := h
  have hcollect : collect s.mem max_instr s.ctx.pc = [] := by
    rw [show max_instr = 63 + 1 from rfl, collect, hread]
    exact if_pos hsvc
  have hblock : (translate_block s.cache s.mem s.ctx.pc).block = none := by
    rw [translate_block, hcollect]
    rfl
  rw [RunState.steps, RunState.block, hnone, hblock]
  rfl

theorem steps_interpreted {raw : BitVec 32} (h : s.Interprets raw) : s.steps = 1 := by
  rw [RunState.steps, RunState.block, h.1.1, h.2]
  rfl

theorem Works.read (h : Works p pool s) (hk : s.ctx.pc = p.addr k) (hw : p.words[k]? = some w) :
    s.mem.read_u32 s.ctx.pc = some w := by
  rw [hk]
  exact congrArg some (h.program k w hw)

/-- Behind the test for an SVC, the word is the one of the program and no SVC. -/
theorem Works.word_atCode (h : Works p pool s) (hk : s.ctx.pc = p.addr k) (hw : p.words[k]? = some w)
    {raw : BitVec 32} (hat : s.AtCode raw) : raw = w ∧ ¬ A64.isSvc raw := by
  obtain ⟨-, hread, hsvc⟩ := hat
  exact ⟨Option.some.inj (hread.symm.trans (h.read hk hw)), mt (is_svc_iff _).mpr hsvc⟩

/-- The words at the address of a found block. -/
theorem Works.current (h : Works p pool s) {pc : Word} {block : BlockInfo}
    (hlook : (s.cache.lookup pc).1 = some block) :
    ∃ k is, pc = p.addr k ∧ RowAt p k is ∧ is.length = block.arm_instr_count.toNat ∧
      Row is (current s pc block) := by
  have hview : s.cache.view pc = some block.translated := by
    rw [← lookup_translated, hlook]
    rfl
  obtain ⟨k, is, hk, hrow, hlen⟩ := h.rows _ _ hview
  have hds := row_of_insnsAt h.program hrow.insns hrow.inner
  rw [hlen, ← hk] at hds
  exact ⟨k, is, hk, hrow, hlen, hds⟩

/-- A block that is found. -/
theorem Works.found (h : Works p pool s) {block : BlockInfo} {cache : TranslationCache}
    (hlook : s.cache.lookup s.ctx.pc = (some block, cache)) :
    ∃ k is, s.ctx.pc = p.addr k ∧ RowAt p k is ∧ is.length = block.arm_instr_count.toNat ∧
      Ready pool is block (s.ctx, s.mem) := by
  have hvalid : block.is_valid = true := by
    rcases lookup_cases s.cache s.ctx.pc with ⟨info, -, hv, hl⟩ | ⟨hl, -⟩
    · obtain rfl : _ = block := Option.some.inj (congrArg Prod.fst (hl.symm.trans hlook))
      exact hv
    · cases congrArg Prod.fst (hl.symm.trans hlook)
  have hsome : (s.cache.lookup s.ctx.pc).1 = some block := by rw [hlook]
  have hview : s.cache.view s.ctx.pc = some block.translated := by
    rw [← lookup_translated, hsome]
    rfl
  obtain ⟨k, is, hk, hrow, hlen, hds⟩ := h.current hsome
  obtain ⟨⟨o, ho, hle⟩, host, hcode, -, -⟩ := h.installed.in_place _ _ hview
  exact ⟨k, is, hk, hrow, hlen, hrow.le,
    ⟨o, ho, Nat.le_trans hle h.installed.code_pool.le⟩, hvalid, _, host, hds, hcode⟩

/-- A block that is made. -/
theorem Works.made (h : Works p pool s) (hk : s.ctx.pc = p.addr k) (hw : p.words[k]? = some w)
    (hs : ¬ A64.isSvc w) {block : BlockInfo}
    (hb : (translate_block s.cache s.mem s.ctx.pc).block = some block) :
    ∃ is, RowAt p k is ∧ is.length = block.arm_instr_count.toNat ∧
      Ready pool is block (s.ctx, (translate_block s.cache s.mem s.ctx.pc).mem) := by
  obtain ⟨is, hrow, hds⟩ := rowAt_collect h.program hw hs
  rw [← hk] at hds
  refine ⟨is, hrow, hds.decodes.length_eq.trans (count_eq_length hb).symm, hrow.le, ?_, ?_, ?_⟩
  · cases translate_block_takes h.installed.code_pool s.mem s.ctx.pc with
    | refused hno _ => cases hno.symm.trans hb
    | slot hb' _ hcode hin _ =>
      obtain rfl := Option.some.inj (hb.symm.trans hb')
      exact ⟨_, hcode, hin⟩
  · obtain ⟨_, _, _, -, -, -, -, -, rfl⟩ := translate_block_block hb
    rfl
  · exact ⟨_, s.mem.host, hds, (translate_block_codeAt hb).1⟩

/-- **A round at a word of the program.** -/
theorem Works.round_cases (h : Works p pool s) (hk : s.ctx.pc = p.addr k)
    (hlt : k < p.words.length) (hi : Iterates c answer cpu s s') :
    RoundAt p c pool answer cpu k s s' := by
  have hw := List.getElem?_eq_getElem hlt
  cases hi with
  | hit _ hlook hx =>
    obtain ⟨k', is, hk', hrow, hlen, hready⟩ := h.found hlook
    have hsame : p.addr k' = p.addr k := hk'.symm.trans hk
    have hle := hrow.add_length_le
    have hpos := List.length_pos_iff.mpr hrow.nonempty
    have hsub := A64.Program.addr_sub (p := p) hlt
    rw [← hsame, A64.Program.addr_sub (by omega)] at hsub
    obtain rfl : k' = k := by omega
    refine .block hrow ?_ (fun hat => ?_) (fun raw hint => hint.1.lookup_eq hlook) hready hx
      fun _ _ => rfl
    · rw [RunState.steps, RunState.block, hlook]
      exact hlen.symm
    · have hnone := hat.1
      rw [hlook] at hnone
      cases hnone
  | svc _ hat hg =>
    obtain ⟨-, raw, hread, hsvc⟩ := id hat
    obtain rfl := Option.some.inj (hread.symm.trans (h.read hk hw))
    subst hg
    exact .svc hw ((is_svc_iff _).mp hsvc) hat rfl
  | @translated raw block r g _ hat hr hb hx =>
    subst hr
    obtain ⟨rfl, hs⟩ := h.word_atCode hk hw hat
    obtain ⟨is, hrow, hlen, hready⟩ := h.made hk hw hs hb
    refine .block hrow ?_ hat.not_atSvc (fun raw' hint => ?_) hready hx (fun a ha => ?_)
    · rw [RunState.steps, RunState.block, hat.1, hb]
      exact hlen.symm
    · cases hb.symm.trans hint.2
    by_contra hne
    obtain ⟨block, hblock, hin⟩ := (translate_block_stores s.cache s.mem s.ctx.pc).2 a hne
    obtain rfl := Option.some.inj (hb.symm.trans hblock)
    obtain ⟨o, ho, hle⟩ := hready.slot
    rw [ho] at hin
    exact ha (inPool_of_inSlot hle hin)
  | @interpreted raw r d g _ hat hr hb hd hg =>
    subst hr hg
    obtain ⟨rfl, hs⟩ := h.word_atCode hk hw hat
    obtain ⟨i, d', hofword, hd', hdec⟩ := exists_insn_decodes hw hs
    obtain rfl := Option.some.inj (hd'.symm.trans hd)
    exact .interpreted hw hs hofword hdec ⟨hat, hb⟩ (by rw [translate_block_mem_of_none hb])
  | unknown _ hat hr _ hd =>
    -- every word of the program that is no SVC decodes
    obtain ⟨rfl, hs⟩ := h.word_atCode hk hw hat
    obtain ⟨-, d', -, hd', -⟩ := exists_insn_decodes hw hs
    cases hd'.symm.trans hd

/-- The interpreter does not store. -/
theorem not_storesTo_of_decodes {i : A64.Insn} {d : DecodedInstr} (h : Decodes i d) (g : Guest)
    (a : Word) : ¬ StoresTo g d a := by
  have hop : d.opcode ≠ 0x73#8 ∧ d.opcode ≠ 0x72#8 ∧ d.opcode ≠ 0x70#8 ∧ d.opcode ≠ 0x71#8 ∧
      d.opcode ≠ 0x81#8 := by
    cases i with
    | nop => rw [show d.opcode = 0x90#8 from h]; decide
    | _ => rw [h.1]; decide
  obtain ⟨h₁, h₂, h₃, h₄, h₅⟩ := hop
  simp only [StoresTo, h₁, h₂, h₃, h₄, h₅, ↓reduceIte, not_false_eq_true]

/-- The stores of the block that a round calls. -/
theorem Works.stores (h : Works p pool s) (hl : Layout p c pool) (hk : s.ctx.pc = p.addr k)
    (hlt : k < p.words.length) (hi : Iterates c answer cpu s s')
    (hb : (s.cache.lookup s.ctx.pc).1.isSome ∨ s.Translates) {a : Word} (ha : Stores cpu a) :
    InCtx c a := by
  have hcalls : s.block.isSome := by
    rw [RunState.block]
    rcases hb with hb | ⟨-, hb⟩
    · rw [Option.or_of_isSome hb]
      exact hb
    · simp [hb]
  cases h.round_cases hk hlt hi with
  | svc _ _ hat _ =>
    obtain ⟨hnone, raw, hread, hsvc⟩ := hat
    rcases hb with hb | ⟨⟨raw', -, hread', hnot⟩, -⟩
    · rw [hnone] at hb
      cases hb
    · obtain rfl := Option.some.inj (hread.symm.trans hread')
      exact absurd hsvc hnot
  | block _ _ _ _ hready hx _ => exact (hready.executes hl hx).1 a ha
  | interpreted _ _ _ _ hat _ =>
    rw [RunState.block, hat.1.1, hat.2] at hcalls
    cases hcalls

/-- An interpreted word of the program is an instruction that does not store. -/
theorem Works.not_storesTo (h : Works p pool s) (hk : s.ctx.pc = p.addr k) (hlt : k < p.words.length)
    {raw : BitVec 32} {d : DecodedInstr} (hat : s.AtCode raw) (hd : decode? raw = some d) (a : Word) :
    ¬ StoresTo (s.ctx, s.mem) d a := by
  have hw := List.getElem?_eq_getElem hlt
  obtain ⟨rfl, hs⟩ := h.word_atCode hk hw hat
  obtain ⟨i, d', -, hd', hdec⟩ := exists_insn_decodes hw hs
  obtain rfl := Option.some.inj (hd'.symm.trans hd)
  exact not_storesTo_of_decodes hdec _ a

theorem Works.touches (h : Works p pool s) (hl : Layout p c pool) (hk : s.ctx.pc = p.addr k)
    (hlt : k < p.words.length) (hi : Iterates c answer cpu s s') {a : Word}
    (ha : s.Touches c answer cpu a) : InCtx c a ∨ s.AtSvc ∧ SvcWrites answer s.ctx s.mem a := by
  cases ha with
  | ctx ha => exact .inl ha
  | block hb ha => exact .inl (h.stores hl hk hlt hi hb ha)
  | interpreted hat _ hd ha => exact absurd ha (h.not_storesTo hk hlt hat hd a)
  | svc hat ha => exact .inr ⟨hat, ha⟩

theorem Works.writes (h : Works p pool s) (hl : Layout p c pool) (hk : s.ctx.pc = p.addr k)
    (hlt : k < p.words.length) (hi : Iterates c answer cpu s s') {a : Word}
    (ha : s.Writes c answer cpu a) : Own c pool a ∨ s.AtSvc ∧ SvcWrites answer s.ctx s.mem a := by
  cases ha with
  | ctx ha => exact .inl (.inl ha)
  | block hb ha => exact .inl (.inl (h.stores hl hk hlt hi hb ha))
  | slot _ hb ha =>
    cases translate_block_takes h.installed.code_pool s.mem s.ctx.pc with
    | refused hno _ => cases hno.symm.trans hb
    | slot hb' _ hcode hin _ =>
      obtain rfl := Option.some.inj (hb'.symm.trans hb)
      rw [hcode] at ha
      exact .inl (.inr (inPool_of_inSlot hin ha))
  | interpreted hat _ hd ha => exact absurd ha (h.not_storesTo hk hlt hat hd a)
  | svc hat ha => exact .inr ⟨hat, ha⟩

/-- The words of the blocks are words of the program. -/
theorem Works.covers (h : Works p pool s) (hk : s.ctx.pc = p.addr k) (hlt : k < p.words.length)
    {a : Word} (ha : s.Covers a) : InProgram p a := by
  cases ha with
  | @found pc info hlook hin =>
    have hview : s.cache.view pc = some info.translated := by
      rw [← lookup_translated, hlook]
      rfl
    obtain ⟨k', is, rfl, hrow, hlen⟩ := h.rows _ _ hview
    have hlen : is.length = info.arm_instr_count.toNat := hlen
    exact inProgram_of_inWords (hlen ▸ hrow.add_length_le) hin
  | made ht hin =>
    obtain ⟨⟨raw, hat⟩, -⟩ := ht
    have hw := List.getElem?_eq_getElem hlt
    obtain ⟨rfl, hs⟩ := h.word_atCode hk hw hat
    obtain ⟨is, hrow, hds⟩ := rowAt_collect h.program hw hs
    have hlen : is.length = (collect s.mem max_instr (p.addr k)).length := hds.decodes.length_eq
    rw [hk, ← hlen] at hin
    exact inProgram_of_inWords hrow.add_length_le hin

/-- The slots of the blocks are in the pool. -/
theorem Works.holds (h : Works p pool s) {a : Word} (ha : s.Holds a) : InPool pool a := by
  cases ha with
  | found hview hin =>
    obtain ⟨o, ho, hle⟩ := (h.installed.in_place _ _ hview).slot
    rw [ho] at hin
    exact inPool_of_inSlot (Nat.le_trans hle h.installed.code_pool.le) hin
  | made _ hb hin =>
    cases translate_block_takes h.installed.code_pool s.mem s.ctx.pc with
    | refused hno _ => cases hno.symm.trans hb
    | slot hb' _ hcode hle _ =>
      obtain rfl := Option.some.inj (hb'.symm.trans hb)
      rw [hcode] at hin
      exact inPool_of_inSlot hle hin

/-- The words of the program are not written to. -/
theorem Works.not_writes (h : Works p pool s) (hl : Layout p c pool) (hk : s.ctx.pc = p.addr k)
    (hlt : k < p.words.length) (hi : Iterates c answer cpu s s') (ht : Tame p c pool answer s)
    {a : Word} (ha : InProgram p a) : ¬ s.Writes c answer cpu a := by
  intro hw
  rcases h.writes hl hk hlt hi hw with hown | ⟨hat, hsvc⟩
  · exact hl.program a ha hown
  · exact (ht hat a hsvc).2 ha

theorem Works.spares (h : Works p pool s) (hl : Layout p c pool) (hk : s.ctx.pc = p.addr k)
    (hlt : k < p.words.length) (hi : Iterates c answer cpu s s') (ht : Tame p c pool answer s) :
    SparesBlocks c answer cpu s := by
  refine ⟨fun a hw ha => h.not_writes hl hk hlt hi ht (h.covers hk hlt ha) hw, fun a htouch ha => ?_⟩
  have hpool := h.holds ha
  rcases h.touches hl hk hlt hi htouch with hctx | ⟨hat, hsvc⟩
  · exact hl.ctx_pool a hctx hpool
  · exact (ht hat a hsvc).1 (.inr hpool)

theorem translate_rows (hp : ProgramAt s.mem.host p) (h : RowsIn p s.cache) (hk : s.ctx.pc = p.addr k)
    (hw : p.words[k]? = some w) (hs : ¬ A64.isSvc w) :
    RowsIn p (translate_block s.cache s.mem s.ctx.pc).cache := by
  intro pc b hb
  rcases translate_block_view hb with hb | ⟨-, rfl, hcount⟩
  · exact h pc b hb
  · obtain ⟨is, hrow, hds⟩ := rowAt_collect hp hw hs
    rw [← hk] at hds
    exact ⟨k, is, hk, hrow, hds.decodes.length_eq.trans hcount.symm⟩

/-- **One round** keeps the invariant. -/
theorem Works.round (h : Works p pool s) (hl : Layout p c pool) (hk : s.ctx.pc = p.addr k)
    (hlt : k < p.words.length) (hi : Iterates c answer cpu s s') (ht : Tame p c pool answer s) :
    Works p pool s' := by
  refine ⟨fun k' w hw => ?_, h.installed.round hi (h.spares hl hk hlt hi ht), ?_⟩
  · have hlt' := (List.getElem?_eq_some_iff.mp hw).1
    have hwords := @words_congr s.mem.host s'.mem.host (p.addr k') 1 (by decide) fun a ha =>
      iterates_host hi (h.not_writes hl hk hlt hi ht (inProgram_of_inWords hlt' ha))
    rw [words_succ, words_succ] at hwords
    rw [(List.cons.inj hwords).1]
    exact h.program k' w hw
  · cases iterates_turns hi with
    | keeps _ hview _ => exact fun pc b hb => h.rows pc b (hview pc b hb)
    | translates hat hcache =>
      have hw := List.getElem?_eq_getElem hlt
      obtain ⟨rfl, hs⟩ := h.word_atCode hk hw hat
      rw [hcache]
      exact translate_rows h.program h.rows hk hw hs

/-! ### With room -/

/-- No word is left to the interpreter. -/
theorem Serves.translate (h : Serves p pool s) (hl : Layout p c pool) (hk : s.ctx.pc = p.addr k)
    (hlt : k < p.words.length) {raw : BitVec 32} (hat : s.AtCode raw) :
    s.Translates ∧ s.ctx.pc ∉ s.cache.keys ∧
      ProgramCache p pool (translate_block s.cache s.mem s.ctx.pc).cache ∧
      (translate_block s.cache s.mem s.ctx.pc).cache.keys = s.cache.keys ++ [s.ctx.pc] := by
  have hw := List.getElem?_eq_getElem hlt
  obtain ⟨hnone, hread, hsvc⟩ := id hat
  obtain rfl := Option.some.inj (hread.symm.trans (h.works.read hk hw))
  have hnot := h.cache.notMem_keys hnone
  rw [hk] at hnone
  obtain ⟨block, hb, hcache, hkeys⟩ :=
    h.cache.translate hl.mapped h.works.program hw (mt (is_svc_iff _).mpr hsvc) hnone
  rw [← hk] at hb hcache hkeys
  exact ⟨⟨⟨_, hat⟩, Option.isSome_iff_exists.mpr ⟨block, hb⟩⟩, hnot, hcache, hkeys⟩

/-- The addresses in the block map: the round adds that of the block it makes. -/
theorem Serves.keys (h : Serves p pool s) (hl : Layout p c pool) (hk : s.ctx.pc = p.addr k)
    (hlt : k < p.words.length) (hi : Iterates c answer cpu s s') : ProgramCache p pool s'.cache ∧
      (s.Translates ∧ s.ctx.pc ∉ s.cache.keys ∧ s'.cache.keys = s.cache.keys ++ [s.ctx.pc] ∨
        ¬ s.Translates ∧ s'.cache.keys = s.cache.keys) := by
  have hnew : ∀ raw, s.AtCode raw → ∀ t, (translate_block s.cache s.mem s.ctx.pc).cache = t →
      ProgramCache p pool t ∧ (s.Translates ∧ s.ctx.pc ∉ s.cache.keys ∧
        t.keys = s.cache.keys ++ [s.ctx.pc] ∨ ¬ s.Translates ∧ t.keys = s.cache.keys) := by
    rintro raw hat _ rfl
    obtain ⟨htr, hnot, hcache, hkeys⟩ := h.translate hl hk hlt hat
    exact ⟨hcache, .inl ⟨htr, hnot, hkeys⟩⟩
  cases hi with
  | hit _ hlook _ =>
    have hkeys := keys_lookup s.cache s.ctx.pc
    have hcache := h.cache.lookup s.ctx.pc
    rw [hlook] at hkeys hcache
    refine ⟨hcache, .inr ⟨?_, hkeys⟩⟩
    rintro ⟨⟨raw, hat⟩, -⟩
    exact hat.lookup_eq hlook
  | svc _ hsvc _ =>
    refine ⟨h.cache, .inr ⟨?_, rfl⟩⟩
    rintro ⟨⟨raw, hat⟩, -⟩
    exact hat.not_atSvc hsvc
  | translated _ hat hr _ _ => exact hnew _ hat _ (by rw [hr])
  | interpreted _ hat hr _ _ _ => exact hnew _ hat _ (by rw [hr])
  | unknown _ hat hr _ _ => exact hnew _ hat _ (by rw [hr])

theorem Serves.round (h : Serves p pool s) (hl : Layout p c pool) (hk : s.ctx.pc = p.addr k)
    (hlt : k < p.words.length) (hi : Iterates c answer cpu s s') (ht : Tame p c pool answer s) :
    Serves p pool s' := ⟨h.works.round hl hk hlt hi ht, (h.keys hl hk hlt hi).1⟩

/-! ### Progress -/

/-- A system call does not set the crash flag. -/
theorem crashed_run_svc (answer : HostAnswer) (s : RunState) :
    (run_svc answer (s.ctx, s.mem)).1.crashed = s.ctx.crashed := by
  have hexit : ∀ ctx : CPUContext, (exit_ctx ctx).crashed = ctx.crashed := by
    intro ctx
    have hbits : CPUContext.STATE_EXITED &&& CPUContext.STATE_CRASHED = 0#32 := by decide
    rw [CPUContext.crashed, CPUContext.crashed, exit_ctx_state_flags, BitVec.and_or_distrib_right,
      hbits, BitVec.or_zero]
  have hset : ∀ (ctx : CPUContext) (v : Word), (ctx.set_x 0 v).crashed = ctx.crashed :=
    fun ctx v => crashed_congr rfl
  rw [run_svc_ctx, hset]
  split_ifs
  · rw [hexit]
    exact crashed_congr rfl
  · exact crashed_congr rfl

/-- **Progress**: at a word of the program, for every answer to a system call, some state of the host
CPU makes a round that does not crash. -/
theorem Works.progress (h : Works p pool s) (hl : Layout p c pool) (hk : s.ctx.pc = p.addr k)
    (hlt : k < p.words.length) (hgo : s.Running) (answer : HostAnswer) :
    ∃ cpu s', Iterates c answer cpu s s' ∧ s'.ctx.crashed = false := by
  have hw := List.getElem?_eq_getElem hlt
  generalize p.words[k] = w at hw
  have hread := h.read hk hw
  have hkeeps : ∀ {mem : MemoryManager} {g' : Guest} {a : A64.State}, Follows c (s.ctx, mem) g' a →
      g'.1.crashed = false := by
    intro mem g' a hf
    rw [crashed_congr (hf.rest 103 (by decide) (by decide))]
    exact hgo.1
  cases hlook : s.cache.lookup s.ctx.pc with
  | mk ob cache =>
    have hob : (s.cache.lookup s.ctx.pc).1 = ob := by rw [hlook]
    cases ob with
    | some block =>
      obtain ⟨_, _, -, -, -, hready⟩ := h.found hlook
      obtain ⟨cpu, g', hx, hf⟩ := hready.exists_executes hl
      exact ⟨cpu, _, .hit hgo hlook hx, hkeeps hf⟩
    | none =>
      by_cases hs : A64.isSvc w
      · refine ⟨⟨0#64, .cleared⟩, _, .svc hgo ⟨hob, w, hread, (is_svc_iff w).mpr hs⟩ rfl, ?_⟩
        exact (crashed_run_svc answer s).trans hgo.1
      · have hat : s.AtCode w := ⟨hob, hread, mt (is_svc_iff w).mp hs⟩
        cases hb : (translate_block s.cache s.mem s.ctx.pc).block with
        | some block =>
          obtain ⟨_, -, -, hready⟩ := h.made hk hw hs hb
          obtain ⟨cpu, g', hx, hf⟩ := hready.exists_executes hl
          exact ⟨cpu, _, .translated hgo hat rfl hb hx, hkeeps hf⟩
        | none =>
          obtain ⟨i, d, -, hd, hdec⟩ := exists_insn_decodes hw hs
          refine ⟨⟨0#64, .cleared⟩, _, .interpreted hgo hat rfl hb hd rfl, ?_⟩
          exact (crashed_congr ((interp_rest hdec _).2 103 (by decide))).trans hgo.1

end Round

end ExecEngine

end Bbarm64
