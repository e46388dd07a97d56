import Bbarm64.Core.Regions
import Bbarm64.Engine.Interp
import Bbarm64.Engine.Run
import Bbarm64.Engine.Slots

/-!
# Engine.Footprint — what a round of the loop writes to

For every way a round can go, the bytes of process memory it may write to, as far as they follow
from the state before the round and from what the host contributes.  All other bytes stay as they
are (`iterates_host`).
-/

namespace Bbarm64

open X86 ARM64Decoder

/-- A permitted store of `k` bytes at `addr` goes to `a`. -/
def MemoryManager.StoresAt (m : MemoryManager) (addr : Word) (k : ℕ) (a : Word) : Prop :=
  m.check_perms addr (BitVec.ofNat 64 k) PROT_WRITE = true ∧ (a - addr).toNat < k

theorem MemoryManager.write_u_host {n : ℕ} {k : ℕ} {m : MemoryManager} {addr a : Word}
    (val : BitVec n) (h : ¬ m.StoresAt addr k a) : (m.write_u k addr val).2.host a = m.host a := by
  unfold write_u
  split_ifs with hp
  · exact writeN_of_le (Nat.le_of_not_lt fun ha => h ⟨hp, ha⟩)
  · rfl

theorem MemoryManager.write_u_check_perms {n : ℕ} (k : ℕ) (m : MemoryManager) (addr : Word)
    (val : BitVec n) : (m.write_u k addr val).2.check_perms = m.check_perms := by
  unfold write_u
  split_ifs <;> rfl

namespace ExecEngine

/-! ## System calls -/

/-- Where `mmap` puts the pages. -/
def mmap_addr (mem : MemoryManager) (hint : Word) : Word :=
  if hint ≠ 0#64 then hint else mem.mmap_base_

/-- The system call writes to `a`: `read` puts data there, `mmap` a zero page, `munmap` takes the
page away, and a call that is handed to the host (`mremap` is one) changes the byte. -/
def SvcWrites (answer : HostAnswer) (ctx : CPUContext) (mem : MemoryManager) (a : Word) : Prop :=
  let arm_nr := (ctx.x 8).setWidth 32
  if SyscallHandler.translate_syscall_nr arm_nr < 0 then False
  else if arm_nr = 63#32 then
    (0#64).slt answer.ret = true ∧ mem.StoresAt (ctx.x 1) answer.ret.toNat a
  else if arm_nr = 64#32 then False
  else if arm_nr = 222#32 then
    let size := MemoryManager.page_align (ctx.x 1)
    let addr := mmap_addr mem (ctx.x 0)
    addr ≠ 0#64 ∧ answer.mmap_ok addr size ((ctx.x 2).setWidth 32) = true ∧
      (a - addr).toNat < size.toNat
  else if arm_nr = 226#32 then False
  else if arm_nr = 215#32 then
    answer.host a ≠ mem.host a ∨ answer.ret.setWidth 32 = 0#32 ∧
      (a - ctx.x 0).toNat < (MemoryManager.page_align (ctx.x 1)).toNat
  else if arm_nr = 214#32 then False
  else if arm_nr = 216#32 then answer.host a ≠ mem.host a
  else if arm_nr = 93#32 ∨ arm_nr = 94#32 then False
  else answer.host a ≠ mem.host a

section Svc

variable {answer : HostAnswer} {ctx : CPUContext} {mem : MemoryManager} {a : Word}

theorem mmap_host {host_ok : Word → Word → BitVec 32 → Bool} {size hint : Word} {prot : BitVec 32}
    (h : ¬ (mmap_addr mem hint ≠ 0#64 ∧
      host_ok (mmap_addr mem hint) (MemoryManager.page_align size) prot = true ∧
      (a - mmap_addr mem hint).toNat < (MemoryManager.page_align size).toNat)) :
    (mem.mmap host_ok size prot hint).2.host a = mem.host a := by
  rw [MemoryManager.mmap_eq]
  by_cases hmaps : mem.Maps host_ok size prot hint
  · simp only [if_pos hmaps]
    exact fill_of_le (Nat.le_of_not_lt fun ha => h ⟨hmaps.1, hmaps.2, ha⟩)
  · simp only [if_neg hmaps]

theorem set_brk_host (new_brk : Word) : (mem.set_brk new_brk).2.host = mem.host := by
  unfold MemoryManager.set_brk
  split_ifs <;> rfl

theorem write_bytes_host {addr len : Word} {src : ℕ → Byte} (h : ¬ mem.StoresAt addr len.toNat a) :
    (mem.write_bytes addr len src).2.host a = mem.host a := by
  unfold MemoryManager.write_bytes
  split_ifs with hp
  · refine fill_of_le (Nat.le_of_not_lt fun ha => h ⟨?_, ha⟩)
    rwa [BitVec.ofNat_toNat, BitVec.setWidth_eq]
  · rfl

theorem handle_read_host (h : ¬ ((0#64).slt answer.ret = true ∧
    mem.StoresAt (ctx.x 1) answer.ret.toNat a)) :
    (SyscallHandler.handle_read answer ctx mem).2.2.host a = mem.host a := by
  unfold SyscallHandler.handle_read
  by_cases h₁ : ctx.x 2 > SyscallHandler.stack_buf ∧ ¬ answer.malloc_ok
  · rw [if_pos h₁]
  rw [if_neg h₁]
  by_cases h₂ : (0#64).slt answer.ret = true
  · dsimp only
    rw [if_pos h₂]
    exact write_bytes_host fun ha => h ⟨h₂, ha⟩
  · dsimp only
    rw [if_neg h₂]

theorem handle_write_host : (SyscallHandler.handle_write answer ctx mem).2.2 = mem := by
  unfold SyscallHandler.handle_write
  dsimp only
  split_ifs
  · rfl
  · split <;> rfl

theorem handle_brk_host : (SyscallHandler.handle_brk ctx mem).2.2.host = mem.host := by
  unfold SyscallHandler.handle_brk
  dsimp only
  split_ifs
  · rfl
  · exact set_brk_host _

/-- The byte is the same behind the call, unless the call writes to it. -/
def KeepsByte (mem : MemoryManager) (a : Word) (writes : Prop) (r : SyscallHandler.Outcome) : Prop :=
  ¬ writes → r.2.2.host a = mem.host a

/-- The choices of the two sides are the same. -/
theorem KeepsByte.ite {c writes₁ writes₂ : Prop} [Decidable c] {r₁ r₂ : SyscallHandler.Outcome}
    (h₁ : KeepsByte mem a writes₁ r₁) (h₂ : KeepsByte mem a writes₂ r₂) :
    KeepsByte mem a (if c then writes₁ else writes₂) (if c then r₁ else r₂) := by
  split_ifs
  · exact h₁
  · exact h₂

/-- A system call changes only bytes it writes to. -/
theorem execute_host (h : ¬ SvcWrites answer ctx mem a) :
    (SyscallHandler.execute answer ctx mem).2.2.host a = mem.host a := by
  have hnone : ∀ {r : SyscallHandler.Outcome}, r.2.2.host = mem.host → KeepsByte mem a False r :=
    fun hr _ => by rw [hr]
  suffices hkeeps : KeepsByte mem a (SvcWrites answer ctx mem a) (SyscallHandler.execute answer ctx mem)
    from hkeeps h
  unfold SvcWrites SyscallHandler.execute
  dsimp only
  refine .ite (hnone rfl) <| .ite handle_read_host <| .ite (hnone (by rw [handle_write_host])) ?_
  refine .ite mmap_host <| .ite (hnone rfl) <| .ite (fun hkeep => ?_) ?_
  · exact not_not.mp (not_or.mp hkeep).1
  exact .ite (hnone handle_brk_host) <| .ite not_not.mp <| .ite (hnone rfl) not_not.mp

end Svc

/-! ## The interpreter -/

/-- The instruction stores to `a`. -/
def StoresTo (g : Guest) (d : DecodedInstr) (a : Word) : Prop :=
  let op := d.opcode
  if op = 0x73#8 then g.2.StoresAt (str_addr g.1 d) 8 a
  else if op = 0x72#8 then g.2.StoresAt (str_addr g.1 d) 4 a
  else if op = 0x70#8 then g.2.StoresAt (x_or_sp g.1 d.rn + d.imm) 1 a
  else if op = 0x71#8 then g.2.StoresAt (x_or_sp g.1 d.rn + d.imm) 2 a
  else if op = 0x81#8 then
    let addr := x_or_sp g.1 d.rn + d.imm_s
    g.2.StoresAt addr 8 a ∨ g.2.StoresAt (addr + 8#64) 8 a
  else False

section Interpreter

variable {g : Guest} {d : DecodedInstr} {a : Word}

/-- The instruction leaves memory alone. -/
def KeepsMem (g g' : Guest) : Prop := g'.2 = g.2

theorem KeepsMem.ite {c : Prop} [Decidable c] {g₁ g₂ : Guest} (h₁ : c → KeepsMem g g₁)
    (h₂ : KeepsMem g g₂) : KeepsMem g (if c then g₁ else g₂) := by
  split_ifs with hc
  · exact h₁ hc
  · exact h₂

theorem load_keepsMem {n : ℕ} (r : Byte) (val : Option (BitVec n)) : KeepsMem g (load g r val) := by
  cases val <;> rfl

theorem branch_if_keepsMem (ctx : CPUContext) (taken : Bool) (o : BitVec 32) :
    KeepsMem g (branch_if (ctx, g.2) taken o) := by
  cases taken <;> rfl

/-- Opcodes without a store. -/
theorem execute_decoded_keepsMem (h73 : d.opcode ≠ 0x73#8) (h72 : d.opcode ≠ 0x72#8)
    (h70 : d.opcode ≠ 0x70#8) (h71 : d.opcode ≠ 0x71#8) (h81 : d.opcode ≠ 0x81#8) :
    KeepsMem g (execute_decoded g d) := by
  unfold execute_decoded
  dsimp only
  repeat' refine KeepsMem.ite (fun _ => ?_) ?_
  all_goals first
    | contradiction
    | exact load_keepsMem _ _
    | exact branch_if_keepsMem _ _ _
    | rfl
    | skip
  split <;> rfl

/-- The interpreter changes only bytes it stores to. -/
theorem execute_decoded_host (h : ¬ StoresTo g d a) :
    (execute_decoded g d).2.host a = g.2.host a := by
  have hstore : ∀ {n k : ℕ} {addr : Word} {val : BitVec n}, ¬ g.2.StoresAt addr k a →
      (store g (g.2.write_u k addr val)).2.host a = g.2.host a := fun h =>
    MemoryManager.write_u_host _ h
  unfold StoresTo at h
  dsimp only at h
  by_cases h73 : d.opcode = 0x73#8
  · rw [if_pos h73] at h
    rw [execute_str64 h73]
    exact hstore h
  rw [if_neg h73] at h
  by_cases h72 : d.opcode = 0x72#8
  · rw [if_pos h72] at h
    rw [execute_str32 h72]
    exact hstore h
  rw [if_neg h72] at h
  by_cases h70 : d.opcode = 0x70#8
  · rw [if_pos h70] at h
    rw [execute_strb h70]
    exact hstore h
  rw [if_neg h70] at h
  by_cases h71 : d.opcode = 0x71#8
  · rw [if_pos h71] at h
    rw [execute_strh h71]
    exact hstore h
  rw [if_neg h71] at h
  by_cases h81 : d.opcode = 0x81#8
  · rw [if_pos h81, not_or] at h
    obtain ⟨h₁, h₂⟩ := h
    let m := (g.2.write_u64 (x_or_sp g.1 d.rn + d.imm_s) (g.1.x d.rt.toNat)).2
    have hm : m.check_perms = g.2.check_perms := MemoryManager.write_u_check_perms _ _ _ _
    have h₂' : ¬ m.StoresAt (x_or_sp g.1 d.rn + d.imm_s + 8#64) 8 a := by
      rwa [MemoryManager.StoresAt, hm]
    rw [execute_stp h81]
    exact (MemoryManager.write_u_host _ h₂').trans (MemoryManager.write_u_host _ h₁)
  · rw [execute_decoded_keepsMem h73 h72 h70 h71 h81]

end Interpreter

/-! ## Rounds -/

/-- The round translates a block. -/
def RunState.Translates (s : RunState) : Prop :=
  (∃ raw, s.AtCode raw) ∧ (translate_block s.cache s.mem s.ctx.pc).block.isSome

/-- The round may write to `a`: it is in the context object, the block that is called stores there,
it is in the slot of a new block, the interpreted instruction stores there, or the system call
writes there. -/
inductive RunState.Writes (c : Word) (answer : HostAnswer) (cpu : Cpu) (s : RunState) (a : Word) :
    Prop where
  | ctx (h : (a - c).toNat < 8 * CPUContext.words)
  | block (hb : (s.cache.lookup s.ctx.pc).1.isSome ∨ s.Translates) (h : Stores cpu a)
  | slot {block : BlockInfo} (hw : ∃ raw, s.AtCode raw)
    (hb : (translate_block s.cache s.mem s.ctx.pc).block = some block)
    (h : InSlot a block.host_code)
  | interpreted {raw : BitVec 32} {d : DecodedInstr} (hw : s.AtCode raw)
    (hb : (translate_block s.cache s.mem s.ctx.pc).block = none) (hd : decode? raw = some d)
    (h : StoresTo (s.ctx, s.mem) d a)
  | svc (hs : s.AtSvc) (h : SvcWrites answer s.ctx s.mem a)

section Rounds

variable {c a : Word} {answer : HostAnswer} {cpu : Cpu} {s s' : RunState}

theorem executes_host {block : BlockInfo} {g g' : Guest} (h : Executes c cpu block g g')
    (hctx : 8 * CPUContext.words ≤ (a - c).toNat) (ha : ¬ Stores cpu a) :
    g'.2.host a = g.2.host a := by
  cases h with
  | skip _ => rfl
  | run _ _ he hl =>
    cases hl with
    | ret h _ _ => exact (cycles_mem h ha).trans (he.host a hctx)
    | fault h _ => exact (cycles_mem h ha).trans (he.host a hctx)

theorem translate_block_mem_of_none {t : TranslationCache} {mem : MemoryManager} {pc : Word}
    (h : (translate_block t mem pc).block = none) : (translate_block t mem pc).mem = mem := by
  have ht := translate_block_translates t mem pc
  generalize translate_block t mem pc = r at ht h ⊢
  cases ht with
  | empty _ => rfl
  | full _ => rfl
  | done => cases h

/-- **Frame rule of the loop**: a round changes only bytes it may write to. -/
theorem iterates_host (h : Iterates c answer cpu s s') (ha : ¬ s.Writes c answer cpu a) :
    s'.mem.host a = s.mem.host a := by
  have hctx : 8 * CPUContext.words ≤ (a - c).toNat := Nat.le_of_not_lt fun h => ha (.ctx h)
  cases h with
  | hit _ hb hx =>
    exact executes_host hx hctx fun h => ha (.block (.inl (by rw [hb]; rfl)) h)
  | svc _ hs hg =>
    subst hg
    have hexec : ¬ SvcWrites answer (s.ctx.set_pc (s.ctx.pc + 4#64)) s.mem a :=
      fun h => ha (.svc hs h)
    exact execute_host hexec
  | @translated raw block r g _ hw hr hb hx =>
    have hr' : (translate_block s.cache s.mem s.ctx.pc).block = some block := by rw [hr, hb]
    have hslot : r.mem.host a = s.mem.host a := by
      have hstores := (translate_block_stores s.cache s.mem s.ctx.pc).2 a
      rw [hr] at hstores
      by_contra hne
      obtain ⟨block', hb', hin⟩ := hstores hne
      obtain rfl := Option.some.inj (hb.symm.trans hb')
      exact ha (.slot ⟨raw, hw⟩ hr' hin)
    have hstores : ¬ Stores cpu a := fun h =>
      ha (.block (.inr ⟨⟨raw, hw⟩, by rw [hr']; rfl⟩) h)
    exact (executes_host hx hctx hstores).trans hslot
  | interpreted _ hw hr hb hd hg =>
    subst hr hg
    rw [execute_decoded_host, translate_block_mem_of_none hb]
    rw [translate_block_mem_of_none hb]
    exact fun h => ha (.interpreted hw hb hd h)
  | unknown _ _ hr hb _ =>
    subst hr
    rw [translate_block_mem_of_none hb]

end Rounds

end ExecEngine

end Bbarm64
