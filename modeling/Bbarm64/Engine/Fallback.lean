import Bbarm64.Engine.BlockCode
import Bbarm64.Engine.Interp

/-!
# Engine.Fallback — opcodes the IR builder has no case for

`build_instr` makes a NOP of an opcode it has no case for and reports success, so `run` never falls
back to the interpreter: the translated block only moves `ctx.pc` on by 4.  It agrees with
`execute_decoded` where the interpreter happens to do no more than that.
-/

namespace Bbarm64

open X86 ARM64Decoder IRBuilder IROptimizer IRLowering

namespace ExecEngine

/-- The opcodes with a case in `build_instr`. -/
def build_cases : List Byte :=
  [0x00#8, 0x01#8, 0x04#8, 0x05#8, 0x06#8, 0x20#8, 0x21#8, 0x22#8, 0x23#8, 0x24#8, 0x25#8, 0x30#8,
    0x31#8, 0x50#8, 0x51#8, 0x53#8, 0x54#8, 0x55#8, 0x56#8, 0x63#8, 0x62#8, 0x73#8, 0x72#8, 0x80#8,
    0x81#8, 0x90#8, 0x91#8, 0x92#8, 0x93#8, 0xFF#8, 0xA0#8, 0xA1#8, 0xA2#8, 0xA3#8, 0xA4#8, 0xA5#8,
    0xA6#8]

theorem instrIr_default {d : DecodedInstr} (h : d.opcode ∉ build_cases) (pc : Word) :
    instrIr d pc = [{ op := .NOP, size := if d.size ≠ 0#8 then 8#8 else 4#8 }] := by
  simp only [build_cases, List.mem_cons, List.not_mem_nil, or_false, not_or] at h
  simp [instrIr, build_instr, h, IRBlock.push_back]

/-- The block of such an instruction moves `ctx.pc` on by 4. -/
theorem returns_default {d : DecodedInstr} (h : d.opcode ∉ build_cases) (pc : Word)
    {host_code : Word} (hb : host_code ≠ 0#64) (host : Mem) (s : State) :
    ∃ s', (∀ s₁, Returns (block_code [d] pc host_code host) s s₁ ↔ s₁ = s') ∧
      s'.mem = writeN 8 s.mem (off (s.reg rdi) (8 * 32)) (pc + 4#64) := by
  let ir : IRInst := { op := .NOP, size := if d.size ≠ 0#8 then 8#8 else 4#8 }
  have hr : ¬ Returning ir.op := (by decide : ¬ Returning IROpcode.NOP)
  have hi : instrIr d pc = [ir] := instrIr_default h pc
  exact ⟨_, fun s₁ => returns_lone hi trivial hr hb host, lone_mem hr (pc + 4#64) s⟩

/-! ## The outcomes -/

/-- The guest states agree on `x0` to `x30`, `sp`, `pc`, `nzcv` and the memory outside the context
at `c`. -/
def SameGuest (c : Word) (g g' : Guest) : Prop :=
  (∀ i ≤ 34, i ≠ 33 → g.1.word i = g'.1.word i) ∧
    ∀ a, 8 * CPUContext.words ≤ (a - c).toNat → g.2.host a = g'.2.host a

/-- The block of the lone instruction `d`, entered in state `s`, returns with the guest state that
`execute_decoded` gives. -/
def FollowsInterpreter (d : DecodedInstr) (g : Guest) (host_code : Word) (host : Mem) (s : State) :
    Prop :=
  let c := s.reg rdi
  let g' := execute_decoded g d
  ∃ s', Returns (block_code [d] g.1.pc host_code host) s s' ∧
    (∀ i ≤ 34, i ≠ 33 → X86.word s'.mem c (8 * i) = g'.1.word i) ∧
    ∀ a, 8 * CPUContext.words ≤ (a - c).toNat → s'.mem a = g'.2.host a

/-- `k` bytes of `v` are in memory at `a`. -/
def Stored {n : ℕ} (m : Mem) (k : ℕ) (a : Word) (v : BitVec n) : Prop :=
  ∀ i < k, m (a + BitVec.ofNat 64 i) = byteAt v i

/-- The interpreter does no more than to step over the instruction: a logical result is in the
register already, a branch goes to the next instruction or is not taken, a load is refused or finds
what the register holds, a store is refused or finds the bytes in place. -/
def StepsOver (g : Guest) (d : DecodedInstr) : Prop :=
  let ctx := g.1
  let mem := g.2
  let op := d.opcode
  let x (r : Byte) : Word := ctx.x r.toNat
  let addr := x_or_sp ctx d.rn + d.imm
  if op = 0x10#8 then x d.rn &&& x d.rm = x d.rd
  else if op = 0x12#8 then x d.rn ||| x d.rm = x d.rd
  else if op = 0x14#8 then x d.rn ^^^ x d.rm = x d.rd
  else if op = 0x52#8 then x_or_sp ctx d.rn = ctx.pc + 4#64
  else if op = 0x57#8 ∨ op = 0x58#8 then
    (x d.rn).getLsbD (d.imm.setWidth 32).toNat ≠ decide (op = 0x58#8) ∨ d.branch_offset = 4#32
  else if op = 0x60#8 then ∀ v, mem.read_u8 addr = some v → v.setWidth 64 = x d.rt
  else if op = 0x61#8 then ∀ v, mem.read_u16 addr = some v → v.setWidth 64 = x d.rt
  else if op = 0x70#8 then
    mem.check_perms addr 1#64 PROT_WRITE → Stored mem.host 1 addr ((x d.rt).setWidth 8)
  else if op = 0x71#8 then
    mem.check_perms addr 2#64 PROT_WRITE → Stored mem.host 2 addr ((x d.rt).setWidth 16)
  else True

section Outcomes

variable {c : Word} {g : Guest}

theorem SameGuest.refl (c : Word) (g : Guest) : SameGuest c g g :=
  ⟨fun _ _ _ => rfl, fun _ _ => rfl⟩

/-- A step that also writes a register. -/
theorem sameGuest_set_reg {r : Byte} (hr : IsArm r) (v : Word) :
    SameGuest c (set_reg g r v) (next g) ↔ v = g.1.x r.toNat := by
  have hr' : r.toNat < 32 := hr
  have hword := set_reg_word (g := g) hr v
  have hnext : ∀ i, (next g).1.word i = if i = 32 then g.1.pc + 4#64 else g.1.word i :=
    fun _ => rfl
  constructor
  · rintro ⟨h, -⟩
    have hne : r.toNat ≠ 32 := by omega
    have h' := h r.toNat (by omega) (by omega)
    rwa [hword, hnext, if_neg hne, if_neg hne, if_pos rfl] at h'
  · rintro rfl
    refine ⟨fun i _ _ => ?_, fun _ _ => rfl⟩
    rw [hword, hnext]
    split_ifs with h₁ h₂
    · rfl
    · rw [h₂]
      rfl
    · rfl

/-- A step to another address. -/
theorem sameGuest_set_pc (t : Word) :
    SameGuest c (g.1.set_pc t, g.2) (next g) ↔ t = g.1.pc + 4#64 := by
  constructor
  · rintro ⟨h, -⟩
    exact h 32 (by omega) (by omega)
  · rintro rfl
    exact .refl c _

theorem sameGuest_branch_if (taken : Bool) (o : BitVec 32) :
    SameGuest c (branch_if g taken o) (next g) ↔ taken = false ∨ o = 4#32 := by
  cases taken with
  | false => simp [branch_if, SameGuest.refl]
  | true =>
    have h4 : o.setWidth 64 = 4#64 ↔ o = 4#32 := by
      constructor
      · intro h
        have := congrArg (BitVec.setWidth 32) h
        simpa using this
      · rintro rfl
        rfl
    rw [show branch_if g true o = (g.1.set_pc (g.1.pc + o.setWidth 64), g.2) from rfl,
      sameGuest_set_pc, BitVec.add_right_inj, h4]
    simp

/-- `crash` changes nothing that is compared. -/
theorem sameGuest_crash : SameGuest c (next (crash g.1, g.2)) (next g) := by
  refine ⟨fun i hi _ => ?_, fun _ _ => rfl⟩
  have h103 : i ≠ 103 := by omega
  simp [next, crash, CPUContext.set_state_flags, CPUContext.set_pc, CPUContext.pc, h103]

theorem sameGuest_load {n : ℕ} {r : Byte} (hr : IsArm r) (val : Option (BitVec n)) :
    SameGuest c (load g r val) (next g) ↔ ∀ v, val = some v → v.setWidth 64 = g.1.x r.toNat := by
  cases val with
  | none => exact ⟨fun _ => nofun, fun _ => sameGuest_crash⟩
  | some v =>
    rw [load, sameGuest_set_reg hr]
    simp

/-- A store that does not hit the context. -/
theorem sameGuest_store {n k : ℕ} (hk : k ≤ 8) (a : Word) (v : BitVec n)
    (hclear : ∀ b, (b - c).toNat < 8 * CPUContext.words →
      (store g (g.2.write_u k a v)).2.host b = g.2.host b) :
    SameGuest c (store g (g.2.write_u k a v)) (next g) ↔
      (g.2.check_perms a (BitVec.ofNat 64 k) PROT_WRITE → Stored g.2.host k a v) := by
  by_cases hp : g.2.check_perms a (BitVec.ofNat 64 k) PROT_WRITE = true
  · have hhost : (store g (g.2.write_u k a v)).2.host = writeN k g.2.host a v := by
      simp [store, next, MemoryManager.write_u, hp]
    have hnext : (next g).2.host = g.2.host := rfl
    simp only [hp, true_implies]
    constructor
    · rintro ⟨-, h⟩ i hi
      have hall : ∀ b, writeN k g.2.host a v b = g.2.host b := by
        intro b
        rcases Nat.lt_or_ge (b - c).toNat (8 * CPUContext.words) with hb | hb
        · rw [← hhost, hclear b hb]
        · rw [← hhost, h b hb, hnext]
      rw [← hall, writeN_self _ _ _ hi hk]
    · intro h
      refine ⟨fun _ _ _ => rfl, fun b _ => ?_⟩
      rw [hhost, hnext, writeN]
      split_ifs with hb
      · rw [← h _ hb, add_sub_toNat]
      · rfl
  · have hstore : store g (g.2.write_u k a v) = next g := by
      simp [store, MemoryManager.write_u, hp]
    rw [hstore]
    exact ⟨fun _ h => absurd h hp, fun _ => .refl c _⟩

end Outcomes

/-! ## The two engines -/

section Engines

variable {w : BitVec 32} {d : DecodedInstr} {g : Guest} {host_code : Word} {s : State}

theorem followsInterpreter_iff_sameGuest (hop : d.opcode ∉ build_cases)
    (hb : host_code ≠ 0#64) (host : Mem) (hctx : CtxAt s.mem (s.reg rdi) g.1)
    (hmem : s.mem = g.2.host) : FollowsInterpreter d g host_code host s ↔
      SameGuest (s.reg rdi) (execute_decoded g d) (next g) := by
  let m := writeN 8 s.mem (off (s.reg rdi) (8 * 32)) (g.1.pc + 4#64)
  obtain ⟨s₀, hrun, hm⟩ := returns_default hop g.1.pc hb host s
  replace hm : s₀.mem = m := hm
  have hword : ∀ i < CPUContext.words, X86.word m (s.reg rdi) (8 * i) = (next g).1.word i :=
    hctx.write (by decide) _
  have hhost : ∀ a, 8 * CPUContext.words ≤ (a - s.reg rdi).toNat → m a = (next g).2.host a := by
    intro a ha
    have h := ctxOutside_write s.mem (s.reg rdi) (by decide : 32 < CPUContext.words)
      (g.1.pc + 4#64) a ha
    exact h.trans (by rw [hmem]; rfl)
  have hlt : ∀ i ≤ 34, i < CPUContext.words := fun i hi => Nat.lt_of_le_of_lt hi (by decide)
  constructor
  · rintro ⟨s', hs, h₁, h₂⟩
    obtain rfl := (hrun s').mp hs
    rw [hm] at h₁ h₂
    exact ⟨fun i hi hne => by rw [← h₁ i hi hne, hword i (hlt i hi)],
      fun a ha => by rw [← h₂ a ha, hhost a ha]⟩
  · rintro ⟨h₁, h₂⟩
    refine ⟨s₀, (hrun s₀).mpr rfl, fun i hi hne => ?_, fun a ha => ?_⟩
    · rw [hm, hword i (hlt i hi), h₁ i hi hne]
    · rw [hm, hhost a ha, h₂ a ha]

/-- The interpreter on the opcodes without a case, one by one. -/
theorem sameGuest_execute_iff {c : Word} (hd : WellDecoded d) (hop : d.opcode ∉ build_cases)
    (hclear : ∀ b, (b - c).toNat < 8 * CPUContext.words →
      (execute_decoded g d).2.host b = g.2.host b) :
    SameGuest c (execute_decoded g d) (next g) ↔ StepsOver g d := by
  obtain ⟨-, h40, -⟩ := hd.fits
  unfold StepsOver
  dsimp only
  by_cases h10 : d.opcode = 0x10#8
  · rw [if_pos h10, execute_and h10, logical, sameGuest_set_reg hd.rd]
  rw [if_neg h10]
  by_cases h12 : d.opcode = 0x12#8
  · rw [if_pos h12, execute_orr h12, logical, sameGuest_set_reg hd.rd]
  rw [if_neg h12]
  by_cases h14 : d.opcode = 0x14#8
  · rw [if_pos h14, execute_eor h14, logical, sameGuest_set_reg hd.rd]
  rw [if_neg h14]
  by_cases h52 : d.opcode = 0x52#8
  · rw [if_pos h52, execute_br h52, sameGuest_set_pc]
  rw [if_neg h52]
  by_cases h57 : d.opcode = 0x57#8 ∨ d.opcode = 0x58#8
  · rw [if_pos h57, execute_tb h57, sameGuest_branch_if, beq_eq_false_iff_ne]
  rw [if_neg h57]
  by_cases h60 : d.opcode = 0x60#8
  · rw [if_pos h60, execute_ldrb h60, sameGuest_load hd.rt]
  rw [if_neg h60]
  by_cases h61 : d.opcode = 0x61#8
  · rw [if_pos h61, execute_ldrh h61, sameGuest_load hd.rt]
  rw [if_neg h61]
  by_cases h70 : d.opcode = 0x70#8
  · rw [execute_strb h70, MemoryManager.write_u8] at hclear ⊢
    rw [if_pos h70, sameGuest_store (by decide) _ _ hclear]
  rw [if_neg h70]
  by_cases h71 : d.opcode = 0x71#8
  · rw [execute_strh h71, MemoryManager.write_u16] at hclear ⊢
    rw [if_pos h71, sameGuest_store (by decide) _ _ hclear]
  rw [if_neg h71, iff_true]
  -- the interpreter has no case either
  have he : execute_decoded g d = next (crash g.1, g.2) := by
    simp only [build_cases, List.mem_cons, List.not_mem_nil, or_false, not_or] at hop h57
    simp [execute_decoded, hop, h10, h12, h14, h52, h57, h60, h61, h70, h71, h40]
  rw [he]
  exact sameGuest_crash

/-- **Missing cases**: the block of an instruction `build_instr` has no case for (it is never
rejected) follows the interpreter exactly where the interpreter only steps over the instruction. -/
theorem followsInterpreter_iff (hw : decode? w = some d) (hop : d.opcode ∉ build_cases)
    (hb : host_code ≠ 0#64) (host : Mem) (hctx : CtxAt s.mem (s.reg rdi) g.1)
    (hmem : s.mem = g.2.host) (hclear : ∀ b, (b - s.reg rdi).toNat < 8 * CPUContext.words →
      (execute_decoded g d).2.host b = g.2.host b) :
    (IRBuilder.build [d] g.1.pc = none ∨ FollowsInterpreter d g host_code host s) ↔
      StepsOver g d := by
  obtain ⟨ir_block, hbuild, -⟩ := build_spec [d] g.1.pc
  rw [hbuild, followsInterpreter_iff_sameGuest hop hb host hctx hmem,
    sameGuest_execute_iff (decode?_wellDecoded hw) hop hclear]
  simp

end Engines

/-- The cleared context over a cleared memory in which nothing is mapped. -/
def cleared_guest : Guest := (.zero, .new fun _ => 0#8)

/-- At 0x1000, with the next address in `x1` and nothing mapped. -/
def next_in_x1 : Guest :=
  let ctx := ((CPUContext.zero.set_x 1 0x1004#64).set_x 2 7#64).set_pc 0x1000#64
  (ctx, .new (ctx_mem ctx))

/-- `br x1` to the next instruction. -/
theorem followsInterpreter_iff_br :
    IRBuilder.build [(decode 0xD61F0020#32).2] next_in_x1.1.pc = none ∨
      FollowsInterpreter (decode 0xD61F0020#32).2 next_in_x1 0x8000#64 (fun _ => 0#8)
        (holding next_in_x1.1) := by
  have hw : decode? 0xD61F0020#32 = some (decode 0xD61F0020#32).2 := by decide
  have hop : (decode 0xD61F0020#32).2.opcode ∉ build_cases := by decide
  have hstore : (execute_decoded next_in_x1 (decode 0xD61F0020#32).2).2 = next_in_x1.2 := rfl
  have hclear : ∀ b, (b - (holding next_in_x1.1).reg rdi).toNat < 8 * CPUContext.words →
      (execute_decoded next_in_x1 (decode 0xD61F0020#32).2).2.host b = next_in_x1.2.host b := by
    intro b _
    rw [hstore]
  have hsteps : StepsOver next_in_x1 (decode 0xD61F0020#32).2 := by
    have htarget : x_or_sp next_in_x1.1 (decode 0xD61F0020#32).2.rn = next_in_x1.1.pc + 4#64 := by decide
    exact htarget
  exact (followsInterpreter_iff hw hop (by decide) _ (ctxAt_holding _) rfl hclear).mpr hsteps

/-- `br x1` with `x1 = 0` at `pc = 0` -/
theorem not_followsInterpreter : (decode 0xD61F0020#32).1 = true ∧
    (decode 0xD61F0020#32).2.opcode ∉ build_cases ∧
    (execute_decoded cleared_guest (decode 0xD61F0020#32).2).1.crashed = false ∧
    ¬ (IRBuilder.build [(decode 0xD61F0020#32).2] cleared_guest.1.pc = none ∨
      FollowsInterpreter (decode 0xD61F0020#32).2 cleared_guest 0x8000#64 (fun _ => 0#8) .cleared) := by
  have hw : decode? 0xD61F0020#32 = some (decode 0xD61F0020#32).2 := by decide
  have hop : (decode 0xD61F0020#32).2.opcode ∉ build_cases := by decide
  have hctx : CtxAt State.cleared.mem (State.cleared.reg rdi) cleared_guest.1 := ctxAt_zero _
  have hmem : State.cleared.mem = cleared_guest.2.host := rfl
  refine ⟨by decide, hop, by decide, ?_⟩
  rintro (hbuild | hfollows)
  · obtain ⟨ir_block, h, -⟩ := build_spec [(decode 0xD61F0020#32).2] cleared_guest.1.pc
    exact nomatch hbuild.symm.trans h
  · have h := (followsInterpreter_iff_sameGuest hop (by decide) _ hctx hmem).mp hfollows
    exact absurd (h.1 32 (by decide) (by decide)) (by decide)

end ExecEngine

end Bbarm64
