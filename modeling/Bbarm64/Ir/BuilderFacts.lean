import Bbarm64.Ir.Optimizer
import Bbarm64.Decoder.DecodeFacts
import Bbarm64.Backend.LowerAsm

/-!
# Ir.BuilderFacts — the IR of a decoded block

`instrIr` is what `build_instr` appends for one instruction and `irFrom` what `build` makes of a
list.  `FlagIr` holds of the IR of any instruction, `GoodIr` of the IR of a well decoded one.
-/

namespace Bbarm64

open X86 ARM64Decoder IRLowering

namespace IRBuilder

/-! ## The instructions of a block -/

/-- `f` appends to every block the same list, one that satisfies `Q`. -/
def Builds (Q : List IRInst → Prop) (f : IRBlock → Option IRBlock) : Prop :=
  ∃ l, Q l ∧ ∀ block, ∃ block', f block = some block' ∧
    block'.instructions = block.instructions ++ l

section Builds

variable {Q : List IRInst → Prop}

theorem Builds.ite {c : Prop} [Decidable c] {f g : IRBlock → Option IRBlock}
    (hf : c → Builds Q f) (hg : Builds Q g) : Builds Q fun b => if c then f b else g b := by
  by_cases h : c
  · simpa only [if_pos h] using hf h
  · simpa only [if_neg h] using hg

theorem Builds.one {ir : IRInst} (h : Q [ir]) : Builds Q fun b => some (b.push_back ir) :=
  ⟨[ir], h, fun _ => ⟨_, rfl, rfl⟩⟩

theorem Builds.two {a b : IRInst} (h : Q [a, b]) (f : IRBlock → IRBlock)
    (hf : ∀ block, (f block).instructions = block.instructions) :
    Builds Q fun block => some (((f block).push_back a).push_back b) :=
  ⟨[a, b], h, fun block => ⟨_, rfl, by simp [hf]⟩⟩

end Builds

/-- What `build_instr` appends. -/
def instrIr (instr : DecodedInstr) (pc : Word) : List IRInst :=
  match build_instr instr pc {} with
  | some block => block.instructions
  | none => []

theorem Builds.instrIr {Q : List IRInst → Prop} {d : DecodedInstr} {pc : Word}
    (h : Builds Q (build_instr d pc)) : Q (instrIr d pc) ∧
      ∀ block, ∃ block', build_instr d pc block = some block' ∧
        block'.instructions = block.instructions ++ IRBuilder.instrIr d pc := by
  obtain ⟨l, hl, hf⟩ := h
  obtain ⟨b, hb, hi⟩ := hf {}
  have e : IRBuilder.instrIr d pc = l := by
    simp only [IRBuilder.instrIr, hb, hi, List.nil_append]
  rw [e]
  exact ⟨hl, hf⟩

/-! ## The IR of one instruction -/

/-- Flags are set by ADD, SUB, CMP and TST only, and used by the conditional jump only. -/
structure FlagIr (ir : IRInst) : Prop where
  set : ir.flags_set = true → ir.op = .ADD ∨ ir.op = .SUB ∨ ir.op = .CMP ∨ ir.op = .TST
  used : ir.flags_used = true ↔ ir.op = .JMP_COND

/-- The lowering knows the instruction, and its register fields name guest registers. -/
structure GoodIr (ir : IRInst) : Prop where
  lowerable : Lowerable ir
  dest : IsArm (u8 ir.dest)
  src1 : IsArm (u8 ir.src1)
  src2 : ir.src2 ≠ IR_IMM → IsArm (u8 ir.src2)
  pair : ir.op = .LOAD_PAIR → ir.src2 ≠ IR_IMM

@[simp] theorem u8_reg (r : Byte) : u8 (reg r) = r := by
  simp [u8, reg, BitVec.setWidth_setWidth_of_le]

theorem reg_ne_imm : ∀ r : Byte, reg r ≠ IR_IMM := by decide

/-- The list `build_instr` appends for `d`: its flags, and its operands if `d` is well decoded. -/
def IrOf (d : DecodedInstr) (l : List IRInst) : Prop :=
  (∀ ir ∈ l, FlagIr ir) ∧ (WellDecoded d → ∀ ir ∈ l, GoodIr ir)

theorem IrOf.one {d : DecodedInstr} {ir : IRInst} (hf : FlagIr ir)
    (hg : WellDecoded d → GoodIr ir) : IrOf d [ir] := by
  constructor
  · simpa using hf
  · simpa using hg

theorem IrOf.two {d : DecodedInstr} {a b : IRInst} (ha : IrOf d [a]) (hb : IrOf d [b]) :
    IrOf d [a, b] := by
  simp only [IrOf, List.mem_cons, List.not_mem_nil, or_false, forall_eq, forall_eq_or_imp] at *
  exact ⟨⟨ha.1, hb.1⟩, fun hd => ⟨ha.2 hd, hb.2 hd⟩⟩

theorem isArm_none : IsArm (u8 IR_NONE) := by decide

theorem none_ne_imm : IR_NONE ≠ IR_IMM := by decide

theorem irOf_arith {d : DecodedInstr} {op : IROpcode} {ir₀ : IRInst} (h₀ : ir₀.flags_used = false)
    (hop : op = .ADD ∨ op = .SUB) (ho : d.opcode = 0x00#8 ∨ d.opcode = 0x01#8) :
    IrOf d [{ arith ir₀ d with op := op }] := by
  have hjmp : op ≠ .JMP_COND ∧ op ≠ .LOAD_PAIR := by rcases hop with rfl | rfl <;> decide
  refine .one ⟨fun _ => hop.imp id .inl, ?_⟩ fun hd => ?_
  · unfold arith
    split_ifs <;> simp [h₀, hjmp]
  · have hrd := hd.rd
    have hrn := hd.rn
    unfold arith
    split_ifs with hrm
    · have himm : d.imm ≤ 0xFFFFFFFF#64 := BitVec.le_trans (hd.imm hrm ho) (by decide)
      refine ⟨?_, by simpa, by simpa, fun h => absurd rfl h, fun h => absurd h hjmp.2⟩
      rcases hop with rfl | rfl <;> exact fun _ => himm
    · refine ⟨?_, by simpa, by simpa, fun _ => ?_, fun h => absurd h hjmp.2⟩
      · rcases hop with rfl | rfl <;> exact fun h => absurd h (reg_ne_imm _)
      · simpa using hd.rm.resolve_right fun h => hrm h.1

theorem irOf_shift {d : DecodedInstr} {op : IROpcode} {ir₀ : IRInst} (h₀ : ir₀.flags_used = false)
    (h₁ : ir₀.flags_set = false) (hop : op = .SAR ∨ op = .SHR ∨ op = .SHL) :
    IrOf d [{ shift_imm ir₀ d with op := op }] := by
  have hjmp : op ≠ .JMP_COND ∧ op ≠ .LOAD_PAIR := by rcases hop with rfl | rfl | rfl <;> decide
  refine .one ⟨by simp [shift_imm, h₁], by simp [shift_imm, h₀, hjmp]⟩ fun hd => ?_
  have hrd := hd.rd
  have hrn := hd.rn
  refine ⟨?_, by simpa [shift_imm], by simpa [shift_imm], fun h => absurd rfl h,
    fun h => absurd h hjmp.2⟩
  rcases hop with rfl | rfl | rfl <;> rfl

/-- An instruction without flags whose opcode the lowering knows whatever its operands are. -/
def Free (op : IROpcode) : Prop :=
  op ∈ [IROpcode.MOV_IMM, .SET_REG, .LOAD64, .LOAD32, .STORE64, .STORE32, .LOAD_PAIR, .STORE_PAIR,
    .JMP, .CALL, .RET, .NOP, .BARRIER]

instance (op : IROpcode) : Decidable (Free op) := inferInstanceAs (Decidable (_ ∈ _))

theorem irOf_free {d : DecodedInstr} {ir : IRInst} (op : IROpcode) (he : ir.op = op) (hop : Free op)
    (h₀ : ir.flags_used = false) (h₁ : ir.flags_set = false) (hr : WellDecoded d →
      IsArm (u8 ir.dest) ∧ IsArm (u8 ir.src1) ∧ IsArm (u8 ir.src2) ∧ ir.src2 ≠ IR_IMM) :
    IrOf d [ir] := by
  rw [← he] at hop
  have hne : ir.op ≠ .JMP_COND := by
    intro h
    rw [h] at hop
    exact absurd hop (by decide)
  refine .one ⟨by simp [h₁], by simp [h₀, hne]⟩ fun hd => ?_
  obtain ⟨r1, r2, r3, r4⟩ := hr hd
  refine ⟨?_, r1, r2, fun _ => r3, fun _ => r4⟩
  simp only [Free, List.mem_cons, List.not_mem_nil, or_false] at hop
  unfold Lowerable
  rcases hop with h | h | h | h | h | h | h | h | h | h | h | h | h <;> rw [h] <;> trivial

/-- CMP and TST. -/
theorem irOf_compare {d : DecodedInstr} {ir : IRInst} (hop : ir.op = .CMP ∨ ir.op = .TST)
    (h₀ : ir.flags_used = false) (himm : ir.imm = 0#64)
    (hr : WellDecoded d → IsArm (u8 ir.dest) ∧ IsArm (u8 ir.src1) ∧ IsArm (u8 ir.src2)) :
    IrOf d [ir] := by
  have hjmp : ir.op ≠ .JMP_COND ∧ ir.op ≠ .LOAD_PAIR := by rcases hop with h | h <;> simp [h]
  refine .one ⟨fun _ => .inr (.inr hop), by simp [h₀, hjmp]⟩ fun hd => ?_
  obtain ⟨r1, r2, r3⟩ := hr hd
  refine ⟨?_, r1, r2, fun _ => r3, fun h => absurd h hjmp.2⟩
  unfold Lowerable
  rcases hop with h | h <;> rw [h]
  · intro _
    rw [himm]
    decide
  · trivial

theorem irOf_jump {d : DecodedInstr} {ir : IRInst} (hop : ir.op = .JMP_COND)
    (h₀ : ir.flags_used = true) (h₁ : ir.flags_set = false) (hd : ir.dest = IR_NONE)
    (hs1 : ir.src1 = IR_NONE) (hs2 : ir.src2 = IR_NONE) : IrOf d [ir] := by
  refine .one ⟨by simp [h₁], by simp [h₀, hop]⟩ fun _ => ⟨?_, ?_, ?_, ?_, by simp [hop]⟩
  · unfold Lowerable
    rw [hop]
    trivial
  · exact hd ▸ isArm_none
  · exact hs1 ▸ isArm_none
  · exact fun _ => hs2 ▸ isArm_none

theorem irOf_mov {d : DecodedInstr} (ir : IRInst) (imm : BitVec 64) (h₀ : ir.flags_used = false)
    (h₁ : ir.flags_set = false) (h₂ : ir.src1 = IR_NONE) (h₃ : ir.src2 = IR_NONE) :
    IrOf d [mov_imm ir d imm] := by
  refine irOf_free .MOV_IMM rfl (by decide) h₀ h₁ fun hd => ⟨?_, ?_, ?_, ?_⟩
  · simpa [mov_imm] using hd.rd
  · exact h₂ ▸ isArm_none
  · exact h₃ ▸ isArm_none
  · exact h₃ ▸ none_ne_imm

theorem irOf_cmp {d : DecodedInstr} {op : IROpcode} {ir₀ : IRInst} (hop : op = .CMP ∨ op = .TST)
    (h₀ : ir₀.flags_used = false) (himm : ir₀.imm = 0#64) (hdest : ir₀.dest = IR_NONE)
    (ho : d.opcode = 0x30#8 ∨ d.opcode = 0x31#8) : IrOf d [{ compare ir₀ d with op := op }] := by
  refine irOf_compare hop h₀ himm fun hd => ⟨hdest ▸ isArm_none, ?_, ?_⟩
  · simpa [compare] using hd.rn
  · have := hd.rm.resolve_right fun h => h.2 (by rcases ho with ho | ho <;> rw [ho] <;> decide)
    simpa [compare] using this

/-- No register but the link register. -/
theorem irOf_link {d : DecodedInstr} {ir : IRInst} (op : IROpcode) (he : ir.op = op) (hop : Free op)
    (h₀ : ir.flags_used = false) (h₁ : ir.flags_set = false)
    (h₂ : ir.dest = IR_NONE ∨ ir.dest = 30#16) (h₃ : ir.src1 = IR_NONE ∨ ir.src1 = 30#16)
    (h₄ : ir.src2 = IR_NONE) : IrOf d [ir] := by
  refine irOf_free op he hop h₀ h₁ fun _ => ⟨?_, ?_, h₄ ▸ isArm_none, h₄ ▸ none_ne_imm⟩
  · rcases h₂ with h | h <;> rw [h] <;> decide
  · rcases h₃ with h | h <;> rw [h] <;> decide

/-- CBZ and CBNZ. -/
theorem irOf_cb {d : DecodedInstr} (ir : IRInst) (pc : Word) (cond : Byte)
    (h₀ : ir.flags_used = false) (hdest : ir.dest = IR_NONE) :
    IrOf d [cb_compare ir d, cb_jump d pc cond] := by
  refine .two (irOf_compare (.inl rfl) h₀ rfl fun hd => ⟨hdest ▸ isArm_none, ?_, isArm_none⟩)
    (irOf_jump rfl rfl rfl rfl rfl rfl)
  simpa [cb_compare] using hd.rn

theorem irOf_load {d : DecodedInstr} {op : IROpcode} {ir₀ : IRInst}
    (hop : op = .LOAD64 ∨ op = .LOAD32) (h₀ : ir₀.flags_used = false)
    (h₁ : ir₀.flags_set = false) (h₃ : ir₀.src2 = IR_NONE) :
    IrOf d [{ load ir₀ d with op := op }] := by
  refine irOf_free op rfl (by rcases hop with rfl | rfl <;> decide) h₀ h₁ fun hd =>
    ⟨?_, ?_, h₃ ▸ isArm_none, h₃ ▸ none_ne_imm⟩
  · simpa [load] using hd.rt
  · simpa [load] using hd.rn

theorem irOf_store {d : DecodedInstr} {op : IROpcode} {ir₀ : IRInst}
    (hop : op = .STORE64 ∨ op = .STORE32) (h₀ : ir₀.flags_used = false)
    (h₁ : ir₀.flags_set = false) (h₂ : ir₀.dest = IR_NONE) :
    IrOf d [{ store ir₀ d with op := op }] := by
  refine irOf_free op rfl (by rcases hop with rfl | rfl <;> decide) h₀ h₁ fun hd =>
    ⟨h₂ ▸ isArm_none, ?_, ?_, reg_ne_imm _⟩
  · simpa [store] using hd.rn
  · simpa [store] using hd.rt

/-- Opcodes a well decoded record does not have. -/
theorem irOf_absent {d : DecodedInstr} {ir : IRInst} (op : Byte) (hop : 0x95#8 < op)
    (ho : d.opcode = op) (h₀ : ir.flags_used = false) (h₁ : ir.flags_set = false)
    (hj : ir.op ≠ .JMP_COND) : IrOf d [ir] := by
  refine .one ⟨by simp [h₁], by simp [h₀, hj]⟩ fun hd => ?_
  have h := hd.fits.1
  rw [ho] at h
  exact absurd hop (BitVec.not_lt.mpr h)

theorem builds_instr (d : DecodedInstr) (pc : Word) : Builds (IrOf d) (build_instr d pc) := by
  have hno := isArm_none
  have hni := none_ne_imm
  unfold build_instr
  dsimp only
  refine .ite (fun ho => .one (irOf_arith rfl (.inl rfl) (.inl ho))) ?_
  refine .ite (fun ho => .one (irOf_arith rfl (.inr rfl) (.inr ho))) ?_
  refine .ite (fun _ => .one (irOf_shift rfl rfl (.inl rfl))) ?_
  refine .ite (fun _ => .one (irOf_shift rfl rfl (.inr (.inl rfl)))) ?_
  refine .ite (fun _ => .one (irOf_shift rfl rfl (.inr (.inr rfl)))) ?_
  refine .ite (fun ho => .one (irOf_free .SET_REG rfl (by decide) rfl rfl fun hd => ⟨?_, ?_,
    hno, hni⟩)) ?_
  · simpa using hd.rd
  · have := hd.rm.resolve_right fun h => h.2 (ho ▸ by decide)
    simpa using this
  refine .ite (fun _ => .one (irOf_mov _ _ rfl rfl rfl rfl)) ?_
  refine .ite (fun _ => .one (irOf_mov _ _ rfl rfl rfl rfl)) ?_
  refine .ite (fun _ => .one (irOf_mov _ _ rfl rfl rfl rfl)) ?_
  refine .ite (fun ho => .one (irOf_cmp (.inl rfl) rfl rfl rfl (.inl ho))) ?_
  refine .ite (fun ho => .one (irOf_cmp (.inr rfl) rfl rfl rfl (.inr ho))) ?_
  -- B, BL, RET, B.cond, CBZ and CBNZ
  refine .ite (fun _ => .one (irOf_link .JMP rfl (by decide) rfl rfl (.inl rfl) (.inl rfl) rfl)) ?_
  refine .ite (fun _ => .two (.two
    (irOf_link .SET_REG rfl (by decide) rfl rfl (.inr rfl) (.inl rfl) rfl)
    (irOf_link .CALL rfl (by decide) rfl rfl (.inl rfl) (.inl rfl) rfl)) id fun _ => rfl) ?_
  refine .ite (fun _ => .one (irOf_link .RET rfl (by decide) rfl rfl (.inl rfl) (.inr rfl) rfl)) ?_
  refine .ite (fun _ => ⟨[_], irOf_jump rfl rfl rfl rfl rfl rfl, fun _ => ⟨_, rfl, rfl⟩⟩) ?_
  refine .ite (fun _ => .two (irOf_cb _ pc _ rfl rfl) (fun b => { b with is_conditional := true })
    fun _ => rfl) ?_
  refine .ite (fun _ => .two (irOf_cb _ pc _ rfl rfl) (fun b => { b with is_conditional := true })
    fun _ => rfl) ?_
  -- loads and stores
  refine .ite (fun _ => .one (irOf_load (.inl rfl) rfl rfl rfl)) ?_
  refine .ite (fun _ => .one (irOf_load (.inr rfl) rfl rfl rfl)) ?_
  refine .ite (fun _ => .one (irOf_store (.inl rfl) rfl rfl rfl)) ?_
  refine .ite (fun _ => .one (irOf_store (.inr rfl) rfl rfl rfl)) ?_
  refine .ite (fun ho => .one (irOf_free .LOAD_PAIR rfl (by decide) rfl rfl fun hd => ⟨?_, ?_, ?_,
    reg_ne_imm _⟩)) ?_
  · simpa using hd.rt
  · simpa using hd.rn
  · have := hd.rm.resolve_right fun h => h.2 (ho ▸ by decide)
    simpa using this
  refine .ite (fun _ => .one (irOf_free .STORE_PAIR rfl (by decide) rfl rfl fun hd => ⟨hno, ?_, ?_,
    reg_ne_imm _⟩)) ?_
  · simpa using hd.rn
  · simpa using hd.rt
  refine .ite (fun _ => .one (irOf_link .NOP rfl (by decide) rfl rfl (.inl rfl) (.inl rfl) rfl)) ?_
  refine .ite (fun _ => .one (irOf_link .BARRIER rfl (by decide) rfl rfl (.inl rfl) (.inl rfl) rfl)) ?_
  -- the system call and the vector forms, which the decoder never gives
  refine .ite (fun ho => .one (irOf_absent _ (by decide) ho rfl rfl (by simp))) ?_
  refine .ite (fun ho => .one (irOf_absent _ (by decide) ho rfl rfl (by simp))) ?_
  refine .ite (fun ho => .one (irOf_absent _ (by decide) ho rfl rfl (by simp))) ?_
  refine .ite (fun ho => .one (irOf_absent _ (by decide) ho rfl rfl (by simp))) ?_
  refine .ite (fun ho => .one (irOf_absent _ (by decide) ho rfl rfl (by simp))) ?_
  refine .ite (fun ho => .one (irOf_absent _ (by decide) ho rfl rfl (by simp))) ?_
  refine .ite (fun ho => .one (irOf_absent _ (by decide) ho rfl rfl (by simp))) ?_
  refine .ite (fun ho => .one (irOf_absent _ (by decide) ho rfl rfl (by simp))) ?_
  exact .one (irOf_link .NOP rfl (by decide) rfl rfl (.inl rfl) (.inl rfl) rfl)

/-- `build_instr` never fails, and appends `instrIr`. -/
theorem build_instr_spec (d : DecodedInstr) (pc : Word) (block : IRBlock) :
    ∃ block', build_instr d pc block = some block' ∧
      block'.instructions = block.instructions ++ instrIr d pc :=
  (builds_instr d pc).instrIr.2 block

theorem instrIr_flagIr (d : DecodedInstr) (pc : Word) : ∀ ir ∈ instrIr d pc, FlagIr ir :=
  (builds_instr d pc).instrIr.1.1

theorem instrIr_goodIr {d : DecodedInstr} (hd : WellDecoded d) (pc : Word) :
    ∀ ir ∈ instrIr d pc, GoodIr ir := (builds_instr d pc).instrIr.1.2 hd

/-! ## The IR of a block -/

/-- The program counter of instruction `i`: `start_pc + i * 4` with a 32-bit product. -/
def pcAt (start_pc : Word) (i : ℕ) : Word := start_pc + (BitVec.ofNat 32 i * 4#32).setWidth 64

/-- The IR of a list of instructions whose first has index `i`, up to the first branch. -/
def irFrom (start_pc : Word) : ℕ → List DecodedInstr → List IRInst
  | _, [] => []
  | i, d :: rest =>
    instrIr d (pcAt start_pc i) ++ if ends_block d.category then [] else irFrom start_pc (i + 1) rest

theorem build_from_spec (start_pc : Word) (count : ℕ) (ds : List DecodedInstr) :
    ∀ (i : ℕ) (out : IRBlock), ∃ block, build_from start_pc count i ds out = some block ∧
      block.instructions = out.instructions ++ irFrom start_pc i ds := by
  induction ds with
  | nil => exact fun i out => ⟨_, rfl, by simp [irFrom]⟩
  | cons d rest ih =>
    intro i out
    obtain ⟨b, hb, hi⟩ := build_instr_spec d (pcAt start_pc i) out
    unfold pcAt at hb
    by_cases he : ends_block d.category
    · refine ⟨{ b with arm_instr_count := BitVec.ofNat 32 (i + 1) }, ?_, ?_⟩
      · simp [build_from, hb, he]
      · simp [irFrom, he, hi]
    · obtain ⟨b', hb', hi'⟩ := ih (i + 1) b
      refine ⟨b', ?_, ?_⟩
      · simp [build_from, hb, he, hb']
      · simp [irFrom, he, hi', hi]

/-- `build` succeeds on every list. -/
theorem build_spec (ds : List DecodedInstr) (start_pc : Word) :
    ∃ block, build ds start_pc = some block ∧ block.instructions = irFrom start_pc 0 ds := by
  obtain ⟨b, hb, hi⟩ := build_from_spec start_pc ds.length ds 0 { arm_pc_start := start_pc }
  simp only [build, hb, Option.bind_eq_bind, Option.bind_some, Option.pure_def]
  exact ⟨_, rfl, by simpa using hi⟩

theorem mem_irFrom {start_pc : Word} {i : ℕ} {ds : List DecodedInstr} {ir : IRInst}
    (h : ir ∈ irFrom start_pc i ds) : ∃ d ∈ ds, ∃ pc, ir ∈ instrIr d pc := by
  induction ds generalizing i with
  | nil => simp [irFrom] at h
  | cons d rest ih =>
    rcases List.mem_append.mp h with h | h
    · exact ⟨d, by simp, _, h⟩
    · split_ifs at h
      · simp at h
      · obtain ⟨d', hd', pc, hpc⟩ := ih h
        exact ⟨d', by simp [hd'], pc, hpc⟩

theorem irFrom_flagIr {start_pc : Word} {i : ℕ} {ds : List DecodedInstr} :
    ∀ ir ∈ irFrom start_pc i ds, FlagIr ir := by
  intro ir h
  obtain ⟨d, -, pc, hpc⟩ := mem_irFrom h
  exact instrIr_flagIr d pc ir hpc

theorem irFrom_goodIr {start_pc : Word} {i : ℕ} {ds : List DecodedInstr}
    (hds : ∀ d ∈ ds, WellDecoded d) : ∀ ir ∈ irFrom start_pc i ds, GoodIr ir := by
  intro ir h
  obtain ⟨d, hd, pc, hpc⟩ := mem_irFrom h
  exact instrIr_goodIr (hds d hd) pc ir hpc

end IRBuilder

end Bbarm64
