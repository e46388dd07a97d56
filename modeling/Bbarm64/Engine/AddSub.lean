import Bbarm64.Decoder.ImmediateForms
import Bbarm64.Engine.Compare
import Bbarm64.Engine.Compile
import Bbarm64.Engine.FlagFrame
import Bbarm64.Engine.LoadStore

/-!
# Engine.AddSub — ADD and SUB in the two engines

Both engines put the 64-bit result into the word of the register number, and number 31 is the word
of `sp`: so CMP and CMN, which are SUBS and ADDS to the zero register, write `sp`.  The interpreter
takes the immediate of the record for its second operand, in the register form too, and never sets
the flags.
-/

namespace Bbarm64

open X86 ARM64Decoder IRBuilder IRLowering

namespace ExecEngine

/-- ADD and SUB. -/
def IsAddSub (op : Byte) : Prop := op = 0x00#8 ∨ op = 0x01#8

/-- The result of a record, of `a` and `b`. -/
def addSub (d : DecodedInstr) (a b : Word) : Word := if d.opcode = 0x00#8 then a + b else a - b

/-- The IR of the immediate form. -/
def addSubIr (d : DecodedInstr) : IRInst where
  op := if d.opcode = 0x00#8 then .ADD else .SUB
  dest := reg d.rd
  src1 := reg d.rn
  src2 := IR_IMM
  imm := d.imm
  size := if d.size ≠ 0#8 then 8#8 else 4#8
  flags_set := d.sets_flags

/-! ## The block -/

section Block

variable {d : DecodedInstr} {s : State} {c : Word} {ctx : CPUContext}

theorem instrIr_addSub (hop : IsAddSub d.opcode) (hrm : d.rm = 0xFF#8) (pc : Word) :
    instrIr d pc = [addSubIr d] := by
  rcases hop with h | h <;> simp [instrIr, build_instr, h, arith, hrm, addSubIr, IRBlock.push_back]

def addSubOp (d : DecodedInstr) : AluOp := if d.opcode = 0x00#8 then .add else .sub

theorem lowerAsm_addSub (hop : IsAddSub d.opcode) (ft : Word) : lowerAsm ft (addSubIr d) =
    [ldArm d.rn rax, .aluI (addSubOp d) rax (d.imm.setWidth 32)] ++ saveNzcvIf d.sets_flags ++
      [stArm rax d.rd] := by
  rcases hop with h | h <;> simp [lowerAsm, addSubIr, addSubOp, h, aluAsm]

theorem not_returning_addSub (hop : IsAddSub d.opcode) : ¬ Returning (addSubIr d).op := by
  rcases hop with h | h <;> simp [addSubIr, h, Returning]

theorem lowerable_addSub (hop : IsAddSub d.opcode) (himm : d.imm ≤ 0xFFF000#64) :
    Lowerable (addSubIr d) := by
  have hle : d.imm ≤ 0xFFFFFFFF#64 := BitVec.le_trans himm (by decide)
  rcases hop with h | h <;> simp only [Lowerable, addSubIr, h] <;> exact fun _ => hle

/-- The state in front of the flags. -/
theorem run_addSub_head (hop : IsAddSub d.opcode) (himm : d.imm ≤ 0xFFF000#64) (hrn : IsArm d.rn)
    (hc : s.reg r12 = c) (hctx : CtxAt s.mem c ctx) :
    let s₁ := execAll [ldArm d.rn rax, .aluI (addSubOp d) rax (d.imm.setWidth 32)] s
    s₁.reg rax = addSub d (ctx.x d.rn.toNat) d.imm ∧ s₁.reg r12 = c ∧ s₁.reg rsp = s.reg rsp ∧
      s₁.mem = s.mem := by
  intro s₁
  have hx : X86.word s.mem c (8 * d.rn.toNat) = ctx.x d.rn.toNat :=
    hctx _ (Nat.lt_of_lt_of_le hrn (by decide))
  have hs₁ : s₁ = execAlu (addSubOp d) rax d.imm (s.setReg rax (ctx.x d.rn.toNat)) := by
    show exec (.aluI (addSubOp d) rax (d.imm.setWidth 32)) (exec (ldArm d.rn rax) s) = _
    rw [exec_ldArm hc hrn, hx, exec, signExtend_imm himm]
  have hr12 : (r12 : Reg) ≠ rax := by decide
  have hrsp : (rsp : Reg) ≠ rax := by decide
  rw [hs₁]
  rcases hop with h | h <;>
    simp [addSubOp, addSub, h, execAlu, AluOp.eval, hr12, hrsp, hc]

/-- **The block of ADD and SUB**: the register of the number gets the 64-bit result. -/
theorem run_addSub (hop : IsAddSub d.opcode) (himm : d.imm ≤ 0xFFF000#64) (hrn : IsArm d.rn)
    (hrd : IsArm d.rd) (hc : s.reg r12 = c) (hctx : CtxAt s.mem c ctx) (hstack : StackClear s c)
    (ft : Word) {i : ℕ} (hi : i ≤ 31) :
    X86.word (execAll (lowerAsm ft (addSubIr d)) s).mem c (8 * i) =
      if i = d.rd.toNat then addSub d (ctx.x d.rn.toNat) d.imm else ctx.word i := by
  obtain ⟨hrax, hr12, hrsp, hmem⟩ := run_addSub_head hop himm hrn hc hctx
  have hlt : d.rd.toNat < 32 := hrd
  have hw : CPUContext.words = 104 := rfl
  rw [lowerAsm_addSub hop, execAll_append, execAll_append]
  generalize execAll [ldArm d.rn rax, _] s = s₁ at hrax hr12 hrsp hmem ⊢
  have hstack₁ : StackClear s₁ c := by rwa [StackClear, hrsp]
  obtain ⟨hrax₂, hr12₂, hword⟩ := saveNzcvIf_spec hr12 hstack₁ d.sets_flags
  generalize execAll (saveNzcvIf d.sets_flags) s₁ = s₂ at hrax₂ hr12₂ hword ⊢
  rw [execAll_cons, execAll_nil, exec_stArm_mem hr12₂ hrd, hrax₂, hrax]
  split_ifs with he
  · rw [he, word_write_same]
  · rw [word_write_ne (by omega) (by omega) (by omega), hword i (by omega), hmem, hctx i (by omega)]

end Block

/-! ## The interpreter -/

section Interpreter

variable {g : Guest} {d : DecodedInstr}

/-- The second operand is `imm`, whatever the form. -/
theorem execute_addSub (hop : IsAddSub d.opcode) :
    execute_decoded g d = set_reg g d.rd (addSub d (g.1.x d.rn.toNat) d.imm) := by
  rcases hop with h | h
  · rw [execute_add h, addSub, if_pos h]
  · rw [execute_sub h, addSub, if_neg (by rw [h]; decide)]

/-- The second operand of A64: `rm = 0xFF` marks the immediate form. -/
def operand (ctx : CPUContext) (d : DecodedInstr) : Word :=
  if d.rm = 0xFF#8 then d.imm else ctx.x d.rm.toNat

/-- The A64 flags of the operation. -/
def addSubFlags (d : DecodedInstr) (a b : Word) : A64.Nzcv :=
  if d.opcode = 0x00#8 then .ofAdd a b else .ofSub a b

/-- The interpreter leaves the result in `rd`, and the flags in `nzcv` if the record sets them. -/
def AddsA64 (g : Guest) (d : DecodedInstr) : Prop :=
  let a := g.1.x d.rn.toNat
  let b := operand g.1 d
  let g' := execute_decoded g d
  g'.1.x d.rd.toNat = addSub d a b ∧
    g'.1.nzcv = if d.sets_flags then nzcv_word (addSubFlags d a b) else g.1.nzcv

theorem addSub_right_inj (a : Word) {b b' : Word} : addSub d a b = addSub d a b' ↔ b = b' := by
  unfold addSub
  split_ifs
  · exact BitVec.add_right_inj a
  · exact BitVec.sub_right_inj a

/-- **Interpreted ADD and SUB**: they are A64's exactly if the second operand happens to be `imm`, and
the flags, where they are set, happen to be in `nzcv` already. -/
theorem addsA64_iff (hop : IsAddSub d.opcode) (hrd : d.rd ≤ 30#8) :
    AddsA64 g d ↔ d.imm = operand g.1 d ∧ (d.sets_flags = true →
      g.1.nzcv = nzcv_word (addSubFlags d (g.1.x d.rn.toNat) (operand g.1 d))) := by
  have harm : IsArm d.rd := Nat.lt_of_le_of_lt hrd (by decide)
  have hlt : d.rd.toNat < 32 := harm
  have hx : (execute_decoded g d).1.x d.rd.toNat = addSub d (g.1.x d.rn.toNat) d.imm := by
    rw [execute_addSub hop, CPUContext.x, set_reg_word harm, if_neg (by omega), if_pos rfl]
  have hnzcv : (execute_decoded g d).1.nzcv = g.1.nzcv := by
    rw [execute_addSub hop, CPUContext.nzcv, set_reg_word harm, if_neg (by decide),
      if_neg (by omega)]
    rfl
  unfold AddsA64
  dsimp only
  rw [hx, hnzcv, addSub_right_inj]
  refine and_congr_right fun _ => ?_
  cases d.sets_flags <;> simp

end Interpreter

/-- `x1 = 7`, `x2 = 5` -/
def small_guest : Guest :=
  ((CPUContext.zero.set_x 1 7#64).set_x 2 5#64, .new fun _ => 0#8)

/-- `sub x0, x1, #3` without flags. -/
def sub_x0 : DecodedInstr :=
  { DecodedInstr.cleared 0xD1000C20#32 with
    opcode := 0x01#8, rd := 0#8, rn := 1#8, rm := 0xFF#8, imm := 3#64, size := 1#8 }

/-- `add x0, x1, x2` -/
def add_x0 : DecodedInstr :=
  { DecodedInstr.cleared 0x8B020020#32 with opcode := 0x00#8, rn := 1#8, rm := 2#8, size := 1#8 }

theorem addsA64_iff_sub : AddsA64 small_guest sub_x0 ↔
    sub_x0.imm = operand small_guest.1 sub_x0 ∧ (sub_x0.sets_flags = true → small_guest.1.nzcv =
      nzcv_word (addSubFlags sub_x0 (small_guest.1.x sub_x0.rn.toNat) (operand small_guest.1 sub_x0))) :=
  addsA64_iff (.inr (by decide)) (by decide)

/-- `add x0, x1, x2` leaves `x1` in `x0`. -/
theorem not_addsA64_add : ¬ AddsA64 small_guest add_x0 := by
  rintro ⟨h, -⟩
  exact absurd h (by decide)

/-! ## CMP and CMN -/

section Compare

variable {w : BitVec 32} {f : A64.AddSubImm} {g : Guest} {host_code : Word} {s : State}

/-- The word decodes; the block of the lone instruction, entered in state `s`, returns with `x0` to
`x30` and `sp` as they were, and so does the interpreter. -/
def KeepsRegs (w : BitVec 32) (g : Guest) (host_code : Word) (host : Mem) (s : State) : Prop :=
  ∃ d s', decode? w = some d ∧ Returns (block_code [d] g.1.pc host_code host) s s' ∧
    ∀ i ≤ 31, X86.word s'.mem (s.reg rdi) (8 * i) = g.1.word i ∧
      (execute_decoded g d).1.word i = g.1.word i

/-- The record of a word of ADD or SUB has the operation and the operands of the word. -/
theorem addSub_of_word (h : A64.AddSubImm.ofWord? w = some f) :
    decode? w = some (add_sub_record w) ∧ IsAddSub (add_sub_record w).opcode ∧
      (add_sub_record w).rd.toNat = f.rd.toNat ∧ (add_sub_record w).rn.toNat = f.rn.toNat ∧
      ∀ x, addSub (add_sub_record w) x (add_sub_record w).imm = f.result x := by
  obtain ⟨hc, rfl⟩ := addSub_class h
  have hop : (add_sub_record w).opcode = if w.getLsbD 30 then 0x01#8 else 0x00#8 := rfl
  refine ⟨by rw [decode?, decode_add_sub hc]; rfl, ?_, toNat_setWidth_arm _, toNat_setWidth_arm _,
    fun x => ?_⟩
  · rw [IsAddSub, hop]
    cases w.getLsbD 30 <;> decide
  · rw [addSub, hop, A64.AddSubImm.result, BitVec.setWidth_eq]
    cases w.getLsbD 30 <;> rfl

/-- The words behind the block of ADD or SUB. -/
theorem returns_addSub (h : A64.AddSubImm.ofWord? w = some f) (hb : host_code ≠ 0#64) (host : Mem)
    (hctx : CtxAt s.mem (s.reg rdi) g.1) (hstack : StackClear s (s.reg rdi)) :
    ∃ s', (∀ s₁, Returns (block_code [add_sub_record w] g.1.pc host_code host) s s₁ ↔ s₁ = s') ∧
      ∀ i ≤ 31, X86.word s'.mem (s.reg rdi) (8 * i) =
        if i = f.rd.toNat then f.result (base g.1 f.rn) else g.1.word i := by
  obtain ⟨hdec, hop, hrd, hrn, hres⟩ := addSub_of_word h
  have hwd := decode?_wellDecoded hdec
  have himm := hwd.imm rfl hop
  have hr := not_returning_addSub hop
  have hi := instrIr_addSub hop rfl g.1.pc
  refine ⟨_, fun s₁ => returns_lone hi (lowerable_addSub hop himm) hr hb host, fun i hi => ?_⟩
  rw [lone_mem hr, word_write_ne (by omega) (by omega) (by omega),
    run_addSub hop himm hwd.rn hwd.rd (enter_r12 s) hctx (by rwa [StackClear, enter_rsp]) _ hi, hrd,
    hrn, hres, base_eq]

theorem execute_addSub_word (h : A64.AddSubImm.ofWord? w = some f) {i : ℕ} (hi : i ≤ 31) :
    (execute_decoded g (add_sub_record w)).1.word i =
      if i = f.rd.toNat then f.result (base g.1 f.rn) else g.1.word i := by
  obtain ⟨hdec, hop, hrd, hrn, hres⟩ := addSub_of_word h
  rw [execute_addSub hop, set_reg_word (decode?_wellDecoded hdec).rd, if_neg (by omega), hrd, hres,
    hrn, base_eq]

/-- **CMP and CMN (immediate)**: with `rd` the zero register, both engines put the result into `sp`, so
the registers stay exactly if `sp` is the result already. -/
theorem keepsRegs_iff (h : A64.AddSubImm.ofWord? w = some f) (hrd : f.rd = 31#5)
    (hb : host_code ≠ 0#64) (host : Mem) (hctx : CtxAt s.mem (s.reg rdi) g.1)
    (hstack : StackClear s (s.reg rdi)) :
    KeepsRegs w g host_code host s ↔ f.result (base g.1 f.rn) = g.1.sp := by
  obtain ⟨s', hret, hword⟩ := returns_addSub h hb host hctx hstack
  have hdec := (addSub_of_word h).1
  have h31 : f.rd.toNat = 31 := by rw [hrd]; rfl
  constructor
  · rintro ⟨d, s₁, hd, -, hkeep⟩
    obtain rfl := Option.some.inj (hdec.symm.trans hd)
    have hsp := (hkeep 31 (Nat.le_refl 31)).2
    rwa [execute_addSub_word h (Nat.le_refl 31), if_pos h31.symm] at hsp
  · intro hsp
    have hsame : ∀ i, (if i = f.rd.toNat then f.result (base g.1 f.rn) else g.1.word i) = g.1.word i := by
      intro i
      split_ifs with hi
      · rw [hsp, hi, h31]
        rfl
      · rfl
    refine ⟨_, s', hdec, (hret s').mpr rfl, fun i hi => ⟨?_, ?_⟩⟩
    · rw [hword i hi, hsame]
    · rw [execute_addSub_word h hi, hsame]

end Compare

/-- `cmp x1, #4`, whose result is in `sp` already. -/
theorem keepsRegs_iff_cmp :
    KeepsRegs 0xF100103F#32 (twelve_in_x1, .new (ctx_mem twelve_in_x1)) 0x8000#64 (fun _ => 0#8)
      (holding twelve_in_x1) := by
  have hword : A64.AddSubImm.ofWord? 0xF100103F#32 = some ⟨true, true, true, false, 4#12, 1#5, 31#5⟩ := by
    decide
  have hresult : (⟨true, true, true, false, 4#12, 1#5, 31#5⟩ : A64.AddSubImm).result
      (base twelve_in_x1 1#5) = twelve_in_x1.sp := by decide
  exact (keepsRegs_iff hword rfl (by decide) _ (ctxAt_holding _) (stackClear_holding _)).mpr hresult

/-- `cmp x1, #1` in a cleared state leaves -1 in `sp`. -/
theorem not_keepsRegs_cmp :
    A64.AddSubImm.ofWord? 0xF100043F#32 = some ⟨true, true, true, false, 1#12, 1#5, 31#5⟩ ∧
      ¬ KeepsRegs 0xF100043F#32 (.zero, .new fun _ => 0#8) 0x8000#64 (fun _ => 0#8) stacked := by
  refine ⟨by decide, ?_⟩
  rintro ⟨d, s', hd, -, hkeep⟩
  have hdec : decode? 0xF100043F#32 = some (add_sub_record 0xF100043F#32) := by decide
  obtain rfl := Option.some.inj (hdec.symm.trans hd)
  exact absurd (hkeep 31 (Nat.le_refl 31)).2 (by decide)

end ExecEngine

end Bbarm64
