import Bbarm64.Backend.RegOps
import Bbarm64.X86.Completion

/-!
# Backend.RegImm — arithmetic with a 64-bit immediate

`emit_add_reg_imm` and the five like it on RAX and RDX.  The short form sign-extends 32 bits, so it
takes immediates below `2 ^ 31`.  Past 32 bits the logical operations become a move, and the others a
copy to RAX in front of bytes that are no instruction with a 64-bit immediate.  The results are about
every completion of the machine, whatever it makes of those bytes.
-/

namespace Bbarm64

open X86 X86_64Emitter

namespace RegImm

def emit (op : AluOp) (e : X86_64Emitter) (reg : Byte) (imm : Word) : X86_64Emitter :=
  match op with
  | .add => e.emit_add_reg_imm reg imm
  | .sub => e.emit_sub_reg_imm reg imm
  | .and => e.emit_and_reg_imm reg imm
  | .or => e.emit_or_reg_imm reg imm
  | .xor => e.emit_xor_reg_imm reg imm
  | .cmp => e.emit_cmp_reg_imm reg imm

/-- The bytes the call adds to the buffer. -/
def bytes (op : AluOp) (e : X86_64Emitter) (reg : Byte) (imm : Word) : List Byte :=
  (emit op e reg imm).code.drop e.offset_

/-- The register `r` has the operation of its old value and `imm`, or the flags are those of the
comparison; the other registers are as they were. -/
def Meets (op : AluOp) (r : Reg) (imm : Word) (s s' : State) : Prop :=
  (if op = .cmp then s'.flags = subFlags (s.reg r) imm else s'.reg r = op.eval (s.reg r) imm) ∧
    ∀ q, q ≠ r → s'.reg q = s.reg q

def Computes (m : Completion) (op : AluOp) (code : List Byte) (r : Reg) (imm : Word) (s : State) :
    Prop :=
  ∃ s', m.Steps code ⟨0, s⟩ ⟨code.length, s'⟩ ∧ Meets op r imm s s'

/-- The operations without a carry. -/
def IsLogic (op : AluOp) : Prop := op = .and ∨ op = .or ∨ op = .xor

/-- The upper half of a word. -/
def HIGH : Word := 0xFFFFFFFF00000000#64

/-- The old values `a` for which the bytes do what they are to do. -/
def Fits (op : AluOp) (imm a : Word) : Prop :=
  if imm.toNat < 2 ^ 31 then True
  else if imm.toNat < 2 ^ 32 then
    -- the sign extension has ones in the upper half
    match op with
    | .and => a &&& HIGH = 0#64
    | .or => a &&& HIGH = HIGH
    | .add | .sub | .xor | .cmp => False
  else
    -- the immediate itself is the result
    match op with
    | .and => a &&& imm = imm
    | .or => a ||| imm = imm
    | .xor => a = 0#64
    | .add | .sub | .cmp => False

/-- The immediates that fit every value. -/
def Always (op : AluOp) (imm : Word) : Prop :=
  imm.toNat < 2 ^ 31 ∨ op = .or ∧ imm = BitVec.allOnes 64

theorem fits_of_always {op : AluOp} {imm : Word} (h : Always op imm) (a : Word) : Fits op imm a := by
  unfold Fits
  rcases h with h | ⟨rfl, rfl⟩
  · rw [if_pos h]
    trivial
  · rw [if_neg (by decide), if_neg (by decide)]
    exact BitVec.or_allOnes

/-- Among zero, one and all ones there is a value that does not fit. -/
theorem always_of_fits {op : AluOp} {imm : Word} (h : ∀ a, Fits op imm a) : Always op imm := by
  have h0 := h 0#64
  have h1 := h 1#64
  have hones := h (BitVec.allOnes 64)
  unfold Fits at h0 h1 hones
  by_cases h31 : imm.toNat < 2 ^ 31
  · exact .inl h31
  · rw [if_neg h31] at h0 h1 hones
    by_cases h32 : imm.toNat < 2 ^ 32
    · rw [if_pos h32] at h0 h1 hones
      cases op with
      | and => exact absurd hones (by decide)
      | or => exact absurd h0 (by decide)
      | add | sub | xor | cmp => exact h0.elim
    · rw [if_neg h32] at h0 h1 hones
      cases op with
      | and =>
        have hz : 0#64 &&& imm = imm := h0
        rw [BitVec.zero_and] at hz
        rw [← hz] at h32
        exact absurd (by decide) h32
      | or =>
        have ho : BitVec.allOnes 64 ||| imm = imm := hones
        rw [BitVec.allOnes_or] at ho
        exact .inr ⟨rfl, ho.symm⟩
      | xor =>
        have hx : 1#64 = 0#64 := h1
        exact absurd hx (by decide)
      | add | sub | cmp => exact h0.elim

/-! ## The bytes -/

section Bytes

variable (e : X86_64Emitter)

/-- Bit 0 of these two numbers is their bit 3. -/
theorem breg_eq {r : Reg} (hr : r = rax ∨ r = rdx) : breg (r.setWidth 8) = r := by
  rcases hr with rfl | rfl <;> rfl

theorem emit_short (op : AluOp) {imm : Word} (h : imm.toNat < 2 ^ 32) (reg : Byte) :
    emit op e reg imm = e.emit_bytes (encode (.aluI op (breg reg) (imm.setWidth 32))) := by
  have hle : imm ≤ 0xFFFFFFFF#64 := by
    rw [BitVec.le_def]
    exact Nat.le_of_lt_succ h
  cases op with
  | add => exact e.emit_add_reg_imm_eq hle reg
  | sub => exact e.emit_sub_reg_imm_eq hle reg
  | and => exact e.emit_and_reg_imm_eq hle reg
  | or => exact e.emit_or_reg_imm_eq hle reg
  | xor => exact e.emit_xor_reg_imm_eq hle reg
  | cmp => exact e.emit_cmp_reg_imm_eq hle reg

theorem not_le_of_long {imm : Word} (h : ¬imm.toNat < 2 ^ 32) : ¬imm ≤ 0xFFFFFFFF#64 := by
  rw [BitVec.le_def, Nat.not_le]
  exact Nat.not_lt.mp h

/-- A logical operation past 32 bits is a move. -/
theorem emit_logic {op : AluOp} (hop : IsLogic op) {imm : Word} (h : ¬imm.toNat < 2 ^ 32) (r : Reg) :
    emit op e (r.setWidth 8) imm = e.emit_bytes (encode (.movRI r imm)) := by
  have hlong := not_le_of_long h
  have hreg : ∀ r : Reg, IsReg (r.setWidth 8) := by decide
  have hmov := e.emit_mov_reg_imm_eq (hreg r) imm
  rw [hreg_setWidth] at hmov
  rcases hop with rfl | rfl | rfl
  · exact (if_neg hlong).trans hmov
  · exact (if_neg hlong).trans hmov
  · exact (if_neg hlong).trans hmov

/-- A copy to RAX, an opcode and the immediate. -/
theorem emit_copied (opcode : List Byte) (imm : Word) (r : Reg) :
    ((e.emit_mov_reg_reg RAX (r.setWidth 8)).emit_rex true 0 0 0 |>.emit_bytes opcode
      |>.emit_qword imm) =
      e.emit_bytes (encode (.movRR rax r) ++ (rexW 0#1 0#1 :: (opcode ++ le64 imm))) := by
  have hrax : hreg RAX = rax := by decide
  rw [emit_mov_reg_reg_eq, hreg_setWidth, hrax, emit_rex_eq, emit_qword_eq, emit_bytes_append,
    emit_bytes_cons, emit_bytes_append]
  rfl

/-- The others copy the register to RAX first. -/
theorem emit_carry {op : AluOp} (hop : ¬IsLogic op) {imm : Word} (h : ¬imm.toNat < 2 ^ 32) (r : Reg) :
    ∃ tail, tail.length ≤ 14 ∧
      emit op e (r.setWidth 8) imm = e.emit_bytes (encode (.movRR rax r) ++ tail) := by
  have hlong := not_le_of_long h
  have hback : ∀ e : X86_64Emitter,
      e.emit_mov_reg_reg (r.setWidth 8) RAX = e.emit_bytes (encode (.movRR r rax)) := by
    intro e
    have hrax : hreg RAX = rax := by decide
    rw [emit_mov_reg_reg_eq, hreg_setWidth, hrax]
  cases op with
  | and | or | xor => exact absurd (by simp [IsLogic]) hop
  | add =>
    refine ⟨rexW 0#1 0#1 :: ([0x48#8, 0x05#8] ++ le64 imm) ++ encode (.movRR r rax), ?_, ?_⟩
    · simp [encode]
    · refine (if_neg hlong).trans ?_
      rw [← List.append_assoc, emit_bytes_append, ← emit_copied, ← hback]
      simp only [emit_bytes_cons, emit_bytes_nil]
  | sub =>
    refine ⟨rexW 0#1 0#1 :: ([0x2D#8] ++ le64 imm) ++ encode (.movRR r rax), ?_, ?_⟩
    · simp [encode]
    · refine (if_neg hlong).trans ?_
      rw [← List.append_assoc, emit_bytes_append, ← emit_copied, ← hback]
      simp only [emit_bytes_cons, emit_bytes_nil]
  | cmp =>
    refine ⟨rexW 0#1 0#1 :: ([0x3D#8] ++ le64 imm), ?_, ?_⟩
    · simp
    · refine (if_neg hlong).trans ?_
      rw [← emit_copied]
      simp only [emit_bytes_cons, emit_bytes_nil]

end Bytes

/-! ## The short form -/

section Short

variable {imm : Word}

theorem getLsbD_of_lt (h : imm.toNat < 2 ^ 32) {i : ℕ} (hi : 32 ≤ i) : imm.getLsbD i = false := by
  refine Nat.testBit_lt_two_pow ?_
  exact Nat.lt_of_lt_of_le h (Nat.pow_le_pow_right (by omega) hi)

theorem getLsbD_high : ∀ i : Fin 64, HIGH.getLsbD i = decide (32 ≤ i.val) := by decide

/-- What the sign extension adds. -/
theorem signExtend_eq (h31 : ¬imm.toNat < 2 ^ 31) (h32 : imm.toNat < 2 ^ 32) :
    (imm.setWidth 32).signExtend 64 = imm ||| HIGH := by
  have hmsb : (imm.setWidth 32).msb = true := by
    rw [BitVec.msb_eq_true_iff_two_mul_ge, BitVec.toNat_setWidth, Nat.mod_eq_of_lt h32]
    omega
  apply BitVec.eq_of_getLsbD_eq
  intro i hi
  rw [BitVec.getLsbD_signExtend, hmsb, BitVec.getLsbD_or, getLsbD_high ⟨i, hi⟩]
  by_cases hlow : i < 32
  · simp [hlow, hi, Nat.not_le.mpr hlow]
  · simp [hlow, hi, Nat.le_of_not_lt hlow]

theorem and_high (h : imm.toNat < 2 ^ 32) : imm &&& HIGH = 0#64 := by
  apply BitVec.eq_of_getLsbD_eq
  intro i hi
  rw [BitVec.getLsbD_and, getLsbD_high ⟨i, hi⟩]
  by_cases hlow : i < 32
  · simp [Nat.not_le.mpr hlow]
  · simp [getLsbD_of_lt h (Nat.le_of_not_lt hlow)]

theorem or_high_and_high (a : Word) : (a ||| HIGH) &&& HIGH = HIGH := by
  apply BitVec.eq_of_getLsbD_eq
  intro i _
  rw [BitVec.getLsbD_and, BitVec.getLsbD_or]
  cases a.getLsbD i <;> cases HIGH.getLsbD i <;> rfl

theorem or_high_ne (h : imm.toNat < 2 ^ 32) : imm ||| HIGH ≠ imm := by
  intro he
  have hand := or_high_and_high imm
  rw [he, and_high h] at hand
  exact absurd hand (by decide)

theorem and_or_high_eq_iff (h : imm.toNat < 2 ^ 32) (a : Word) :
    a &&& (imm ||| HIGH) = a &&& imm ↔ a &&& HIGH = 0#64 := by
  rw [BitVec.and_or_distrib_left]
  constructor
  · intro he
    have hand : _ &&& HIGH = _ &&& HIGH := congrArg (· &&& HIGH) he
    rw [BitVec.and_or_distrib_right, BitVec.and_assoc, BitVec.and_assoc, and_high h,
      BitVec.and_self, BitVec.and_zero, BitVec.zero_or] at hand
    exact hand
  · intro h0
    rw [h0, BitVec.or_zero]

theorem or_or_high_eq_iff (h : imm.toNat < 2 ^ 32) (a : Word) :
    a ||| (imm ||| HIGH) = a ||| imm ↔ a &&& HIGH = HIGH := by
  constructor
  · intro he
    have hand : _ &&& HIGH = _ &&& HIGH := congrArg (· &&& HIGH) he
    rw [← BitVec.or_assoc, or_high_and_high, BitVec.and_or_distrib_right, and_high h,
      BitVec.or_zero] at hand
    exact hand.symm
  · intro hh
    have habs : a ||| (a &&& HIGH) = a := by
      apply BitVec.eq_of_getLsbD_eq
      intro i _
      rw [BitVec.getLsbD_or, BitVec.getLsbD_and]
      cases a.getLsbD i <;> rfl
    have ha : a ||| HIGH = a := by rwa [hh] at habs
    rw [BitVec.or_comm imm, ← BitVec.or_assoc, ha]

/-- The unsigned order and the sign of the difference cannot both agree. -/
theorem subFlags_or_high_ne (h31 : ¬imm.toNat < 2 ^ 31) (h32 : imm.toNat < 2 ^ 32) (a : Word) :
    subFlags a (imm ||| HIGH) ≠ subFlags a imm := by
  have hnat : (imm ||| HIGH).toNat = imm.toNat + (2 ^ 64 - 2 ^ 32) := by
    have hadd := BitVec.add_eq_or_of_and_eq_zero imm HIGH (and_high h32)
    rw [← hadd, BitVec.toNat_add]
    exact Nat.mod_eq_of_lt (Nat.add_lt_add_right h32 _)
  intro h
  have hcf : decide (a.toNat < (imm ||| HIGH).toNat) = decide (a.toNat < imm.toNat) :=
    congrArg Flags.cf h
  have hsf : (a - (imm ||| HIGH)).msb = (a - imm).msb := congrArg Flags.sf h
  rw [decide_eq_decide, hnat] at hcf
  rw [BitVec.msb_eq_decide, BitVec.msb_eq_decide, decide_eq_decide, BitVec.toNat_sub,
    BitVec.toNat_sub, hnat] at hsf
  have := a.isLt
  omega

end Short

/-! ## The effect -/

/-- The operation with `b` in the place of `imm`. -/
theorem meets_execAlu_iff (op : AluOp) (r : Reg) (imm b : Word) (s : State) :
    Meets op r imm s (execAlu op r b s) ↔
      if op = .cmp then subFlags (s.reg r) b = subFlags (s.reg r) imm
      else op.eval (s.reg r) b = op.eval (s.reg r) imm := by
  unfold Meets
  by_cases hop : op = .cmp
  · subst hop
    apply and_iff_left
    intro q hq
    exact execAlu_reg hq
  · rw [if_neg hop, if_neg hop, RegOp.execAlu_reg_eq hop, if_pos rfl]
    apply and_iff_left
    intro q hq
    exact execAlu_reg hq

theorem computes_iff_of_insn (m : Completion) (op : AluOp) {i : Instr} (hi : i.straight = true)
    (r : Reg) (imm : Word) (s : State) :
    Computes m op (encode i) r imm s ↔ Meets op r imm s (exec i s) := by
  have hrun : ∀ s', m.Steps (encode i) ⟨0, s⟩ ⟨(encode i).length, s'⟩ ↔ s' = exec i s :=
    m.steps_one_iff (i := .base i) hi s
  unfold Computes
  simp only [hrun, exists_eq_left]

/-- The short form. -/
theorem computes_short_iff (m : Completion) (op : AluOp) (r : Reg) {imm : Word}
    (h : imm.toNat < 2 ^ 32) (s : State) :
    Computes m op (encode (.aluI op r (imm.setWidth 32))) r imm s ↔ Fits op imm (s.reg r) := by
  rw [computes_iff_of_insn m op rfl]
  show Meets op r imm s (execAlu op r _ s) ↔ _
  rw [meets_execAlu_iff]
  unfold Fits
  by_cases h31 : imm.toNat < 2 ^ 31
  · rw [if_pos h31, RegOp.signExtend_of_lt h31]
    refine iff_of_true ?_ trivial
    split_ifs <;> rfl
  · rw [if_neg h31, if_pos h, signExtend_eq h31 h]
    have hne := or_high_ne h
    cases op with
    | and => exact and_or_high_eq_iff h (s.reg r)
    | or => exact or_or_high_eq_iff h (s.reg r)
    | add => exact iff_of_false (fun he => hne ((BitVec.add_right_inj _).mp he)) id
    | sub => exact iff_of_false (fun he => hne ((BitVec.sub_right_inj _).mp he)) id
    | xor => exact iff_of_false (fun he => hne ((BitVec.xor_right_inj _).mp he)) id
    | cmp => exact iff_of_false (subFlags_or_high_ne h31 h (s.reg r)) id

/-- The move in the place of a logical operation. -/
theorem computes_logic_iff (m : Completion) {op : AluOp} (hop : IsLogic op) (r : Reg) {imm : Word}
    (h : ¬imm.toNat < 2 ^ 32) (s : State) :
    Computes m op (encode (.movRI r imm)) r imm s ↔ Fits op imm (s.reg r) := by
  have h31 : ¬imm.toNat < 2 ^ 31 := by omega
  have hmeets : Meets op r imm s (exec (.movRI r imm) s) ↔ imm = op.eval (s.reg r) imm := by
    unfold Meets
    rcases hop with rfl | rfl | rfl
    all_goals
      simp only [exec, setReg_reg, reduceCtorEq, ↓reduceIte]
      exact and_iff_left fun q hq => if_neg hq
  rw [computes_iff_of_insn m op rfl, hmeets]
  unfold Fits
  rw [if_neg h31, if_neg h]
  rcases hop with rfl | rfl | rfl
  · exact eq_comm
  · exact eq_comm
  · show imm = s.reg r ^^^ imm ↔ s.reg r = 0#64
    constructor
    · intro he
      have hz : 0#64 ^^^ imm = s.reg r ^^^ imm := BitVec.zero_xor.trans he
      exact ((BitVec.xor_left_inj imm).mp hz).symm
    · intro h0
      rw [h0, BitVec.zero_xor]

/-- The copy to RAX loses what RAX held. -/
theorem execInsn_copy {r : Reg} (hr : r ≠ rax) (s : State) (v : Word) :
    execInsn (.base (.movRR rax r)) (s.setReg rax v) = execInsn (.base (.movRR rax r)) s := by
  show (s.setReg rax v).setReg rax ((s.setReg rax v).reg r) = s.setReg rax (s.reg r)
  rw [setReg_reg, if_neg hr, setReg_setReg]

theorem not_computes_carry (m : Completion) {op : AluOp} {r : Reg} (hr : r ≠ rax) (imm : Word)
    (tail : List Byte) :
    ¬∀ s, Computes m op (encode (.movRR rax r) ++ tail) r imm s := by
  intro h
  obtain ⟨t₁, h₁, -, hkeep₁⟩ := h State.cleared
  obtain ⟨t₂, h₂, -, hkeep₂⟩ := h (State.cleared.setReg rax 1#64)
  have ht := m.steps_unique (i := .base (.movRR rax r)) rfl (execInsn_copy hr _ _) h₂ h₁
  have hrax := hkeep₁ rax (Ne.symm hr)
  rw [← ht, hkeep₂ rax (Ne.symm hr)] at hrax
  cases hrax

section Call

variable {e : X86_64Emitter} {op : AluOp} {r : Reg} {imm : Word}

/-- Where the bytes are one known instruction. -/
theorem computes_call_iff (m : Completion) (hb : e.buf_ ≠ 0#64) (hs : e.size_ ≤ 2 ^ 64)
    (hroom : e.offset_ + 17 ≤ e.size_) (hr : r = rax ∨ r = rdx)
    (hone : imm.toNat < 2 ^ 32 ∨ IsLogic op) (s : State) :
    Computes m op (bytes op e (r.setWidth 8) imm) r imm s ↔ Fits op imm (s.reg r) := by
  unfold bytes
  by_cases h : imm.toNat < 2 ^ 32
  · have hlen := encode_length_le (.aluI op r (imm.setWidth 32))
    rw [emit_short e op h, breg_eq hr, e.emit_bytes_drop hb hs (by omega)]
    exact computes_short_iff m op r h s
  · have hlen := encode_length_le (.movRI r imm)
    have hop := hone.resolve_left h
    rw [emit_logic e hop h r, e.emit_bytes_drop hb hs (by omega)]
    exact computes_logic_iff m hop r h s

theorem forall_fits_iff (r : Reg) : (∀ s : State, Fits op imm (s.reg r)) ↔ Always op imm := by
  constructor
  · intro h
    apply always_of_fits
    intro a
    have ha := h (State.cleared.setReg r a)
    rwa [setReg_reg, if_pos rfl] at ha
  · intro h s
    exact fits_of_always h (s.reg r)

theorem one_of_always (h : Always op imm) : imm.toNat < 2 ^ 32 ∨ IsLogic op := by
  rcases h with h | ⟨rfl, -⟩
  · exact .inl (Nat.lt_trans h (by decide))
  · exact .inr (.inr (.inl rfl))

/-- **The encoders**: they are right for immediates below `2 ^ 31`, and for the OR with all ones.  For
the other immediates below `2 ^ 32`, and for the logical operations, `Fits` has the contents for which
they are right; past `2 ^ 32` the others are wrong on RDX whatever their bytes are taken for. -/
theorem reg_imm_works (m : Completion) (hb : e.buf_ ≠ 0#64) (hs : e.size_ ≤ 2 ^ 64)
    (hroom : e.offset_ + 17 ≤ e.size_) (op : AluOp) (hr : r = rax ∨ r = rdx) (imm : Word) :
    (Always op imm → ∀ s, Computes m op (bytes op e (r.setWidth 8) imm) r imm s) ∧
      (imm.toNat < 2 ^ 32 ∨ IsLogic op → ∀ s,
        (Computes m op (bytes op e (r.setWidth 8) imm) r imm s ↔ Fits op imm (s.reg r))) ∧
      (imm.toNat < 2 ^ 32 ∨ IsLogic op ∨ r = rdx →
        ((∀ s, Computes m op (bytes op e (r.setWidth 8) imm) r imm s) ↔ Always op imm)) := by
  have hcall : _ → ∀ s, (Computes m op (bytes op e (r.setWidth 8) imm) r imm s ↔ _) :=
    fun hone => computes_call_iff m hb hs hroom hr hone
  refine ⟨?_, hcall, ?_⟩
  · intro h s
    exact (hcall (one_of_always h) s).mpr (fits_of_always h (s.reg r))
  · intro hcase
    by_cases hone : imm.toNat < 2 ^ 32 ∨ IsLogic op
    · rw [forall_congr' (hcall hone), forall_fits_iff]
    · obtain ⟨hlong, hop⟩ := not_or.mp hone
      have hrdx : r = rdx := (hcase.resolve_left hlong).resolve_left hop
      obtain ⟨tail, hlen, hemit⟩ := emit_carry e hop hlong r
      have hcode : bytes op e (r.setWidth 8) imm = encode (.movRR rax r) ++ tail := by
        unfold bytes
        rw [hemit]
        refine e.emit_bytes_drop hb hs ?_
        rw [List.length_append]
        have : (encode (.movRR rax r)).length = 3 := rfl
        omega
      rw [hcode]
      have hne : r ≠ rax := by
        rw [hrdx]
        decide
      refine iff_of_false (not_computes_carry m hne imm tail) ?_
      intro h
      exact hone (one_of_always h)

end Call

/-- An emitter over an empty buffer of 32 bytes. -/
def scratch : X86_64Emitter := .set_buffer 0x1000#64 32 fun _ => 0#8

theorem add_rdx_works : (∀ s, Computes .insn .add (bytes .add scratch 2#8 5#64) rdx 5#64 s) ∧
    ¬∀ s, Computes .insn .add (bytes .add scratch 2#8 0x100000000#64) rdx 0x100000000#64 s := by
  have hworks := reg_imm_works .insn (e := scratch) (by decide) (by decide) (by decide) .add
    (.inr rfl : rdx = rax ∨ rdx = rdx)
  refine ⟨(hworks 5#64).1 (.inl (by decide)), ?_⟩
  intro h
  rcases ((hworks 0x100000000#64).2.2 (.inr (.inr rfl))).mp h with hlt | ⟨hor, -⟩
  · exact absurd hlt (by decide)
  · cases hor

/-- `add rax, 0x80000000` subtracts it. -/
theorem add_rax_high_fails :
    ¬Computes .insn .add (bytes .add scratch 0#8 0x80000000#64) rax 0x80000000#64 .cleared := by
  intro h
  have hfits := (computes_call_iff .insn (by decide) (by decide) (by decide) (.inl rfl)
    (.inl (by decide)) .cleared).mp h
  rw [Fits, if_neg (by decide), if_pos (by decide)] at hfits
  exact hfits

end RegImm

end Bbarm64
