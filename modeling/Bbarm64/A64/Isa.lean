import Mathlib.Algebra.Group.Nat.Defs
import Mathlib.Tactic.Common

/-!
# A64.Isa — the flags, the conditions and a subset of A64

The NZCV flags of addition, subtraction and AND; the condition codes over them, and what those of a
subtraction say about the order of the operands; and the instructions ADD (immediate), MOVZ with
`hw = 0`, ADR with `immlo = 0`, ADRP, NOP, B and BL, from the word to the effect on registers and
program counter.  In this subset register 31 is SP.
-/

namespace A64

abbrev Word := BitVec 64

/-! ## Flags -/

structure Nzcv where
  n : Bool
  z : Bool
  c : Bool
  v : Bool
  deriving DecidableEq, Repr

/-- ADDS: C is the carry out. -/
def Nzcv.ofAdd (a b : Word) : Nzcv :=
  ⟨(a + b).msb, a + b == 0#64, 2 ^ 64 ≤ a.toNat + b.toNat, BitVec.saddOverflow a b⟩

/-- SUBS and CMP: C is no borrow. -/
def Nzcv.ofSub (a b : Word) : Nzcv :=
  ⟨(a - b).msb, a - b == 0#64, b.toNat ≤ a.toNat, BitVec.ssubOverflow a b⟩

/-- ANDS and TST: C and V are cleared. -/
def Nzcv.ofAnd (a b : Word) : Nzcv := ⟨(a &&& b).msb, a &&& b == 0#64, false, false⟩

/-- The flags in bits 31 to 28. -/
def Nzcv.ofWord (w : Word) : Nzcv := ⟨w.getLsbD 31, w.getLsbD 30, w.getLsbD 29, w.getLsbD 28⟩

/-- `ConditionHolds`: the upper three bits choose the test and the low bit negates it, except in
`1111`. -/
def Nzcv.holds (f : Nzcv) (cond : BitVec 4) : Bool :=
  let c := cond.extractLsb' 1 3
  let result :=
    if c = 0#3 then f.z
    else if c = 1#3 then f.c
    else if c = 2#3 then f.n
    else if c = 3#3 then f.v
    else if c = 4#3 then f.c && !f.z
    else if c = 5#3 then f.n == f.v
    else if c = 6#3 then f.n == f.v && !f.z
    else true
  if cond.getLsbD 0 && cond != 15#4 then !result else result

/-! ## Comparisons -/

section Comparisons

variable (a b : Word)

theorem ofSub_z : (Nzcv.ofSub a b).z = true ↔ a = b := by
  rw [Nzcv.ofSub, beq_iff_eq, BitVec.sub_eq_iff_eq_add, BitVec.zero_add]

theorem ofSub_c : (Nzcv.ofSub a b).c = true ↔ b.toNat ≤ a.toNat := decide_eq_true_iff

theorem ofSub_n : (Nzcv.ofSub a b).n = true ↔ (a - b).toInt < 0 := by
  rw [Nzcv.ofSub, BitVec.msb_eq_toInt, decide_eq_true_iff]

/-- A difference as an integer, up to one wrap. -/
theorem toInt_sub_cases : (a - b).toInt = a.toInt - b.toInt ∨
      (a - b).toInt = a.toInt - b.toInt - 0x10000000000000000 ∨
      (a - b).toInt = a.toInt - b.toInt + 0x10000000000000000 := by
  have ha := BitVec.toInt_lt (x := a)
  have ha' := BitVec.le_toInt (x := a)
  have hb := BitVec.toInt_lt (x := b)
  have hb' := BitVec.le_toInt (x := b)
  rw [BitVec.toInt_sub, Int.bmod_def]
  omega

/-- The difference has the wrong sign exactly when it overflows. -/
theorem ofSub_v : (Nzcv.ofSub a b).v = true ↔ ¬ ((a - b).toInt < 0 ↔ a.toInt < b.toInt) := by
  have ha := BitVec.toInt_lt (x := a)
  have ha' := BitVec.le_toInt (x := a)
  have hb := BitVec.toInt_lt (x := b)
  have hb' := BitVec.le_toInt (x := b)
  have hl := BitVec.toInt_lt (x := a - b)
  have hl' := BitVec.le_toInt (x := a - b)
  have hd := toInt_sub_cases a b
  simp only [Nzcv.ofSub, BitVec.ssubOverflow, Bool.or_eq_true, decide_eq_true_eq]
  omega

theorem ofSub_n_eq_v : (Nzcv.ofSub a b).n = (Nzcv.ofSub a b).v ↔ b.toInt ≤ a.toInt := by
  rw [Bool.eq_iff_iff, ofSub_n, ofSub_v]
  omega

end Comparisons

/-! ## Instructions -/

inductive Insn where
  | addImm (rd rn : BitVec 5) (imm : Word)
  | movz (rd : BitVec 5) (imm16 : BitVec 16)
  | adr (rd : BitVec 5) (imm21 : BitVec 21)
  | adrp (rd : BitVec 5) (imm21 : BitVec 21)
  | nop
  | b (imm26 : BitVec 26)
  | bl (imm26 : BitVec 26)
  deriving DecidableEq, Repr

/-- The instruction of a word of the subset. -/
def Insn.ofWord? (w : BitVec 32) : Option Insn :=
  let rd := w.extractLsb' 0 5
  let rn := w.extractLsb' 5 5
  let imm12 := (w.extractLsb' 10 12).setWidth 64
  let imm21 := w.extractLsb' 5 19 ++ w.extractLsb' 29 2
  if w.extractLsb' 23 9 = 0b100100010#9 then
    some (.addImm rd rn (if w.getLsbD 22 then imm12 <<< 12 else imm12))
  else if w.extractLsb' 21 10 = 0b1010010100#10 ∧ rd ≠ 31#5 then
    some (.movz rd (w.extractLsb' 5 16))
  else if w.extractLsb' 24 8 = 0b00010000#8 ∧ rd ≠ 31#5 then some (.adr rd imm21)
  else if w.extractLsb' 31 1 = 1#1 ∧ w.extractLsb' 24 5 = 0b10000#5 ∧ rd ≠ 31#5 then
    some (.adrp rd imm21)
  else if w = 0xD503201F#32 then some .nop
  else if w.extractLsb' 26 6 = 0b000101#6 then some (.b (w.extractLsb' 0 26))
  else if w.extractLsb' 26 6 = 0b100101#6 then some (.bl (w.extractLsb' 0 26))
  else none

/-- B and BL. -/
def Insn.isBranch : Insn → Bool
  | .b _ | .bl _ => true
  | .addImm _ _ _ | .movz _ _ | .adr _ _ | .adrp _ _ | .nop => false

/-! ## Execution -/

/-- The registers, with SP as number 31, and the program counter. -/
structure State where
  reg : BitVec 5 → Word
  pc : Word

def State.setReg (s : State) (r : BitVec 5) (v : Word) : State :=
  { s with reg := fun q => if q = r then v else s.reg q }

def State.next (s : State) : State := { s with pc := s.pc + 4#64 }

def Insn.exec (i : Insn) (s : State) : State :=
  match i with
  | .addImm rd rn imm => (s.setReg rd (s.reg rn + imm)).next
  | .movz rd imm16 => (s.setReg rd (imm16.setWidth 64)).next
  | .adr rd imm21 => (s.setReg rd (s.pc + imm21.signExtend 64)).next
  | .adrp rd imm21 => (s.setReg rd ((s.pc &&& ~~~0xFFF#64) + imm21.signExtend 64 <<< 12)).next
  | .nop => s.next
  | .b imm26 => { s with pc := s.pc + imm26.signExtend 64 <<< 2 }
  | .bl imm26 => { s.setReg 30#5 (s.pc + 4#64) with pc := s.pc + imm26.signExtend 64 <<< 2 }

/-- The instructions in order. -/
def run (is : List Insn) (s : State) : State := is.foldl (fun s i => i.exec s) s

@[simp] theorem run_nil (s : State) : run [] s = s := rfl

@[simp] theorem run_cons (i : Insn) (is : List Insn) (s : State) :
    run (i :: is) s = run is (i.exec s) := rfl

/-- Straight-line code advances the program counter by four. -/
theorem exec_pc {i : Insn} (h : i.isBranch = false) (s : State) : (i.exec s).pc = s.pc + 4#64 := by
  cases i with
  | b | bl => cases h
  | _ => rfl

end A64
