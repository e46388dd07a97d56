import Bbarm64.A64.Isa

/-!
# A64.Encodings — the words of some instruction classes

The branches, the data processing on a shifted register and the 64-bit loads and stores of one
register, with their operands read from a word; and the group that all loads and stores are in.
-/

namespace A64

/-! ## Immediate branches -/

/-- B, BL, B.cond, CBZ and CBNZ, TBZ and TBNZ. -/
inductive ImmBranch where
  | b (imm26 : BitVec 26)
  | bl (imm26 : BitVec 26)
  | bcond (cond : BitVec 4) (imm19 : BitVec 19)
  | cb (nonzero sf : Bool) (rt : BitVec 5) (imm19 : BitVec 19)
  | tb (nonzero : Bool) (bit : BitVec 6) (rt : BitVec 5) (imm14 : BitVec 14)
  deriving DecidableEq, Repr

/-- The immediate branch of a word. -/
def ImmBranch.ofWord? (w : BitVec 32) : Option ImmBranch :=
  let rt := w.extractLsb' 0 5
  if w.extractLsb' 26 6 = 0b000101#6 then some (.b (w.extractLsb' 0 26))
  else if w.extractLsb' 26 6 = 0b100101#6 then some (.bl (w.extractLsb' 0 26))
  else if w.extractLsb' 24 8 = 0b01010100#8 ∧ w.getLsbD 4 = false then
    some (.bcond (w.extractLsb' 0 4) (w.extractLsb' 5 19))
  else if w.extractLsb' 25 6 = 0b011010#6 then
    some (.cb (w.getLsbD 24) (w.getLsbD 31) rt (w.extractLsb' 5 19))
  else if w.extractLsb' 25 6 = 0b011011#6 then
    -- the bit number is b5:b40
    some (.tb (w.getLsbD 24) (w.extractLsb' 31 1 ++ w.extractLsb' 19 5) rt (w.extractLsb' 5 14))
  else none

/-- The offset in bytes: the immediate times four, sign-extended. -/
def ImmBranch.offset : ImmBranch → BitVec 32
  | .b imm26 | .bl imm26 => imm26.signExtend 32 <<< 2
  | .bcond _ imm19 | .cb _ _ _ imm19 => imm19.signExtend 32 <<< 2
  | .tb _ _ _ imm14 => imm14.signExtend 32 <<< 2

/-- `tbnz x3, #33, .-4` -/
example : ImmBranch.ofWord? 0xB70FFFE3#32 = some (.tb true 33#6 3#5 0x3FFF#14) := by decide

/-! ## Branches to a register -/

inductive RegBranchOp where
  | br | blr | ret
  deriving DecidableEq, Repr

/-- By bits 22:21. -/
def RegBranchOp.ofBits? (op : BitVec 2) : Option RegBranchOp :=
  if op = 0b00#2 then some .br else if op = 0b01#2 then some .blr
  else if op = 0b10#2 then some .ret else none

structure RegBranch where
  op : RegBranchOp
  rn : BitVec 5
  deriving DecidableEq, Repr

def RegBranch.ofWord? (w : BitVec 32) : Option RegBranch :=
  if w.extractLsb' 23 9 = 0b110101100#9 ∧ w.extractLsb' 10 11 = 0b11111000000#11 ∧
      w.extractLsb' 0 5 = 0#5 then
    (RegBranchOp.ofBits? (w.extractLsb' 21 2)).map (⟨·, w.extractLsb' 5 5⟩)
  else none

/-- `blr x1` -/
example : RegBranch.ofWord? 0xD63F0020#32 = some ⟨.blr, 1#5⟩ := by decide

/-- SVC, HVC, SMC, BRK, HLT and DCPS. -/
def IsException (w : BitVec 32) : Prop := w.extractLsb' 24 8 = 0b11010100#8

instance (w : BitVec 32) : Decidable (IsException w) := inferInstanceAs (Decidable (_ = _))

/-! ## Data processing on a shifted register -/

inductive ShiftedOp where
  | add | adds | sub | subs | and | bic | orr | orn | eor | eon | ands | bics
  deriving DecidableEq, Repr

/-- The S forms. -/
def ShiftedOp.setsFlags : ShiftedOp → Bool
  | .adds | .subs | .ands | .bics => true
  | .add | .sub | .and | .bic | .orr | .orn | .eor | .eon => false

/-- Addition and subtraction, by bits 30:29. -/
def ShiftedOp.arith (opc : BitVec 2) : ShiftedOp :=
  if opc = 0b00#2 then .add else if opc = 0b01#2 then .adds else if opc = 0b10#2 then .sub else .subs

/-- The logical operations, by bits 30:29 and N. -/
def ShiftedOp.logical (opc : BitVec 2) (n : Bool) : ShiftedOp :=
  if opc = 0b00#2 then (if n then .bic else .and)
  else if opc = 0b01#2 then (if n then .orn else .orr)
  else if opc = 0b10#2 then (if n then .eon else .eor)
  else if n then .bics else .ands

structure ShiftedReg where
  op : ShiftedOp
  rd : BitVec 5
  rn : BitVec 5
  rm : BitVec 5
  shift : BitVec 2
  amount : BitVec 6
  deriving DecidableEq, Repr

/-- The operands of a word. -/
def ShiftedReg.ofFields (op : ShiftedOp) (w : BitVec 32) : ShiftedReg where
  op := op
  rd := w.extractLsb' 0 5
  rn := w.extractLsb' 5 5
  rm := w.extractLsb' 16 5
  shift := w.extractLsb' 22 2
  amount := w.extractLsb' 10 6

/-- The instruction of a word.  ADD and SUB have no rotation, and a 32-bit form shifts by less than
32. -/
def ShiftedReg.ofWord? (w : BitVec 32) : Option ShiftedReg :=
  let opc := w.extractLsb' 29 2
  if w.getLsbD 31 = false ∧ w.getLsbD 15 = true then none
  else if w.extractLsb' 24 5 = 0b01011#5 ∧ w.getLsbD 21 = false ∧ w.extractLsb' 22 2 ≠ 0b11#2 then
    some (.ofFields (.arith opc) w)
  else if w.extractLsb' 24 5 = 0b01010#5 then some (.ofFields (.logical opc (w.getLsbD 21)) w)
  else none

/-- `bics w1, w2, w3, ror #4` -/
example : ShiftedReg.ofWord? 0x6AE31041#32 = some ⟨.bics, 1#5, 2#5, 3#5, 3#2, 4#6⟩ := by decide

/-! ## Loads and stores -/

/-- `op0`, bits 28:25, is `x1x0`. -/
def InLoadStoreGroup (w : BitVec 32) : Prop := w.getLsbD 27 = true ∧ w.getLsbD 25 = false

instance (w : BitVec 32) : Decidable (InLoadStoreGroup w) := inferInstanceAs (Decidable (_ ∧ _))

/-- How LDR and STR find the address from the base. -/
inductive Index where
  | unsigned (imm12 : BitVec 12)
  | pre (imm9 : BitVec 9)
  | post (imm9 : BitVec 9)
  | reg (rm : BitVec 5) (option : BitVec 3) (s : Bool)
  deriving DecidableEq, Repr

/-- LDR and STR of a 64-bit register. -/
structure LoadStore64 where
  load : Bool
  rt : BitVec 5
  rn : BitVec 5
  index : Index
  deriving DecidableEq, Repr

def LoadStore64.ofWord? (w : BitVec 32) : Option LoadStore64 :=
  let form (index : Index) : LoadStore64 :=
    ⟨w.getLsbD 22, w.extractLsb' 0 5, w.extractLsb' 5 5, index⟩
  if w.getLsbD 23 = true then none
  else if w.extractLsb' 24 8 = 0b11111001#8 then some (form (.unsigned (w.extractLsb' 10 12)))
  else if w.extractLsb' 24 8 = 0b11111000#8 then
    if w.getLsbD 21 = false then
      if w.extractLsb' 10 2 = 0b01#2 then some (form (.post (w.extractLsb' 12 9)))
      else if w.extractLsb' 10 2 = 0b11#2 then some (form (.pre (w.extractLsb' 12 9)))
      else none
    else if w.extractLsb' 10 2 = 0b10#2 ∧ w.getLsbD 14 = true then
      some (form (.reg (w.extractLsb' 16 5) (w.extractLsb' 13 3) (w.getLsbD 12)))
    else none
  else none

/-- `ExtendReg`: UXTW is 010, LSL 011, SXTW 110, SXTX 111. -/
def extendReg (option : BitVec 3) (x : Word) : Word :=
  if option = 0b010#3 then (x.setWidth 32).setWidth 64
  else if option = 0b110#3 then (x.setWidth 32).signExtend 64
  else x

/-- The offset from the base, with the registers `x`; as an index register, number 31 is zero. -/
def Index.offset (x : BitVec 5 → Word) : Index → Word
  | .unsigned imm12 => imm12.setWidth 64 * 8#64
  | .pre imm9 => imm9.signExtend 64
  | .post _ => 0#64
  | .reg rm option s =>
    extendReg option (if rm = 31#5 then 0#64 else x rm) <<< (if s then 3 else 0)

/-- What a pre- or post-indexed form adds to the base register. -/
def Index.writeback? : Index → Option Word
  | .pre imm9 | .post imm9 => some (imm9.signExtend 64)
  | .unsigned _ | .reg _ _ _ => none

/-- `str x1, [sp, #-16]!` -/
example : LoadStore64.ofWord? 0xF81F0FE1#32 = some ⟨false, 1#5, 31#5, .pre (-16#9)⟩ := by decide

end A64
