import Bbarm64.A64.Isa
import Bbarm64.Ir.Builder

/-!
# Ir.Semantics — the meaning of the intermediate representation

An IR block acts on the guest registers, the flags and the guest memory and ends with a branch
decision.  ADD, SUB, CMP and TST write the flags when `flags_set` is on, and a conditional jump reads
them.  The opcodes that no integer instruction builds (the system call, the vector forms) are a
parameter `other`.
-/

namespace Bbarm64

open X86

structure IRState where
  /-- The guest registers; number 31 is SP. -/
  reg : IRReg → Word
  nzcv : A64.Nzcv
  mem : Mem

/-- How a block ends. -/
inductive Exit where
  | fallthrough
  | jump (target : Word)
  | call (target : Word)
  | ret (target : Word)
  | cond (taken : Bool) (target : Word)
  deriving DecidableEq, Repr

namespace IRState

def setReg (s : IRState) (r : IRReg) (v : Word) : IRState :=
  { s with reg := fun q => if q = r then v else s.reg q }

/-- The flags are written when `set` is on. -/
def setFlags (s : IRState) (set : Bool) (f : A64.Nzcv) : IRState :=
  if set then { s with nzcv := f } else s

def load64 (s : IRState) (a : Word) : Word := read64 s.mem a

def load32 (s : IRState) (a : Word) : Word := (read32 s.mem a).setWidth 64

def store (s : IRState) (k : ℕ) (a v : Word) : IRState := { s with mem := writeN k s.mem a v }

/-- The second operand of the arithmetic forms. -/
def operand (s : IRState) (ir : IRInst) : Word := if ir.src2 = IR_IMM then ir.imm else s.reg ir.src2

/-- The second operand of CMP. -/
def cmpOperand (s : IRState) (ir : IRInst) : Word :=
  if ir.src2 = IR_IMM ∨ ir.src2 = IR_NONE then ir.imm else s.reg ir.src2

end IRState

namespace IRInst

/-- The effect of an instruction that does not leave the block. -/
def exec (other : IRInst → IRState → IRState) (ir : IRInst) (s : IRState) : IRState :=
  let a := s.reg ir.src1
  let b := s.operand ir
  match ir.op with
  | .ADD => (s.setFlags ir.flags_set (.ofAdd a b)).setReg ir.dest (a + b)
  | .SUB => (s.setFlags ir.flags_set (.ofSub a b)).setReg ir.dest (a - b)
  | .SAR => s.setReg ir.dest (a.sshiftRight (b.toNat % 64))
  | .SHR => s.setReg ir.dest (a >>> (b.toNat % 64))
  | .SHL => s.setReg ir.dest (a <<< (b.toNat % 64))
  | .CMP => s.setFlags ir.flags_set (.ofSub a (s.cmpOperand ir))
  | .TST => s.setFlags ir.flags_set (.ofAnd a (s.reg ir.src2))
  | .MOV_IMM => s.setReg ir.dest ir.imm
  | .SET_REG => s.setReg ir.dest (if ir.src1 = IR_NONE then ir.imm else a)
  | .LOAD64 => s.setReg ir.dest (s.load64 (a + ir.imm))
  | .LOAD32 => s.setReg ir.dest (s.load32 (a + ir.imm))
  | .STORE64 => s.store 8 (a + ir.imm) (s.reg ir.src2)
  | .STORE32 => s.store 4 (a + ir.imm) (s.reg ir.src2)
  | .LOAD_PAIR =>
    (s.setReg ir.dest (s.load64 (a + ir.imm))).setReg ir.src2 (s.load64 (a + ir.imm + 8#64))
  | .STORE_PAIR =>
    -- the number of the second register is looked for in the upper half of the offset
    (s.store 8 (a + ir.imm) (s.reg ir.src2)).store 8 (a + ir.imm + 8#64)
      (s.reg ((ir.imm >>> 32).setWidth 16))
  | .NOP | .BARRIER => s
  | _ => other ir s

/-- The branch decision of an instruction that leaves the block. -/
def exit? (ir : IRInst) (s : IRState) : Option Exit :=
  match ir.op with
  | .JMP => some (.jump ir.imm)
  | .CALL => some (.call ir.imm)
  | .RET => some (.ret (s.reg ir.src1))
  | .JMP_COND => some (.cond (s.nzcv.holds (ir.cond.setWidth 4)) ir.imm)
  | _ => none

end IRInst

namespace IRBlock

/-- The instructions in order, up to the one that leaves the block. -/
def execFrom (other : IRInst → IRState → IRState) : List IRInst → IRState → IRState × Exit
  | [], s => (s, .fallthrough)
  | ir :: rest, s =>
    match ir.exit? s with
    | some e => (s, e)
    | none => execFrom other rest (ir.exec other s)

def exec (other : IRInst → IRState → IRState) (block : IRBlock) (s : IRState) : IRState × Exit :=
  execFrom other block.instructions s

end IRBlock

end Bbarm64
