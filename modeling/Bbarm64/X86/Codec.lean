import Bbarm64.X86.Memory

/-!
# X86.Codec — the 64-bit instruction forms and their byte encoding

A subset of the x86-64 instruction set with 64-bit operands: `encode` gives the bytes of an
instruction and `decode` reads one instruction from the front of a byte list, by the REX, opcode,
ModRM and SIB rules.  `decode_encode` is the round trip, and `reads_decode` says that only the bytes of
the instruction matter.  Forms outside the subset (other operand sizes, index registers, RIP-relative
operands) decode to `none`.
-/

namespace X86

/-! ## Registers and operations -/

abbrev Reg := BitVec 4

/-- The bit of a register number that travels in the REX prefix. -/
def Reg.hi (r : Reg) : BitVec 1 := r.extractLsb' 3 1

/-- The three bits of a register number that travel in ModRM, SIB or the opcode. -/
def Reg.lo (r : Reg) : BitVec 3 := r.extractLsb' 0 3

abbrev rax : Reg := 0#4
abbrev rcx : Reg := 1#4
abbrev rdx : Reg := 2#4
abbrev rbx : Reg := 3#4
abbrev rsp : Reg := 4#4
abbrev rbp : Reg := 5#4
abbrev rdi : Reg := 7#4
abbrev r9 : Reg := 9#4
abbrev r12 : Reg := 12#4
abbrev r13 : Reg := 13#4
abbrev r14 : Reg := 14#4
abbrev r15 : Reg := 15#4

inductive AluOp where
  | add | or | and | sub | xor | cmp
  deriving DecidableEq, Repr

/-- The number of an arithmetic operation in its opcode and in the `81` group. -/
def AluOp.digit : AluOp → BitVec 3
  | .add => 0#3 | .or => 1#3 | .and => 4#3 | .sub => 5#3 | .xor => 6#3 | .cmp => 7#3

def AluOp.ofDigit (d : BitVec 3) : Option AluOp :=
  if d = 0#3 then some .add else if d = 1#3 then some .or else if d = 4#3 then some .and
  else if d = 5#3 then some .sub else if d = 6#3 then some .xor else if d = 7#3 then some .cmp
  else none

inductive ShiftOp where
  | shl | shr | sar
  deriving DecidableEq, Repr

/-- The number of a shift in the `C1` group. -/
def ShiftOp.digit : ShiftOp → BitVec 3
  | .shl => 4#3 | .shr => 5#3 | .sar => 7#3

def ShiftOp.ofDigit (d : BitVec 3) : Option ShiftOp :=
  if d = 4#3 then some .shl else if d = 5#3 then some .shr else if d = 7#3 then some .sar else none

inductive Instr where
  | movRI (dst : Reg) (imm : BitVec 64)
  | movRR (dst src : Reg)
  | load (dst base : Reg) (disp : BitVec 32)
  | store (base : Reg) (disp : BitVec 32) (src : Reg)
  | alu (op : AluOp) (dst src : Reg)
  | aluI (op : AluOp) (dst : Reg) (imm : BitVec 32)
  | test (dst src : Reg)
  | shift (op : ShiftOp) (dst : Reg) (count : Byte)
  | pushfq
  | pop (dst : Reg)
  | jcc (cc : BitVec 4) (rel : BitVec 32)
  | nop
  | ret
  | int3
  deriving DecidableEq, Repr

/-! ## Encoding -/

/-- REX prefix with `W = 1` and `X = 0`. -/
def rexW (r b : BitVec 1) : Byte := 0b01001#5 ++ r ++ 0#1 ++ b

def modrm (md : BitVec 2) (reg rm : BitVec 3) : Byte := md ++ reg ++ rm

/-- The displacement is the sign extension of its low byte. -/
def fits8 (disp : BitVec 32) : Prop := -128 ≤ disp.toInt ∧ disp.toInt ≤ 127

instance (disp : BitVec 32) : Decidable (fits8 disp) := inferInstanceAs (Decidable (_ ∧ _))

/-- The SIB byte a base register numbered `100` in its low bits asks for (no index). -/
def sib (base : Reg) : List Byte := if base.lo = 4#3 then [0x24#8] else []

/-- ModRM, SIB and displacement of the operand `[base + disp]`. -/
def memBytes (reg : BitVec 3) (base : Reg) (disp : BitVec 32) : List Byte :=
  if disp = 0#32 ∧ base.lo ≠ 5#3 then modrm 0#2 reg base.lo :: sib base
  else if fits8 disp then modrm 1#2 reg base.lo :: sib base ++ [disp.setWidth 8]
  else modrm 2#2 reg base.lo :: sib base ++ le32 disp

def encode : Instr → List Byte
  | .movRI r imm => [rexW 0#1 r.hi, 0b10111#5 ++ r.lo] ++ le64 imm
  | .movRR d s => [rexW s.hi d.hi, 0x89#8, modrm 3#2 s.lo d.lo]
  | .load d b disp => [rexW d.hi b.hi, 0x8B#8] ++ memBytes d.lo b disp
  | .store b disp s => [rexW s.hi b.hi, 0x89#8] ++ memBytes s.lo b disp
  | .alu op d s => [rexW s.hi d.hi, 0#2 ++ op.digit ++ 1#3, modrm 3#2 s.lo d.lo]
  | .aluI op d imm => [rexW 0#1 d.hi, 0x81#8, modrm 3#2 op.digit d.lo] ++ le32 imm
  | .test d s => [rexW s.hi d.hi, 0x85#8, modrm 3#2 s.lo d.lo]
  | .shift op d n => [rexW 0#1 d.hi, 0xC1#8, modrm 3#2 op.digit d.lo, n]
  | .pushfq => [0x9C#8]
  | .pop r => if r.hi = 0#1 then [0b01011#5 ++ r.lo] else [0x41#8, 0b01011#5 ++ r.lo]
  | .jcc cc rel => [0x0F#8, 8#4 ++ cc] ++ le32 rel
  | .nop => [0x90#8]
  | .ret => [0xC3#8]
  | .int3 => [0xCC#8]

theorem memBytes_length (reg : BitVec 3) (base : Reg) (disp : BitVec 32) :
    (memBytes reg base disp).length = (if base.lo = 4#3 then 2 else 1) +
      if disp = 0#32 ∧ base.lo ≠ 5#3 then 0 else if fits8 disp then 1 else 4 := by
  unfold memBytes sib
  split_ifs <;> simp_all

/-- No instruction of the subset takes more than ten bytes. -/
theorem encode_length_le (i : Instr) : (encode i).length ≤ 10 := by
  cases i with
  | load d b disp | store b disp s =>
    simp only [encode, List.length_append, memBytes_length, List.length_cons, List.length_nil]
    split_ifs <;> omega
  | pop r =>
    simp only [encode]
    split_ifs <;> simp
  | _ => simp [encode]

/-! ## Decoding -/

/-- The four prefix bits of a REX byte. -/
structure Rex where
  w : Bool
  r : BitVec 1
  x : BitVec 1
  b : BitVec 1
  deriving DecidableEq, Repr

def Rex.ofByte (p : Byte) : Rex :=
  ⟨p.getLsbD 3, p.extractLsb' 2 1, p.extractLsb' 1 1, p.extractLsb' 0 1⟩

def Rex.none : Rex := ⟨false, 0#1, 0#1, 0#1⟩

def isRex (p : Byte) : Bool := p.extractLsb' 4 4 == 4#4

def getLe32 : List Byte → Option (BitVec 32)
  | a :: b :: c :: d :: _ => some (d ++ c ++ b ++ a)
  | _ => none

def getLe64 (l : List Byte) : Option (BitVec 64) := do
  let lo ← getLe32 l
  let hi ← getLe32 (l.drop 4)
  return hi ++ lo

/-- Displacement of `mod` after ModRM and SIB, with its length. -/
def decodeDisp (md : BitVec 2) (base : Reg) (t : List Byte) : Option (BitVec 32 × ℕ) :=
  if md = 0#2 then if base.lo = 5#3 then none else some (0#32, 0)
  else if md = 1#2 then
    match t with
    | d :: _ => some (d.signExtend 32, 1)
    | [] => none
  else (getLe32 t).map fun d => (d, 4)

/-- The memory operand that starts with the ModRM byte: base, displacement and length. -/
def decodeMem (rex : Rex) (m : Byte) (t : List Byte) : Option (Reg × BitVec 32 × ℕ) :=
  let md := m.extractLsb' 6 2
  let rm := m.extractLsb' 0 3
  if rm = 4#3 then
    match t with
    | s :: t' =>
      if s.extractLsb' 3 3 = 4#3 ∧ rex.x = 0#1 then
        let base : Reg := rex.b ++ s.extractLsb' 0 3
        (decodeDisp md base t').map fun p => (base, p.1, p.2 + 2)
      else none
    | [] => none
  else
    let base : Reg := rex.b ++ rm
    (decodeDisp md base t).map fun p => (base, p.1, p.2 + 1)

/-- The instruction after the prefixes: the opcode byte, then the rest. -/
def decodeOp (rex : Rex) (op : Byte) (t : List Byte) : Option (Instr × ℕ) :=
  if op = 0xC3#8 then some (.ret, 1)
  else if op = 0xCC#8 then some (.int3, 1)
  else if op = 0x90#8 then if rex.b = 0#1 then some (.nop, 1) else none
  else if op = 0x9C#8 then some (.pushfq, 1)
  else if op.extractLsb' 3 5 = 0b01011#5 then some (.pop (rex.b ++ op.extractLsb' 0 3), 1)
  else if op = 0x0F#8 then
    match t with
    | op2 :: t' =>
      if op2.extractLsb' 4 4 = 8#4 then
        (getLe32 t').map fun rel => (.jcc (op2.extractLsb' 0 4) rel, 6)
      else none
    | [] => none
  else if rex.w = false then none
  else if op.extractLsb' 3 5 = 0b10111#5 then
    (getLe64 t).map fun imm => (.movRI (rex.b ++ op.extractLsb' 0 3) imm, 9)
  else
    match t with
    | m :: t' =>
      let reg : Reg := rex.r ++ m.extractLsb' 3 3
      let rm : Reg := rex.b ++ m.extractLsb' 0 3
      let ext := m.extractLsb' 3 3
      if m.extractLsb' 6 2 = 3#2 then
        if op = 0x89#8 then some (.movRR rm reg, 2)
        else if op = 0x85#8 then some (.test rm reg, 2)
        else if op = 0x81#8 then
          (AluOp.ofDigit ext).bind fun o => (getLe32 t').map fun imm => (.aluI o rm imm, 6)
        else if op = 0xC1#8 then
          match t' with
          | n :: _ => (ShiftOp.ofDigit ext).map fun o => (.shift o rm n, 3)
          | [] => none
        else if op.extractLsb' 6 2 = 0#2 ∧ op.extractLsb' 0 3 = 1#3 then
          (AluOp.ofDigit (op.extractLsb' 3 3)).map fun o => (.alu o rm reg, 2)
        else none
      else if op = 0x89#8 then
        (decodeMem rex m t').map fun p => (.store p.1 p.2.1 reg, p.2.2 + 1)
      else if op = 0x8B#8 then
        (decodeMem rex m t').map fun p => (.load reg p.1 p.2.1, p.2.2 + 1)
      else none
    | [] => none

/-- One instruction from the front of the bytes, with its length. -/
def decode : List Byte → Option (Instr × ℕ)
  | [] => none
  | p :: t =>
    if isRex p then
      match t with
      | op :: t' => (decodeOp (.ofByte p) op t').map fun q => (q.1, q.2 + 1)
      | [] => none
    else decodeOp .none p t

/-! ## Round trip -/

theorem Reg.hi_append_lo : ∀ r : Reg, r.hi ++ r.lo = r := by decide

@[simp] theorem isRex_rexW : ∀ r b : BitVec 1, isRex (rexW r b) = true := by decide

@[simp] theorem ofByte_rexW : ∀ r b : BitVec 1, Rex.ofByte (rexW r b) = ⟨true, r, 0#1, b⟩ := by decide

@[simp] theorem modrm_mod (md : BitVec 2) (reg rm : BitVec 3) :
    (modrm md reg rm).extractLsb' 6 2 = md := by
  revert md reg rm
  decide

@[simp] theorem modrm_reg (md : BitVec 2) (reg rm : BitVec 3) :
    (modrm md reg rm).extractLsb' 3 3 = reg := by
  revert md reg rm
  decide

@[simp] theorem modrm_rm (md : BitVec 2) (reg rm : BitVec 3) :
    (modrm md reg rm).extractLsb' 0 3 = rm := by
  revert md reg rm
  decide

@[simp] theorem getLe32_le32 (v : BitVec 32) (rest : List Byte) :
    getLe32 (le32 v ++ rest) = some v := by
  simp [le32, getLe32, byteAt_append32]

@[simp] theorem getLe64_le64 (v : BitVec 64) (rest : List Byte) :
    getLe64 (le64 v ++ rest) = some v := by
  have hlo : getLe32 (le64 v ++ rest) = some (v.extractLsb' 0 32) := by
    rw [le64, List.append_assoc, getLe32_le32]
  have hhi : getLe32 ((le64 v ++ rest).drop 4) = some (v.extractLsb' 32 32) := by
    have e : (le64 v ++ rest).drop 4 = le32 (v.extractLsb' 32 32) ++ rest := rfl
    rw [e, getLe32_le32]
  simp [getLe64, hlo, hhi, extract_append64]

@[simp] theorem AluOp.ofDigit_digit (op : AluOp) : AluOp.ofDigit op.digit = some op := by
  cases op <;> rfl

@[simp] theorem ShiftOp.ofDigit_digit (op : ShiftOp) : ShiftOp.ofDigit op.digit = some op := by
  cases op <;> rfl

theorem signExtend_setWidth_of_fits8 {d : BitVec 32} (h : fits8 d) :
    (d.setWidth 8).signExtend 32 = d := by
  apply BitVec.eq_of_toInt_eq
  rw [BitVec.toInt_signExtend_of_le (by omega), BitVec.toInt_setWidth]
  have hb : d.toInt.bmod (2 ^ 8) = d.toInt := by
    obtain ⟨h1, h2⟩ := h
    rw [Int.bmod_def]
    split <;> omega
  rw [← hb]
  simp [BitVec.toInt_eq_toNat_bmod, Int.bmod_bmod_of_dvd]

theorem decodeMem_modrm (r : BitVec 1) (md : BitVec 2) (reg : BitVec 3) (base : Reg)
    (t : List Byte) : decodeMem ⟨true, r, 0#1, base.hi⟩ (modrm md reg base.lo) (sib base ++ t) =
      (decodeDisp md base t).map fun p => (base, p.1, p.2 + (sib base).length + 1) := by
  have hb := Reg.hi_append_lo base
  by_cases hs : base.lo = 4#3
  · have e : base.hi ++ (0x24#8).extractLsb' 0 3 = base := by
      rw [show (0x24#8).extractLsb' 0 3 = base.lo by rw [hs]; rfl, hb]
    simp only [decodeMem, modrm_mod, modrm_rm, sib, if_pos hs, List.cons_append, List.nil_append]
    rw [if_pos (by decide), e]
    rfl
  · simp only [decodeMem, modrm_mod, modrm_rm, sib, if_neg hs, List.nil_append, hb]
    rfl

/-- The displacement bytes chosen by `memBytes` read back. -/
theorem decodeMem_memBytes (r : BitVec 1) (reg : BitVec 3) (base : Reg) (disp : BitVec 32)
    (rest : List Byte) : ∃ m t, memBytes reg base disp ++ rest = m :: t ∧ m.extractLsb' 3 3 = reg ∧
      m.extractLsb' 6 2 ≠ 3#2 ∧ decodeMem ⟨true, r, 0#1, base.hi⟩ m t =
        some (base, disp, (memBytes reg base disp).length) := by
  unfold memBytes
  split_ifs with h0 h8
  · refine ⟨modrm 0#2 reg base.lo, sib base ++ rest, rfl, by simp, by simp, ?_⟩
    rw [decodeMem_modrm]
    simp [decodeDisp, h0]
  · refine ⟨modrm 1#2 reg base.lo, sib base ++ ([disp.setWidth 8] ++ rest), by simp, by simp,
      by simp, ?_⟩
    rw [decodeMem_modrm]
    simp [decodeDisp, signExtend_setWidth_of_fits8 h8]
    omega
  · refine ⟨modrm 2#2 reg base.lo, sib base ++ (le32 disp ++ rest), by simp, by simp, by simp, ?_⟩
    rw [decodeMem_modrm]
    simp [decodeDisp]
    omega

@[simp] theorem decode_rexW (r b : BitVec 1) (op : Byte) (t : List Byte) :
    decode (rexW r b :: op :: t) =
      (decodeOp ⟨true, r, 0#1, b⟩ op t).map fun q => (q.1, q.2 + 1) := by
  simp [decode]

theorem op_row (row : BitVec 5) (l : BitVec 3) :
    (row ++ l).extractLsb' 3 5 = row ∧ (row ++ l).extractLsb' 0 3 = l := by
  revert row l
  decide

theorem decodeOp_movRI (r b : BitVec 1) (l : BitVec 3) (imm : BitVec 64) (rest : List Byte) :
    decodeOp ⟨true, r, 0#1, b⟩ (0b10111#5 ++ l) (le64 imm ++ rest) =
      some (.movRI (b ++ l) imm, 9) := by
  have hne : ∀ l : BitVec 3, 0b10111#5 ++ l ≠ 0xC3#8 ∧ 0b10111#5 ++ l ≠ 0xCC#8 ∧
      0b10111#5 ++ l ≠ 0x90#8 ∧ 0b10111#5 ++ l ≠ 0x9C#8 ∧ 0b10111#5 ++ l ≠ 0x0F#8 := by decide
  obtain ⟨h1, h2, h3, h4, h5⟩ := hne l
  obtain ⟨hrow, hlo⟩ := op_row 0b10111#5 l
  simp only [decodeOp, if_neg h1, if_neg h2, if_neg h3, if_neg h4, if_neg h5, hrow, hlo]
  simp

theorem decodeOp_alu (op : AluOp) (r b : BitVec 1) (m : Byte) (t : List Byte)
    (hm : m.extractLsb' 6 2 = 3#2) :
    decodeOp ⟨true, r, 0#1, b⟩ (0#2 ++ op.digit ++ 1#3) (m :: t) =
      some (.alu op (b ++ m.extractLsb' 0 3) (r ++ m.extractLsb' 3 3), 2) := by
  cases op <;> simp [decodeOp, AluOp.digit, AluOp.ofDigit, hm]

theorem decode_pop (r : Reg) (rest : List Byte) :
    decode (encode (.pop r) ++ rest) = some (.pop r, (encode (.pop r)).length) := by
  have key : ∀ b : BitVec 1, ∀ l : BitVec 3, ∀ t, decodeOp ⟨false, 0#1, 0#1, b⟩ (0b01011#5 ++ l) t =
      some (.pop (b ++ l), 1) := by
    intro b l t
    have hne : ∀ l : BitVec 3, 0b01011#5 ++ l ≠ 0xC3#8 ∧ 0b01011#5 ++ l ≠ 0xCC#8 ∧
        0b01011#5 ++ l ≠ 0x90#8 ∧ 0b01011#5 ++ l ≠ 0x9C#8 := by decide
    obtain ⟨h1, h2, h3, h4⟩ := hne l
    obtain ⟨hrow, hlo⟩ := op_row 0b01011#5 l
    simp only [decodeOp, if_neg h1, if_neg h2, if_neg h3, if_neg h4, hrow, hlo]
    simp
  have hrex : ∀ l : BitVec 3, isRex (0b01011#5 ++ l) = false := by decide
  have h41 : isRex 0x41#8 = true ∧ Rex.ofByte 0x41#8 = ⟨false, 0#1, 0#1, 1#1⟩ := by decide
  have hr := Reg.hi_append_lo r
  have h1 : ∀ b : BitVec 1, b ≠ 0#1 → b = 1#1 := by decide
  by_cases h : r.hi = 0#1
  · rw [h] at hr
    simp [encode, h, decode, hrex, Rex.none, key, hr]
  · rw [h1 _ h] at hr
    simp [encode, h, decode, h41, key, hr]

/-- **Round trip**: the bytes of an instruction decode to it, whatever follows. -/
theorem decode_encode (i : Instr) (rest : List Byte) :
    decode (encode i ++ rest) = some (i, (encode i).length) := by
  cases i with
  | movRI r imm => simp [encode, decodeOp_movRI, Reg.hi_append_lo]
  | movRR d s => simp [encode, decodeOp, Reg.hi_append_lo]
  | load d b disp =>
    obtain ⟨m, t, he, hreg, hmod, hdec⟩ := decodeMem_memBytes d.hi d.lo b disp rest
    simp [encode, he, decodeOp, hreg, hmod, hdec, Reg.hi_append_lo]
  | store b disp s =>
    obtain ⟨m, t, he, hreg, hmod, hdec⟩ := decodeMem_memBytes s.hi s.lo b disp rest
    simp [encode, he, decodeOp, hreg, hmod, hdec, Reg.hi_append_lo]
  | alu op d s => simp [encode, decodeOp_alu, Reg.hi_append_lo]
  | aluI op d imm => simp [encode, decodeOp, Reg.hi_append_lo]
  | test d s => simp [encode, decodeOp, Reg.hi_append_lo]
  | shift op d n => simp [encode, decodeOp, Reg.hi_append_lo]
  | pushfq => simp [encode, decode, isRex, decodeOp]
  | pop r => exact decode_pop r rest
  | jcc cc rel =>
    have hcc : ∀ cc : BitVec 4, (8#4 ++ cc).extractLsb' 4 4 = 8#4 ∧
        (8#4 ++ cc).extractLsb' 0 4 = cc := by decide
    simp [encode, decode, isRex, decodeOp, hcc]
  | nop => simp [encode, decode, isRex, decodeOp, Rex.none]
  | ret => simp [encode, decode, isRex, decodeOp]
  | int3 => simp [encode, decode, isRex, decodeOp]

/-- `mov r12, rdi` -/
example : decode [0x49#8, 0x89#8, 0xFC#8] = some (.movRR r12 rdi, 3) := by decide

/-! ## Prefixes -/

/-- What `f` reads from the front of the bytes does not depend on what follows. -/
def Reads {α : Type} (f : List Byte → Option α) : Prop :=
  ∀ l q, f l = some q → ∀ t, f (l ++ t) = some q

namespace Reads

variable {α β : Type} {f g : List Byte → Option α}

theorem const (o : Option α) : Reads fun _ => o := fun _ _ h _ => h

theorem ite {c : Prop} [Decidable c] (hf : Reads f) (hg : Reads g) :
    Reads fun l => if c then f l else g l := by
  by_cases h : c
  · simpa only [if_pos h] using hf
  · simpa only [if_neg h] using hg

theorem map (hf : Reads f) (k : α → β) : Reads fun l => (f l).map k := by
  intro l q h t
  obtain ⟨a, ha, rfl⟩ := Option.map_eq_some_iff.mp h
  show (f (l ++ t)).map k = _
  rw [hf l a ha t]
  rfl

theorem bind {k : β → List Byte → Option α} (o : Option β) (hk : ∀ b, Reads (k b)) :
    Reads fun l => o.bind fun b => k b l := by
  intro l q h t
  obtain ⟨b, hb, h⟩ := Option.bind_eq_some_iff.mp h
  exact Option.bind_eq_some_iff.mpr ⟨b, hb, hk b l q h t⟩

theorem cons (h0 : f [] = none) (hf : ∀ b, Reads fun l => f (b :: l)) : Reads f := by
  intro l q h t
  cases l with
  | nil =>
    rw [h0] at h
    cases h
  | cons b l => exact hf b l q h t

end Reads

theorem reads_getLe32 : Reads getLe32 := by
  intro l v h t
  match l, h with
  | _ :: _ :: _ :: _ :: _, h => exact h

theorem reads_getLe64 : Reads getLe64 := by
  intro l v h t
  obtain ⟨lo, hlo, h⟩ := Option.bind_eq_some_iff.mp h
  obtain ⟨hi, hhi, h⟩ := Option.bind_eq_some_iff.mp h
  have hlen : 4 ≤ l.length := by
    match l, hlo with
    | _ :: _ :: _ :: _ :: _, _ => exact Nat.le_add_left 4 _
  refine Option.bind_eq_some_iff.mpr ⟨lo, reads_getLe32 l lo hlo t,
    Option.bind_eq_some_iff.mpr ⟨hi, ?_, h⟩⟩
  rw [List.drop_append_of_le_length hlen]
  exact reads_getLe32 _ _ hhi t

theorem reads_decodeDisp (md : BitVec 2) (base : Reg) : Reads (decodeDisp md base) := by
  refine .ite (.ite (.const _) (.const _)) (.ite ?_ (reads_getLe32.map _))
  exact .cons rfl fun d => .const _

theorem reads_decodeMem (rex : Rex) (m : Byte) : Reads (decodeMem rex m) := by
  refine .ite ?_ ((reads_decodeDisp _ _).map _)
  exact .cons rfl fun s => .ite ((reads_decodeDisp _ _).map _) (.const _)

theorem reads_decodeOp (rex : Rex) (op : Byte) : Reads (decodeOp rex op) := by
  refine .ite (.const _) (.ite (.const _) (.ite (.const _) (.ite (.const _) (.ite (.const _)
    (.ite ?_ (.ite (.const _) (.ite (reads_getLe64.map _) ?_)))))))
  · exact .cons rfl fun op2 => .ite (reads_getLe32.map _) (.const _)
  · refine .cons rfl fun m => .ite (.ite (.const _) (.ite (.const _) (.ite ?_ (.ite ?_ (.const _)))))
      (.ite ((reads_decodeMem _ _).map _) (.ite ((reads_decodeMem _ _).map _) (.const _)))
    · exact .bind _ fun o => reads_getLe32.map _
    · exact .cons rfl fun n => .const _

/-- **Decoding reads a prefix**: what follows the instruction does not matter. -/
theorem reads_decode : Reads decode := by
  refine .cons rfl fun p => .ite (.cons rfl fun op => (reads_decodeOp _ op).map _) ?_
  exact reads_decodeOp _ p

end X86
