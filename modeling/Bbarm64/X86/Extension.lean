import Bbarm64.X86.Machine

/-!
# X86.Extension — further instructions on top of the subset

`Insn` adds to `Instr` the rotate by an immediate, the shifts by CL, `neg`, `bswap` and the jump
`E9 rel32`.  `decodeInsn` reads what `decode` reads, and the added forms where `decode` gives up, so
a run of the smaller machine is a run of this one (`steps_insn`).
-/

namespace X86

inductive Insn where
  | base (i : Instr)
  | ror (dst : Reg) (count : Byte)
  | shiftCL (op : ShiftOp) (dst : Reg)
  | neg (dst : Reg)
  | bswap (dst : Reg)
  | jmp (rel : BitVec 32)
  deriving DecidableEq, Repr

/-! ## Encoding and decoding -/

def encodeInsn : Insn → List Byte
  | .base i => encode i
  | .ror d n => [rexW 0#1 d.hi, 0xC1#8, modrm 3#2 1#3 d.lo, n]
  | .shiftCL op d => [rexW 0#1 d.hi, 0xD3#8, modrm 3#2 op.digit d.lo]
  | .neg d => [rexW 0#1 d.hi, 0xF7#8, modrm 3#2 3#3 d.lo]
  | .bswap d => [rexW 0#1 d.hi, 0x0F#8, 0b11001#5 ++ d.lo]
  | .jmp rel => 0xE9#8 :: le32 rel

/-- An added form after the prefixes. -/
def decodeAdded (rex : Rex) (op : Byte) (t : List Byte) : Option (Insn × ℕ) :=
  if op = 0xE9#8 then (getLe32 t).map fun rel => (.jmp rel, 5)
  else if rex.w = false then none
  else
    match t with
    | m :: t' =>
      let rm : Reg := rex.b ++ m.extractLsb' 0 3
      let ext := m.extractLsb' 3 3
      if op = 0x0F#8 then if m.extractLsb' 3 5 = 0b11001#5 then some (.bswap rm, 2) else none
      else if m.extractLsb' 6 2 = 3#2 then
        if op = 0xC1#8 then
          match t' with
          | n :: _ => if ext = 1#3 then some (.ror rm n, 3) else none
          | [] => none
        else if op = 0xD3#8 then (ShiftOp.ofDigit ext).map fun o => (.shiftCL o rm, 2)
        else if op = 0xF7#8 then if ext = 3#3 then some (.neg rm, 2) else none
        else none
      else none
    | [] => none

/-- One instruction from the front of the bytes, with its length. -/
def decodeInsn (l : List Byte) : Option (Insn × ℕ) :=
  match decode l with
  | some (i, n) => some (.base i, n)
  | none =>
    match l with
    | [] => none
    | p :: t =>
      if isRex p then
        match t with
        | op :: t' => (decodeAdded (.ofByte p) op t').map fun q => (q.1, q.2 + 1)
        | [] => none
      else decodeAdded .none p t

theorem decodeInsn_of_decode {l : List Byte} {i : Instr} {n : ℕ} (h : decode l = some (i, n)) :
    decodeInsn l = some (.base i, n) := by
  unfold decodeInsn
  rw [h]

/-- An added form behind a REX prefix. -/
theorem decodeInsn_rexW {r b : BitVec 1} {op : Byte} {t : List Byte}
    (h : decodeOp ⟨true, r, 0#1, b⟩ op t = none) : decodeInsn (rexW r b :: op :: t) =
      (decodeAdded ⟨true, r, 0#1, b⟩ op t).map fun q => (q.1, q.2 + 1) := by
  unfold decodeInsn
  rw [decode_rexW, h]
  simp

/-- **Round trip**: the bytes of an instruction decode to it, whatever follows. -/
theorem decodeInsn_encodeInsn (i : Insn) (rest : List Byte) :
    decodeInsn (encodeInsn i ++ rest) = some (i, (encodeInsn i).length) := by
  cases i with
  | base i => exact decodeInsn_of_decode (decode_encode i rest)
  | ror d n =>
    have h : decodeOp ⟨true, 0#1, 0#1, d.hi⟩ 0xC1#8 (modrm 3#2 1#3 d.lo :: n :: rest) = none := by
      simp [decodeOp, ShiftOp.ofDigit]
    simp [encodeInsn, decodeInsn_rexW h, decodeAdded, Reg.hi_append_lo]
  | shiftCL op d =>
    have h : decodeOp ⟨true, 0#1, 0#1, d.hi⟩ 0xD3#8 (modrm 3#2 op.digit d.lo :: rest) = none := by
      simp [decodeOp]
    simp [encodeInsn, decodeInsn_rexW h, decodeAdded, Reg.hi_append_lo]
  | neg d =>
    have h : decodeOp ⟨true, 0#1, 0#1, d.hi⟩ 0xF7#8 (modrm 3#2 3#3 d.lo :: rest) = none := by
      simp [decodeOp]
    simp [encodeInsn, decodeInsn_rexW h, decodeAdded, Reg.hi_append_lo]
  | bswap d =>
    obtain ⟨hrow, hlo⟩ := op_row 0b11001#5 d.lo
    have hcc : ∀ l : BitVec 3, (0b11001#5 ++ l).extractLsb' 4 4 ≠ 8#4 := by decide
    have h : decodeOp ⟨true, 0#1, 0#1, d.hi⟩ 0x0F#8 ((0b11001#5 ++ d.lo) :: rest) = none := by
      simp [decodeOp, hcc]
    simp [encodeInsn, decodeInsn_rexW h, decodeAdded, hrow, hlo, Reg.hi_append_lo]
  | jmp rel =>
    have h : decode (0xE9#8 :: (le32 rel ++ rest)) = none := by
      simp [decode, isRex, decodeOp, Rex.none]
    simp [encodeInsn, decodeInsn, h, isRex, decodeAdded]

/-! ## Execution -/

/-- The bytes in reverse order. -/
def byteSwap (a : Word) : Word :=
  byteAt a 0 ++ byteAt a 1 ++ byteAt a 2 ++ byteAt a 3 ++ byteAt a 4 ++ byteAt a 5 ++ byteAt a 6 ++
    byteAt a 7

/-- A rotate changes CF and, by one place only in a defined way, OF. -/
def rorFlags (f u : Flags) (r : Word) (k : ℕ) : Flags :=
  { f with cf := r.msb, of := if k = 1 then r.msb ^^ r.getLsbD 62 else u.of }

/-- The count of a 64-bit rotate is taken modulo 64, and a zero count keeps the flags. -/
def execRor (d : Reg) (n : Byte) (s : State) : State :=
  let k := n.toNat % 64
  if k = 0 then s
  else
    let r := (s.reg d).rotateRight k
    ((s.setFlags (rorFlags s.flags (s.undef 0) r k)).draw).setReg d r

/-- The effect of one instruction; the control transfers are in `stepInsn`. -/
def execInsn (i : Insn) (s : State) : State :=
  match i with
  | .base i => exec i s
  | .ror d n => execRor d n s
  | .shiftCL op d => execShift op d ((s.reg rcx).setWidth 8) s
  | .neg d => (s.setFlags (subFlags 0#64 (s.reg d))).setReg d (-s.reg d)
  | .bswap d => s.setReg d (byteSwap (s.reg d))
  | .jmp _ => s

def stepInsn (code : List Byte) (c : Config) : Option Config :=
  match decodeInsn (code.drop c.ip) with
  | none => none
  | some (i, n) =>
    match i with
    | .base .ret | .base .int3 => none
    | .base (.jcc cc rel) =>
      if c.st.flags.cond cc then jump (c.ip + n) rel c.st else some ⟨c.ip + n, c.st⟩
    | .jmp rel => jump (c.ip + n) rel c.st
    | i => some ⟨c.ip + n, execInsn i c.st⟩

/-- Zero or more steps. -/
def StepsInsn (code : List Byte) : Config → Config → Prop :=
  Relation.ReflTransGen fun a b => stepInsn code a = some b

/-- Instructions that fall through to the next one. -/
def Insn.straight : Insn → Bool
  | .base i => i.straight
  | .ror _ _ | .shiftCL _ _ | .neg _ | .bswap _ => true
  | .jmp _ => false

/-- The smaller machine takes the same step. -/
theorem stepInsn_of_step {code : List Byte} {c d : Config} (h : step code c = some d) :
    stepInsn code c = some d := by
  unfold step at h
  cases hd : decode (code.drop c.ip) with
  | none =>
    rw [hd] at h
    cases h
  | some p =>
    obtain ⟨i, n⟩ := p
    rw [hd] at h
    unfold stepInsn
    rw [decodeInsn_of_decode hd]
    cases i with
    | ret | int3 => cases h
    | _ => exact h

theorem steps_insn {code : List Byte} {c d : Config} (h : Steps code c d) : StepsInsn code c d :=
  Relation.ReflTransGen.mono (fun _ _ => stepInsn_of_step) c d h

/-- The first instruction of the code. -/
theorem stepInsn_append {i : Insn} (hi : i.straight = true) (rest : List Byte) (s : State) :
    stepInsn (encodeInsn i ++ rest) ⟨0, s⟩ = some ⟨(encodeInsn i).length, execInsn i s⟩ := by
  unfold stepInsn
  rw [List.drop_zero, decodeInsn_encodeInsn]
  cases i with
  | base i =>
    cases i with
    | jcc | ret | int3 => cases hi
    | _ => simp
  | jmp => cases hi
  | _ => simp

theorem stepInsn_straight {i : Insn} (hi : i.straight = true) (s : State) :
    stepInsn (encodeInsn i) ⟨0, s⟩ = some ⟨(encodeInsn i).length, execInsn i s⟩ := by
  have h := stepInsn_append hi [] s
  rwa [List.append_nil] at h

theorem stepInsn_of_length_le {code : List Byte} {c : Config} (h : code.length ≤ c.ip) :
    stepInsn code c = none := by
  unfold stepInsn
  rw [List.drop_of_length_le h]
  rfl

/-- What a write to the register `b` does for one who asks for `w` in the register `r`. -/
theorem write_meets_iff {s t : State} {b r : Reg} {v w : Word}
    (h : ∀ q, t.reg q = if q = b then v else s.reg q) :
    (t.reg r = w ∧ ∀ q, q ≠ r → t.reg q = s.reg q) ↔
      b = r ∧ v = w ∨ b ≠ r ∧ w = s.reg r ∧ v = s.reg b := by
  constructor
  · rintro ⟨hr, hq⟩
    by_cases hbr : b = r
    · rw [h, if_pos hbr.symm] at hr
      exact .inl ⟨hbr, hr⟩
    · have hb := hq b hbr
      rw [h, if_pos rfl] at hb
      rw [h, if_neg (Ne.symm hbr)] at hr
      exact .inr ⟨hbr, hr.symm, hb⟩
  · rintro (⟨rfl, rfl⟩ | ⟨hbr, rfl, rfl⟩)
    · refine ⟨by rw [h, if_pos rfl], ?_⟩
      intro q hq
      rw [h, if_neg hq]
    · refine ⟨by rw [h, if_neg (Ne.symm hbr)], ?_⟩
      intro q _
      rw [h]
      split_ifs with hqb
      · rw [hqb]
      · rfl

/-- `ror r9, 4` and `jmp` -/
example : decodeInsn [0x49#8, 0xC1#8, 0xC9#8, 0x04#8] = some (.ror r9 4#8, 4) ∧
    decodeInsn [0xE9#8, 0xFB#8, 0xFF#8, 0xFF#8, 0xFF#8] = some (.jmp 0xFFFFFFFB#32, 5) := by decide

end X86
