import Bbarm64.X86.Machine

/-!
# X86.ModRM — the operands of a ModRM byte

`decodeMem` knows the operands `[base + disp]`.  Here is the whole table of 64-bit mode: a SIB byte
behind `rm = 100`, no index for the index number `0100`, no base for the SIB base `101` with `mod = 00`,
and `[rip + disp]` for `rm = 101` with `mod = 00`, whatever REX.B is.  `decodeMov` reads the two moves
between a register and such an operand.
-/

namespace X86

/-- An address in memory. -/
inductive Addr where
  | sum (base : Option Reg) (index : Option (Reg × BitVec 2)) (disp : BitVec 32)
  | rip (disp : BitVec 32)
  deriving DecidableEq, Repr

/-- The operand of the `rm` field. -/
inductive Operand where
  | reg (r : Reg)
  | mem (a : Addr)
  deriving DecidableEq, Repr

/-- The address in state `s`, with the next instruction at `next`. -/
def Addr.ea (next : Word) (s : State) : Addr → Word
  | .sum base index disp =>
    (match base with | some b => s.reg b | none => 0#64) +
      (match index with | some (x, scale) => s.reg x <<< scale.toNat | none => 0#64) +
      disp.signExtend 64
  | .rip disp => next + disp.signExtend 64

theorem Addr.ea_base (next : Word) (s : State) (b : Reg) (disp : BitVec 32) :
    (Addr.sum (some b) none disp).ea next s = s.ea b disp := by
  show s.reg b + 0#64 + disp.signExtend 64 = _
  rw [BitVec.add_zero]
  rfl

/-- The displacement of `mod`, with its length. -/
def getDisp (md : BitVec 2) (t : List Byte) : Option (BitVec 32 × ℕ) :=
  if md = 0#2 then some (0#32, 0)
  else if md = 1#2 then
    match t with
    | d :: _ => some (d.signExtend 32, 1)
    | [] => none
  else (getLe32 t).map fun d => (d, 4)

/-- The address of a SIB byte, with the length from ModRM on. -/
def decodeSib (rex : Rex) (md : BitVec 2) : List Byte → Option (Addr × ℕ)
  | s :: t =>
    let x : Reg := rex.x ++ s.extractLsb' 3 3
    let index := if x = 4#4 then none else some (x, s.extractLsb' 6 2)
    if md = 0#2 ∧ s.extractLsb' 0 3 = 5#3 then (getLe32 t).map fun d => (.sum none index d, 6)
    else
      let base : Reg := rex.b ++ s.extractLsb' 0 3
      (getDisp md t).map fun p => (.sum (some base) index p.1, p.2 + 2)
  | [] => none

/-- The operand that starts with the ModRM byte, with its length. -/
def decodeOperand (rex : Rex) (m : Byte) (t : List Byte) : Option (Operand × ℕ) :=
  let md := m.extractLsb' 6 2
  let rm := m.extractLsb' 0 3
  if md = 3#2 then some (.reg (rex.b ++ rm), 1)
  else if rm = 4#3 then (decodeSib rex md t).map fun p => (.mem p.1, p.2)
  else if md = 0#2 ∧ rm = 5#3 then (getLe32 t).map fun d => (.mem (.rip d), 5)
  else (getDisp md t).map fun p => (.mem (.sum (some (rex.b ++ rm)) none p.1), p.2 + 1)

/-- The 64-bit moves with a ModRM byte. -/
inductive Mov where
  | load (dst : Reg) (src : Operand)
  | store (dst : Operand) (src : Reg)
  deriving DecidableEq, Repr

/-- `REX.W 8B /r` and `REX.W 89 /r`, with the length. -/
def decodeMov : List Byte → Option (Mov × ℕ)
  | p :: op :: m :: t =>
    let rex := Rex.ofByte p
    let reg : Reg := rex.r ++ m.extractLsb' 3 3
    if isRex p ∧ rex.w = true then
      if op = 0x8B#8 then (decodeOperand rex m t).map fun q => (.load reg q.1, q.2 + 2)
      else if op = 0x89#8 then (decodeOperand rex m t).map fun q => (.store q.1 reg, q.2 + 2)
      else none
    else none
  | _ => none

/-! ## The operands `[base + disp]` -/

theorem getDisp_of_decodeDisp {md : BitVec 2} {base : Reg} {t : List Byte} {p : BitVec 32 × ℕ}
    (h : decodeDisp md base t = some p) :
    getDisp md t = some p ∧ ¬(md = 0#2 ∧ base.lo = 5#3) := by
  unfold decodeDisp at h
  unfold getDisp
  by_cases h0 : md = 0#2
  · rw [if_pos h0] at h ⊢
    by_cases h5 : base.lo = 5#3
    · rw [if_pos h5] at h
      cases h
    · rw [if_neg h5] at h
      exact ⟨h, fun hc => h5 hc.2⟩
  · rw [if_neg h0] at h ⊢
    exact ⟨h, fun hc => h0 hc.1⟩

theorem append_lo : ∀ (b : BitVec 1) (l : BitVec 3), Reg.lo (b ++ l) = l := by decide

/-- The table goes on from `decodeMem`. -/
theorem decodeOperand_of_decodeMem {rex : Rex} {m : Byte} {t : List Byte} {b : Reg}
    {disp : BitVec 32} {n : ℕ} (hm : m.extractLsb' 6 2 ≠ 3#2)
    (h : decodeMem rex m t = some (b, disp, n)) :
    decodeOperand rex m t = some (.mem (.sum (some b) none disp), n) := by
  unfold decodeMem at h
  unfold decodeOperand
  dsimp only at h ⊢
  rw [if_neg hm]
  by_cases h4 : m.extractLsb' 0 3 = 4#3
  · rw [if_pos h4] at h ⊢
    cases t with
    | nil => cases h
    | cons s t =>
      dsimp only at h
      split_ifs at h with hs
      obtain ⟨p, hp, he⟩ := Option.map_eq_some_iff.mp h
      obtain ⟨hd, h5⟩ := getDisp_of_decodeDisp hp
      rw [append_lo] at h5
      have hx : rex.x ++ s.extractLsb' 3 3 = 4#4 := by
        rw [hs.1, hs.2]
        rfl
      simp only [decodeSib, if_pos hx, if_neg h5, hd, Option.map_some]
      cases he
      rfl
  · rw [if_neg h4] at h ⊢
    obtain ⟨p, hp, he⟩ := Option.map_eq_some_iff.mp h
    obtain ⟨hd, h5⟩ := getDisp_of_decodeDisp hp
    rw [append_lo] at h5
    rw [if_neg h5, hd]
    cases he
    rfl

/-- A base of its own kind in `[rbp]`: four bytes more, and no base. -/
theorem decodeOperand_rip (rex : Rex) (reg : BitVec 3) (t : List Byte) :
    decodeOperand rex (modrm 0#2 reg 5#3) t = (getLe32 t).map fun d => (.mem (.rip d), 5) := by
  unfold decodeOperand
  simp

end X86
