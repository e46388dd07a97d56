import Bbarm64.Engine.Branch
import Bbarm64.Engine.Interp

/-!
# Engine.Compare — conditions after CMP

The CMP handler computes V from the sign of the difference and the order of the operands; that is
the overflow of A64 (`execute_cmp_nzcv`).  With it every condition test is an order, and the x86
condition that the lowering of a branch picks tests the same order on the flags of an x86 CMP, which
has the carry the other way round.
-/

namespace Bbarm64

open X86 ARM64Decoder IRLowering

namespace ExecEngine

/-- A64 flags as `set_nzcv` packs them. -/
def nzcv_word (f : A64.Nzcv) : Word := CPUContext.nzcv_of f.n f.z f.c f.v

/-! ## Orders -/

section Orders

variable {g : Guest} {d : DecodedInstr}

/-- V as the handler computes it. -/
theorem cmp_overflow (a b : Word) : ((a - b).msb != a.slt b) = (A64.Nzcv.ofSub a b).v := by
  have hn : (a - b).msb = true ↔ _ := A64.ofSub_n a b
  rw [Bool.eq_iff_iff, A64.ofSub_v, bne_iff_ne, ne_eq, Bool.eq_iff_iff, hn, BitVec.slt_iff_toInt_lt]

/-- **The flags of CMP** are those of A64. -/
theorem execute_cmp_nzcv (h : d.opcode = 0x30#8) : (execute_decoded g d).1.nzcv =
    nzcv_word (.ofSub (g.1.x d.rn.toNat) (g.1.x d.rm.toNat)) := by
  rw [execute_cmp h]
  dsimp only
  rw [cmp_overflow]
  rfl

/-- The tests of `check_condition` on packed flags. -/
theorem check_condition_nzcv_word (f : A64.Nzcv) (cond : Byte) :
    check_condition (nzcv_word f) cond =
      if cond = 0#8 then f.z else if cond = 1#8 then !f.z
      else if cond = 2#8 then f.c else if cond = 3#8 then !f.c
      else if cond = 4#8 then f.n else if cond = 5#8 then !f.n
      else if cond = 6#8 then f.v else if cond = 7#8 then !f.v
      else if cond = 8#8 then f.c && !f.z else if cond = 9#8 then !f.c || f.z
      else if cond = 10#8 then f.n == f.v else if cond = 11#8 then f.n != f.v
      else if cond = 12#8 then !f.z && f.n == f.v else if cond = 13#8 then f.z || f.n != f.v
      else if cond = 14#8 then true else false := by
  obtain ⟨hn, hz, hc, hv⟩ := nzcv_of_bits f.n f.z f.c f.v
  simp only [check_condition, nzcv_word, hn, hz, hc, hv]

/-- The condition tests are the orders of `a` and `b`, unsigned and signed. -/
structure Orders (holds : Byte → Prop) (a b : Word) : Prop where
  eq : holds 0#8 ↔ a = b
  ne : holds 1#8 ↔ a ≠ b
  hs : holds 2#8 ↔ a.toNat ≥ b.toNat
  lo : holds 3#8 ↔ a.toNat < b.toNat
  hi : holds 8#8 ↔ a.toNat > b.toNat
  ls : holds 9#8 ↔ a.toNat ≤ b.toNat
  ge : holds 10#8 ↔ a.toInt ≥ b.toInt
  lt : holds 11#8 ↔ a.toInt < b.toInt
  gt : holds 12#8 ↔ a.toInt > b.toInt
  le : holds 13#8 ↔ a.toInt ≤ b.toInt

/-- **Comparisons**: behind CMP the condition tests are the orders of the operands. -/
theorem cmp_orders (h : d.opcode = 0x30#8) :
    Orders (check_condition (execute_decoded g d).1.nzcv · = true) (g.1.x d.rn.toNat)
      (g.1.x d.rm.toNat) := by
  generalize ha : g.1.x d.rn.toNat = a
  generalize hb : g.1.x d.rm.toNat = b
  have hnzcv : (execute_decoded g d).1.nzcv = nzcv_word (.ofSub a b) := by
    rw [execute_cmp_nzcv h, ha, hb]
  have hz := A64.ofSub_z a b
  have hc := A64.ofSub_c a b
  have hnv := A64.ofSub_n_eq_v a b
  have hnat : a = b ↔ a.toNat = b.toNat := BitVec.toNat_inj.symm
  have hint : a = b ↔ a.toInt = b.toInt := BitVec.toInt_inj.symm
  rw [hnzcv]
  constructor <;>
    simp +decide only [check_condition_nzcv_word, if_true, if_false, Bool.not_eq_true',
      ← Bool.not_eq_true, Bool.and_eq_true, Bool.or_eq_true, beq_iff_eq, bne_iff_ne, ne_eq]
  case eq => exact hz
  case ne => exact not_congr hz
  case hs => exact hc
  case lo =>
    rw [hc]
    omega
  case hi =>
    rw [hc, hz, hnat]
    omega
  case ls =>
    rw [hc, hz, hnat]
    omega
  case ge => exact hnv
  case lt =>
    rw [hnv]
    omega
  case gt =>
    rw [hz, hnv, hint]
    omega
  case le =>
    rw [hz, hnv, hint]
    omega

/-- `cmp x1, x2` -/
def cmp_x1_x2 : DecodedInstr :=
  { DecodedInstr.cleared 0xEB02003F#32 with opcode := 0x30#8, rn := 1#8, rm := 2#8 }

/-- `x1` is the least signed integer, and `x2` is 1. -/
def least_guest : Guest :=
  ((CPUContext.zero.set_x 1 0x8000000000000000#64).set_x 2 1#64, .new fun _ => 0#8)

/-- The least signed integer is below 1, and above it as an unsigned one. -/
theorem cmp_orders_least :
    check_condition (execute_decoded least_guest cmp_x1_x2).1.nzcv 11#8 = true ∧
      check_condition (execute_decoded least_guest cmp_x1_x2).1.nzcv 8#8 = true := by
  have horders := cmp_orders (g := least_guest) (d := cmp_x1_x2) rfl
  exact ⟨horders.lt.mpr (by decide), horders.hi.mpr (by decide)⟩

end Orders

/-! ## Host conditions -/

section Host

variable {g : Guest} {d : DecodedInstr} {a b : Word}

/-- The host flags of a subtraction: CF is a borrow, C is none. -/
theorem host_condition_subFlags (a b : Word) {cond : Byte} (h : cond ≠ 14#8) :
    host_condition (subFlags a b) cond = check_condition (nzcv_word (.ofSub a b)) cond := by
  have hc : (!BitVec.usubOverflow a b) = decide (b.toNat ≤ a.toNat) := by
    rw [BitVec.usubOverflow, ← decide_not, decide_eq_decide, Nat.not_lt]
  rw [host_condition, if_neg h, nzcv_word]
  simp only [subFlags, A64.Nzcv.ofSub, hc]

/-- The lowest bit of a condition negates it. -/
theorem cond_xor_one (f : Flags) (cc : BitVec 4) : f.cond (cc ^^^ 1#4) = !f.cond cc := by
  have hx : (cc ^^^ 1#4).extractLsb' 1 3 = cc.extractLsb' 1 3 := by
    revert cc
    decide
  have hl : (cc ^^^ 1#4).getLsbD 0 = !cc.getLsbD 0 := by simp
  unfold Flags.cond
  rw [hx, hl]
  dsimp only
  generalize (if cc.extractLsb' 1 3 = 0#3 then f.of else _ : Bool) = v
  cases v <;> cases cc.getLsbD 0 <;> rfl

theorem invCc_eq (cond : Byte) : invCc cond = (x86_cc cond).setWidth 4 ^^^ 1#4 := by
  rw [invCc, BitVec.setWidth_xor]
  rfl

/-- **Conditions of a translated comparison**: the x86 condition that the lowering of JMP_COND picks,
on the flags of an x86 CMP, is the condition test on the flags of the interpreted CMP; the lowering
jumps on the code with the lowest bit flipped, which negates it. -/
theorem x86_cc_cmp (hop : d.opcode = 0x30#8) (ha : g.1.x d.rn.toNat = a) (hb : g.1.x d.rm.toNat = b)
    {cond : Byte} (hc : cond ≤ 13#8) (s : State) {p q : Reg} (hp : s.reg p = a) (hq : s.reg q = b) :
    let flags := (exec (.alu .cmp p q) s).flags
    let cc : BitVec 4 := (x86_cc cond).setWidth 4
    flags.cond cc = check_condition (execute_decoded g d).1.nzcv cond ∧
      flags.cond ((x86_cc cond ^^^ 1#8).setWidth 4) = !flags.cond cc := by
  intro flags cc
  have hflags : flags = subFlags a b := by
    rw [← hp, ← hq]
    rfl
  have hne : cond ≠ 14#8 := by
    rintro rfl
    exact absurd hc (by decide)
  have hinv := cond_invCc flags (BitVec.le_trans hc (by decide))
  rw [invCc_eq, cond_xor_one, Bool.not_inj_iff] at hinv
  constructor
  · rw [hinv, hflags, host_condition_subFlags a b hne, execute_cmp_nzcv hop, ha, hb]
  · rw [← cond_xor_one, ← invCc_eq]
    rfl

/-- LT between the least signed integer and 1. -/
theorem x86_cc_cmp_least :
    let s := (State.cleared.setReg rax 0x8000000000000000#64).setReg rcx 1#64
    let flags := (exec (.alu .cmp rax rcx) s).flags
    flags.cond ((x86_cc 11#8).setWidth 4) =
        check_condition (execute_decoded least_guest cmp_x1_x2).1.nzcv 11#8 ∧
      flags.cond ((x86_cc 11#8 ^^^ 1#8).setWidth 4) = !flags.cond ((x86_cc 11#8).setWidth 4) :=
  x86_cc_cmp rfl rfl rfl (by decide) _ rfl rfl

end Host

end ExecEngine

end Bbarm64
