import Bbarm64.A64.Isa

/-!
# A64.Immediate — the words of data processing with an immediate

ADD and SUB, the wide moves MOVN, MOVZ and MOVK, the shifts among SBFM and UBFM, LDR (literal), and ADR
and ADRP, with their operands read from a word.  A result is given over any width, so that the 32-bit form
(`Narrow.value`) is the result on the low half, extended with zeros.  A `constant` is what a list of
wide moves builds, halfword by halfword.
-/

namespace A64

/-! ## ADD and SUB -/

/-- ADD, ADDS, SUB and SUBS. -/
structure AddSubImm where
  sf : Bool
  sub : Bool
  setsFlags : Bool
  /-- Is the immediate shifted left by 12? -/
  sh : Bool
  imm12 : BitVec 12
  rn : BitVec 5
  rd : BitVec 5
  deriving DecidableEq, Repr

/-- The instruction of a word; bit 23 is clear. -/
def AddSubImm.ofWord? (w : BitVec 32) : Option AddSubImm :=
  if w.extractLsb' 23 6 = 0b100010#6 then
    some ⟨w.getLsbD 31, w.getLsbD 30, w.getLsbD 29, w.getLsbD 22, w.extractLsb' 10 12,
      w.extractLsb' 5 5, w.extractLsb' 0 5⟩
  else none

def AddSubImm.imm (f : AddSubImm) : Word :=
  if f.sh then f.imm12.setWidth 64 <<< 12 else f.imm12.setWidth 64

def AddSubImm.result (f : AddSubImm) {n : ℕ} (x : BitVec n) : BitVec n :=
  if f.sub then x - f.imm.setWidth n else x + f.imm.setWidth n

/-- `subs w1, w2, #3, lsl #12` -/
example : AddSubImm.ofWord? 0x71400C41#32 = some ⟨false, true, true, true, 3#12, 2#5, 1#5⟩ := by decide

/-! ## Wide moves -/

inductive MoveOp where
  | movn | movz | movk
  deriving DecidableEq, Repr

/-- By bits 30:29. -/
def MoveOp.ofBits? (opc : BitVec 2) : Option MoveOp :=
  if opc = 0b00#2 then some .movn else if opc = 0b10#2 then some .movz
  else if opc = 0b11#2 then some .movk else none

structure MoveWide where
  sf : Bool
  op : MoveOp
  hw : BitVec 2
  imm16 : BitVec 16
  rd : BitVec 5
  deriving DecidableEq, Repr

/-- The instruction of a word; a 32-bit form has two halfwords only. -/
def MoveWide.ofWord? (w : BitVec 32) : Option MoveWide :=
  if w.extractLsb' 23 6 = 0b100101#6 ∧ ¬ (w.getLsbD 31 = false ∧ w.getLsbD 22 = true) then
    (MoveOp.ofBits? (w.extractLsb' 29 2)).map fun op =>
      ⟨w.getLsbD 31, op, w.extractLsb' 21 2, w.extractLsb' 5 16, w.extractLsb' 0 5⟩
  else none

/-- The position of the immediate. -/
def MoveWide.pos (f : MoveWide) : ℕ := 16 * f.hw.toNat

/-- MOVK keeps the bits of `x` outside its halfword. -/
def MoveWide.result (f : MoveWide) {n : ℕ} (x : BitVec n) : BitVec n :=
  let v := f.imm16.setWidth n <<< f.pos
  match f.op with
  | .movn => ~~~v
  | .movz => v
  | .movk => (x &&& ~~~((0xFFFF#16).setWidth n <<< f.pos)) ||| v

/-- `movk x3, #0x1234, lsl #32` -/
example : MoveWide.ofWord? 0xF2C24683#32 = some ⟨true, .movk, 2#2, 0x1234#16, 3#5⟩ := by decide

/-! ### Constants -/

/-- Halfword `j` of a register. -/
def halfword (x : Word) (j : BitVec 2) : BitVec 16 := x.extractLsb' (16 * j.toNat) 16

theorem eq_iff_halfword {x y : Word} : x = y ↔ ∀ j, halfword x j = halfword y j := by
  refine ⟨fun h j => by rw [h], fun h => BitVec.eq_of_getLsbD_eq fun i hi => ?_⟩
  have hj : (BitVec.ofNat 2 (i / 16)).toNat = i / 16 := by
    rw [BitVec.toNat_ofNat]
    omega
  have hbit := congrArg (fun v => BitVec.getLsbD v (i % 16)) (h (BitVec.ofNat 2 (i / 16)))
  have he : 16 * (i / 16) + i % 16 = i := by omega
  have hlt : i % 16 < 16 := by omega
  simpa only [halfword, hj, BitVec.getLsbD_extractLsb', hlt, decide_true, Bool.true_and, he] using hbit

theorem halfword_shift (v : BitVec 16) (n j : BitVec 2) :
    halfword (v.setWidth 64 <<< (16 * n.toNat)) j = if j = n then v else 0#16 := by
  have hj := j.isLt
  refine BitVec.eq_of_getLsbD_eq fun i hi => ?_
  have hlt : 16 * j.toNat + i < 64 := by omega
  split_ifs with he
  · subst he
    simp [halfword, hi, hlt]
  · have hne : j.toNat ≠ n.toNat := fun h => he (BitVec.eq_of_toNat_eq h)
    by_cases hjn : j.toNat < n.toNat
    · simp [halfword, hi, hlt, show 16 * j.toNat + i < 16 * n.toNat by omega]
    · have hge : 16 ≤ 16 * j.toNat + i - 16 * n.toNat := by omega
      simp [halfword, hi, hlt, BitVec.getLsbD_of_ge v _ hge]

/-- What a move puts into its halfword and, MOVK apart, into the others. -/
theorem MoveWide.halfword_result (f : MoveWide) (x : Word) (j : BitVec 2) :
    halfword (f.result x) j = match f.op with
      | .movn => ~~~(if j = f.hw then f.imm16 else 0#16)
      | .movz => if j = f.hw then f.imm16 else 0#16
      | .movk => if j = f.hw then f.imm16 else halfword x j := by
  have hv := halfword_shift f.imm16 f.hw j
  have hmask := halfword_shift 0xFFFF#16 f.hw j
  have hnot : ∀ y : Word, halfword (~~~y) j = ~~~halfword y j := by
    intro y
    have hj := j.isLt
    refine BitVec.eq_of_getLsbD_eq fun i hi => ?_
    simp [halfword, hi, show 16 * j.toNat + i < 64 by omega]
  have hall : ~~~0xFFFF#16 = 0#16 := by decide
  unfold MoveWide.result MoveWide.pos
  cases f.op with
  | movn => rw [hnot, hv]
  | movz => exact hv
  | movk =>
    rw [halfword, BitVec.extractLsb'_or, BitVec.extractLsb'_and]
    show halfword x j &&& halfword (~~~_) j ||| halfword _ j = _
    rw [hnot, hv, hmask]
    split_ifs
    · rw [hall, BitVec.and_zero, BitVec.zero_or]
    · rw [BitVec.not_zero, BitVec.and_allOnes, BitVec.or_zero]

/-- The constant that the moves build. -/
def constant (fs : List MoveWide) : Word := fs.foldl (fun x f => f.result x) 0#64

/-- `movz x1, #1` and `movk x1, #2, lsl #16` -/
example : constant [⟨true, .movz, 0#2, 1#16, 1#5⟩, ⟨true, .movk, 1#2, 2#16, 1#5⟩] = 0x20001#64 := by
  decide

/-- MOVZ or MOVN, and then MOVK, all to one register. -/
structure MoveSeq (rd : BitVec 5) (f : MoveWide) (ks : List MoveWide) : Prop where
  sf : ∀ k ∈ f :: ks, k.sf = true
  rd : ∀ k ∈ f :: ks, k.rd = rd
  op : f.op ≠ .movk
  movk : ∀ k ∈ ks, k.op = .movk

/-- Halfword `j` of the constant: the last MOVK to it decides, or else the first move. -/
def constantHalfword (f : MoveWide) (ks : List MoveWide) (j : BitVec 2) : BitVec 16 :=
  ks.foldl (fun v k => if j = k.hw then k.imm16 else v) (halfword (f.result 0#64) j)

theorem halfword_foldl_movk {ks : List MoveWide} (hks : ∀ k ∈ ks, k.op = .movk) (x : Word)
    (j : BitVec 2) : halfword (ks.foldl (fun x k => k.result x) x) j =
      ks.foldl (fun v k => if j = k.hw then k.imm16 else v) (halfword x j) := by
  induction ks generalizing x with
  | nil => rfl
  | cons k ks ih =>
    rw [List.foldl_cons, List.foldl_cons, ih fun k' hk' => hks k' (List.mem_cons_of_mem _ hk'),
      k.halfword_result, hks k List.mem_cons_self]

/-- Writes to a slot: the result does not depend on what was there exactly if there is one. -/
theorem foldl_slot_eq_iff {α β γ : Type} [DecidableEq β] (hw : α → β) (v : α → γ) (j : β)
    (ks : List α) (a b : γ) :
    ks.foldl (fun c k => if j = hw k then v k else c) a =
        ks.foldl (fun c k => if j = hw k then v k else c) b ↔ a = b ∨ ∃ k ∈ ks, hw k = j := by
  induction ks generalizing a b with
  | nil => simp
  | cons k ks ih =>
    rw [List.foldl_cons, List.foldl_cons, ih]
    by_cases hk : j = hw k
    · simp [hk]
    · simp [hk, Ne.symm hk]

/-- MOVKs from `x` and from `y`. -/
theorem foldl_movk_eq_iff {ks : List MoveWide} (hks : ∀ k ∈ ks, k.op = .movk) {x y : Word} :
    ks.foldl (fun x k => k.result x) x = ks.foldl (fun x k => k.result x) y ↔
      ∀ j, halfword x j = halfword y j ∨ ∃ k ∈ ks, k.hw = j := by
  rw [eq_iff_halfword]
  refine forall_congr' fun j => ?_
  rw [halfword_foldl_movk hks, halfword_foldl_movk hks]
  exact foldl_slot_eq_iff MoveWide.hw MoveWide.imm16 j ks _ _

/-! ## Shifts -/

inductive ShiftKind where
  | lsl | lsr | asr
  deriving DecidableEq, Repr

/-- LSL, LSR and ASR by an immediate. -/
structure ShiftImm where
  sf : Bool
  kind : ShiftKind
  amount : BitVec 6
  rn : BitVec 5
  rd : BitVec 5
  deriving DecidableEq, Repr

/-- UBFM and SBFM up to the last bit shift to the right; UBFM with `immr = imms + 1` to the left. -/
def ShiftImm.ofWord? (w : BitVec 32) : Option ShiftImm :=
  let sf := w.getLsbD 31
  let opc := w.extractLsb' 29 2
  let immr := w.extractLsb' 16 6
  let imms := w.extractLsb' 10 6
  let last : BitVec 6 := if sf then 63#6 else 31#6
  let shift (kind : ShiftKind) (amount : BitVec 6) : ShiftImm :=
    ⟨sf, kind, amount, w.extractLsb' 5 5, w.extractLsb' 0 5⟩
  if w.extractLsb' 23 6 = 0b100110#6 ∧ w.getLsbD 22 = sf ∧ immr ≤ last ∧ imms ≤ last then
    if opc = 0b00#2 ∧ imms = last then some (shift .asr immr)
    else if opc = 0b10#2 ∧ imms = last then some (shift .lsr immr)
    else if opc = 0b10#2 ∧ imms + 1#6 = immr then some (shift .lsl (last - imms))
    else none
  else none

def ShiftImm.result (f : ShiftImm) {n : ℕ} (x : BitVec n) : BitVec n :=
  match f.kind with
  | .lsl => x <<< f.amount.toNat
  | .lsr => x >>> f.amount.toNat
  | .asr => x.sshiftRight f.amount.toNat

/-- `lsl w1, w2, #3` -/
example : ShiftImm.ofWord? 0x531D7041#32 = some ⟨false, .lsl, 3#6, 2#5, 1#5⟩ := by decide

/-! ## 32-bit forms -/

/-- ADD and SUB without flags, a move other than MOVK, and the shifts. -/
inductive Narrow where
  | addSub (f : AddSubImm)
  | move (f : MoveWide)
  | shift (f : ShiftImm)
  deriving DecidableEq, Repr

/-- `w` is the 32-bit form of the instruction; MOVZ is one without a shift. -/
def Narrow.OfWord (w : BitVec 32) : Narrow → Prop
  | addSub f => AddSubImm.ofWord? w = some f ∧ f.sf = false ∧ f.setsFlags = false
  | move f => MoveWide.ofWord? w = some f ∧ f.sf = false ∧
      (f.op = .movn ∨ f.op = .movz ∧ f.hw = 0#2)
  | shift f => ShiftImm.ofWord? w = some f ∧ f.sf = false

instance (w : BitVec 32) : (i : Narrow) → Decidable (i.OfWord w)
  | .addSub _ => inferInstanceAs (Decidable (_ ∧ _))
  | .move _ => inferInstanceAs (Decidable (_ ∧ _))
  | .shift _ => inferInstanceAs (Decidable (_ ∧ _))

def Narrow.rd : Narrow → BitVec 5
  | addSub f => f.rd
  | move f => f.rd
  | shift f => f.rd

/-- The source register; a move has none. -/
def Narrow.rn : Narrow → BitVec 5
  | addSub f => f.rn
  | move f => f.rd
  | shift f => f.rn

/-- The result on the low half of `x`, extended with zeros. -/
def Narrow.value (i : Narrow) (x : Word) : Word :=
  BitVec.setWidth 64 <| match i with
    | addSub f => f.result (x.setWidth 32)
    | move f => f.result (x.setWidth 32)
    | shift f => f.result (x.setWidth 32)

/-- `sub w1, w2, #1` of zero -/
example : Narrow.value (.addSub ⟨false, true, false, false, 1#12, 2#5, 1#5⟩) 0#64 = 0xFFFFFFFF#64 := by
  decide

theorem eq_setWidth_setWidth_iff (y : Word) : y = (y.setWidth 32).setWidth 64 ↔ y.toNat < 2 ^ 32 := by
  have hy := y.isLt
  rw [← BitVec.toNat_inj]
  simp only [BitVec.toNat_setWidth]
  omega

theorem AddSubImm.imm_lt (f : AddSubImm) : f.imm.toNat < 2 ^ 24 := by
  have h := f.imm12.isLt
  unfold AddSubImm.imm
  split_ifs <;> simp only [BitVec.toNat_shiftLeft, BitVec.toNat_setWidth, Nat.shiftLeft_eq] <;> omega

/-- The low half of the result comes from the low half of the source. -/
theorem AddSubImm.setWidth_result (f : AddSubImm) (x : Word) :
    (f.result x).setWidth 32 = f.result (x.setWidth 32) := by
  have himm := f.imm.isLt
  unfold AddSubImm.result
  apply BitVec.eq_of_toNat_eq
  split_ifs <;> simp only [BitVec.toNat_setWidth, BitVec.toNat_sub, BitVec.toNat_add] <;> omega

/-- The 64-bit result is the 32-bit one, extended, unless it has a carry or a borrow. -/
theorem AddSubImm.result_eq_value_iff (f : AddSubImm) (x : Word) :
    f.result x = Narrow.value (.addSub f) x ↔
      if f.sub then f.imm.toNat ≤ x.toNat ∧ x.toNat < f.imm.toNat + 2 ^ 32
      else x.toNat + f.imm.toNat < 2 ^ 32 ∨ 2 ^ 64 ≤ x.toNat + f.imm.toNat := by
  have hx := x.isLt
  have himm := f.imm_lt
  have hv : Narrow.value (.addSub f) x = ((f.result x).setWidth 32).setWidth 64 := by
    rw [f.setWidth_result]
    rfl
  rw [hv, eq_setWidth_setWidth_iff, AddSubImm.result, BitVec.setWidth_eq]
  split_ifs
  · rw [BitVec.toNat_sub]
    omega
  · rw [BitVec.toNat_add]
    omega

theorem MoveWide.hw_le {w : BitVec 32} {f : MoveWide} (h : ofWord? w = some f) (hsf : f.sf = false) :
    f.hw.toNat ≤ 1 := by
  unfold ofWord? at h
  split_ifs at h with hc
  obtain ⟨op, -, rfl⟩ := Option.map_eq_some_iff.mp h
  have h22 : w.getLsbD 22 = false := by
    cases h22 : w.getLsbD 22 with
    | false => rfl
    | true => exact absurd ⟨hsf, h22⟩ hc.2
  rw [← Bool.not_eq_true, BitVec.getLsbD, Nat.testBit_eq_decide_div_mod_eq, decide_eq_true_eq] at h22
  show (w.extractLsb' 21 2).toNat ≤ 1
  rw [BitVec.extractLsb'_toNat, Nat.shiftRight_eq_div_pow]
  omega

/-- MOVN sets bit 63 of a 64-bit result. -/
theorem MoveWide.movn_ne_value {w : BitVec 32} {f : MoveWide} (h : ofWord? w = some f)
    (hsf : f.sf = false) (hop : f.op = .movn) (x : Word) :
    f.result x ≠ Narrow.value (.move f) x := by
  intro he
  have hpos := hw_le h hsf
  have hbit := congrArg (fun v => BitVec.getLsbD v 63) he
  have hge : f.imm16.getLsbD (63 - 16 * f.hw.toNat) = false :=
    BitVec.getLsbD_of_ge _ _ (by omega)
  simp [Narrow.value, MoveWide.result, MoveWide.pos, hop, hge] at hbit

/-! ## LDR (literal) -/

/-- LDR of a 64-bit register. -/
structure LoadLiteral where
  rt : BitVec 5
  imm19 : BitVec 19
  deriving DecidableEq, Repr

def LoadLiteral.ofWord? (w : BitVec 32) : Option LoadLiteral :=
  if w.extractLsb' 24 8 = 0b01011000#8 then some ⟨w.extractLsb' 0 5, w.extractLsb' 5 19⟩ else none

def LoadLiteral.address (f : LoadLiteral) (pc : Word) : Word := pc + 4#64 * f.imm19.signExtend 64

/-- `ldr x1, .-4` -/
example : LoadLiteral.ofWord? 0x58FFFFE1#32 = some ⟨1#5, 0x7FFFF#19⟩ := by decide

/-! ## ADR and ADRP -/

structure PcRel where
  /-- ADRP counts pages of 4096 bytes. -/
  page : Bool
  /-- `immhi:immlo` -/
  imm21 : BitVec 21
  rd : BitVec 5
  deriving DecidableEq, Repr

def PcRel.ofWord? (w : BitVec 32) : Option PcRel :=
  if w.extractLsb' 24 5 = 0b10000#5 then
    some ⟨w.getLsbD 31, w.extractLsb' 5 19 ++ w.extractLsb' 29 2, w.extractLsb' 0 5⟩
  else none

def PcRel.address (f : PcRel) (pc : Word) : Word :=
  if f.page then (pc &&& ~~~0xFFF#64) + f.imm21.signExtend 64 * 4096#64
  else pc + f.imm21.signExtend 64

/-- `adr x1, .-1` -/
example : PcRel.ofWord? 0x70FFFFE1#32 = some ⟨false, -1#21, 1#5⟩ := by decide

end A64
