import Bbarm64.Decoder.Forms
import Bbarm64.X86.Codec

/-!
# Decoder.DecodeFacts — what a successful decode returns

`WellDecoded` collects the bounds on the fields and the opcodes that the later passes rely on;
`decode?_wellDecoded` proves them of every word the decoder accepts, form by form.
-/

namespace Bbarm64

open X86

namespace ARM64Decoder

/-! ## The record -/

/-- A register field: a number below 32. -/
def IsArm (r : Byte) : Prop := r.toNat < 32

instance (r : Byte) : Decidable (IsArm r) := inferInstanceAs (Decidable (_ < _))

/-- A register number of an A64 word in a record. -/
theorem toNat_setWidth_arm (r : BitVec 5) : (r.setWidth 8).toNat = r.toNat := by
  have hlt := r.isLt
  rw [BitVec.toNat_setWidth, Nat.mod_eq_of_lt (by omega)]

theorem isArm_setWidth (r : BitVec 5) : IsArm (r.setWidth 8) := by
  rw [IsArm, toNat_setWidth_arm]
  exact r.isLt

theorem isArm_of_le {r : Byte} (h : r ≤ 30#8) : IsArm r := Nat.lt_of_le_of_lt h (by decide)

/-- The branch opcodes: B, BL, BR, RET, B.cond, CBZ, CBNZ, TBZ, TBNZ. -/
def IsBranch (op : Byte) : Prop := 0x50#8 ≤ op ∧ op ≤ 0x58#8

instance (op : Byte) : Decidable (IsBranch op) := inferInstanceAs (Decidable (_ ∧ _))

/-- The opcodes whose IR reads the `rm` field as a register in every case. -/
def ReadsRm (op : Byte) : Prop :=
  op = 0x20#8 ∨ op = 0x30#8 ∨ op = 0x31#8 ∨ op = 0x80#8 ∨ op = 0x81#8

instance (op : Byte) : Decidable (ReadsRm op) := inferInstanceAs (Decidable (_ ∨ _))

/-- An opcode below `0x96` and a category that is not SYSCALL (no system call, no vector form), and
not CSEL; the branch opcodes go with the branch categories. -/
def Fits (cat : InstrCategory) (op : Byte) : Prop :=
  op ≤ 0x95#8 ∧ op ≠ 0x40#8 ∧ (IsBranch op ↔ cat = .BRANCH ∨ cat = .BRANCH_COND) ∧ cat ≠ .SYSCALL

instance (cat : InstrCategory) (op : Byte) : Decidable (Fits cat op) :=
  inferInstanceAs (Decidable (_ ∧ _))

/-- What the later passes rely on. -/
structure WellDecoded (d : DecodedInstr) : Prop where
  fits : Fits d.category d.opcode
  rd : IsArm d.rd
  rn : IsArm d.rn
  rt : IsArm d.rt
  rm : IsArm d.rm ∨ d.rm = 0xFF#8 ∧ ¬ ReadsRm d.opcode
  /-- The immediate of ADD and SUB. -/
  imm : d.rm = 0xFF#8 → d.opcode = 0x00#8 ∨ d.opcode = 0x01#8 → d.imm ≤ 0xFFF000#64

theorem WellDecoded.of_reg {d : DecodedInstr} (hf : Fits d.category d.opcode) (hrd : IsArm d.rd)
    (hrn : IsArm d.rn) (hrt : IsArm d.rt) (hrm : IsArm d.rm) : WellDecoded d := by
  refine ⟨hf, hrd, hrn, hrt, .inl hrm, fun h => ?_⟩
  rw [h] at hrm
  exact absurd hrm (by decide)

/-- A record no category decoder has filled in. -/
structure Blank (out : DecodedInstr) : Prop where
  opcode : out.opcode = 0x00#8
  rd : out.rd = 0x00#8
  rn : out.rn = 0x00#8
  rm : out.rm = 0x00#8
  rt : out.rt = 0x00#8

/-- A category decoder's answer on a blank record: well decoded, or blank again. -/
def Sound (r : Bool × DecodedInstr) : Prop :=
  (r.1 = true → WellDecoded r.2) ∧ (r.1 = false → Blank r.2)

section Fields

variable (w : BitVec 32)

theorem isArm_bits8 {hi lo : ℕ} (h : hi - lo + 1 ≤ 5) : IsArm (bits8 w hi lo) := by
  have h1 : (bits8 w hi lo).toNat < _ := bits8_lt w rfl (by omega)
  have h2 : 2 ^ (hi - lo + 1) ≤ 2 ^ 5 := Nat.pow_le_pow_right (by decide) h
  exact Nat.lt_of_lt_of_le h1 h2

theorem isArm_31 : IsArm 31#8 := by decide

theorem isArm_30 : IsArm 30#8 := by decide

theorem isArm_rd : IsArm (bits8 w 4 0) := isArm_bits8 w (by decide)

theorem isArm_rn : IsArm (bits8 w 9 5) := isArm_bits8 w (by decide)

theorem isArm_rm : IsArm (bits8 w 20 16) := isArm_bits8 w (by decide)

theorem imm12_le : imm12 w ≤ 0xFFF000#64 := by
  have h1 : (bits w 21 10).toNat < _ := bits_lt w (by decide)
  rw [BitVec.le_def, imm12]
  split_ifs
  · simp only [BitVec.toNat_shiftLeft, BitVec.toNat_setWidth, Nat.shiftLeft_eq, BitVec.toNat_ofNat]
    omega
  · simp only [BitVec.toNat_setWidth, BitVec.toNat_ofNat]
    omega

end Fields

section Found

variable {w : BitVec 32} {out d : DecodedInstr}

theorem Fresh.blank (h : Fresh w out) : Blank out := by
  obtain ⟨size, rfl⟩ := h
  exact ⟨rfl, rfl, rfl, rfl, rfl⟩

/-- What is checked along a list holds of its members. -/
theorem of_all {α : Type} {P : α → Prop} [DecidablePred P] {l : List α} {a : α} (ha : a ∈ l)
    (h : (l.all fun x => decide (P x)) = true) : P a :=
  of_decide_eq_true (List.all_eq_true.mp h a ha)

/-- The opcodes of the loads and stores of one register. -/
def ldst_opcodes : List Byte := [0x60#8, 0x61#8, 0x62#8, 0x63#8, 0x70#8, 0x71#8, 0x72#8, 0x73#8]

theorem ldst_opcode_mem (b : Bool) (opc : BitVec 32) : ldst_opcode b opc ∈ ldst_opcodes := by
  unfold ldst_opcode
  split_ifs <;> decide

/-- The bounds, form by form; a field that the form leaves alone is zero. -/
theorem Found.wellDecoded (hout : Blank out) (h : Found w out d) : WellDecoded d := by
  have hfree : IsArm out.rd ∧ IsArm out.rn ∧ IsArm out.rm ∧ IsArm out.rt := by
    rw [hout.rd, hout.rn, hout.rm, hout.rt]
    decide
  obtain ⟨hrd₀, hrn₀, hrm₀, hrt₀⟩ := hfree
  have hrd := isArm_rd w
  have hrn := isArm_rn w
  have hrm := isArm_rm w
  obtain ⟨hf, hr, ha⟩ := of_all (P := fun o => Fits .LOAD_STORE o ∧ ¬ ReadsRm o ∧
    ¬ (o = 0x00#8 ∨ o = 0x01#8)) (ldst_opcode_mem (bits w 22 22 != 0#32) (bits w 31 30)) (by decide)
  cases h with
  | shifted hop => exact .of_reg (of_all (P := fun p => Fits p.1 p.2) hop (by decide)) hrd hrn hrt₀ hrm
  | add_sub hop =>
    exact ⟨of_all (P := Fits .INTEGER_ARITH) hop (by decide), hrd, hrn, hrt₀,
      .inr ⟨rfl, of_all (P := fun o => ¬ ReadsRm o) hop (by decide)⟩, fun _ _ => imm12_le w⟩
  | bitfield hop =>
    have hne := of_all (P := fun o => ¬ (o = 0x00#8 ∨ o = 0x01#8)) hop (by decide)
    exact ⟨of_all (P := Fits .INTEGER_ARITH) hop (by decide), hrd, hrn, hrt₀,
      .inr ⟨rfl, of_all (P := fun o => ¬ ReadsRm o) hop (by decide)⟩, fun _ h => absurd h hne⟩
  | move_wide hop =>
    rw [hout.opcode] at hop
    exact .of_reg (of_all (P := Fits .MOVE) hop (by decide)) hrd hrn₀ hrt₀ hrm₀
  | branch hop => exact .of_reg (of_all (P := Fits .BRANCH) hop (by decide)) hrd₀ hrn₀ hrt₀ hrm₀
  | reg_branch hw hop =>
    rcases hop with ⟨-, rfl, rfl⟩ | ⟨rfl, rfl⟩
    · exact .of_reg (show Fits .BRANCH 0x53#8 by decide) hrd₀ isArm_30 hrt₀ hrm₀
    · exact .of_reg (show Fits .BRANCH 0x52#8 by decide) hrd₀ hrn hrt₀ hrm₀
  | cond_branch => exact .of_reg (show Fits .BRANCH_COND 0x54#8 by decide) hrd₀ hrn₀ hrt₀ hrm₀
  | compare_branch hop =>
    exact .of_reg (of_all (P := Fits .BRANCH_COND) hop (by decide)) hrd₀ hrn hrt₀ hrm₀
  | test_branch hop =>
    exact .of_reg (of_all (P := Fits .BRANCH_COND) hop (by decide)) hrd₀ hrd hrt₀ hrm₀
  | access_unsigned => exact .of_reg hf hrd₀ hrn hrd hrm₀
  | access_reg => exact .of_reg hf hrd₀ hrn hrd hrm
  | access_indexed => exact ⟨hf, hrd₀, hrn, hrd, .inr ⟨rfl, hr⟩, fun _ h => absurd h ha⟩
  | nop => exact .of_reg (show Fits .SYSTEM 0x90#8 by decide) hrd₀ hrn₀ hrt₀ hrm₀
  | system hop => exact .of_reg (of_all (P := Fits .SYSTEM) hop (by decide)) hrd hrn₀ hrt₀ hrm₀
  | address hop => exact .of_reg (of_all (P := Fits .MOVE) hop (by decide)) hrd hrn₀ hrt₀ hrm₀
  | literal hop =>
    rw [hout.opcode] at hop
    exact .of_reg (of_all (P := fun p => Fits p.1 p.2) hop (by decide)) hrd₀ isArm_31 hrd hrm₀

/-- A form keeps the word. -/
theorem Found.raw (h : Found w out d) : d.raw = out.raw := by
  cases h <;> rfl

/-- The opcodes of the forms other than BR and RET. -/
def form_opcodes : List Byte :=
  [0x00#8, 0x01#8, 0x04#8, 0x05#8, 0x06#8, 0x07#8, 0x08#8, 0x10#8, 0x11#8, 0x12#8, 0x13#8, 0x14#8,
    0x15#8, 0x16#8, 0x17#8, 0x21#8, 0x22#8, 0x23#8, 0x24#8, 0x25#8, 0x50#8, 0x51#8, 0x54#8, 0x55#8,
    0x56#8, 0x57#8, 0x58#8, 0x60#8, 0x61#8, 0x62#8, 0x63#8, 0x70#8, 0x71#8, 0x72#8, 0x73#8, 0x90#8,
    0x91#8, 0x92#8, 0x93#8, 0x94#8, 0x95#8]

theorem Found.opcode_mem (hout : Blank out) (h : Found w out d) :
    d.opcode ∈ form_opcodes ∨ IsRegBranchTest w ∧ d.opcode ∈ [0x52#8, 0x53#8] := by
  cases h with
  | reg_branch hw hop =>
    refine .inr ⟨hw, ?_⟩
    rcases hop with ⟨-, rfl, -⟩ | ⟨rfl, -⟩
    · exact List.mem_cons_of_mem _ List.mem_cons_self
    · exact List.mem_cons_self
  | shifted hop => exact .inl (of_all (P := fun p => p.2 ∈ form_opcodes) hop (by decide))
  | move_wide hop =>
    rw [hout.opcode] at hop
    exact .inl (of_all (P := (· ∈ form_opcodes)) hop (by decide))
  | literal hop =>
    rw [hout.opcode] at hop
    exact .inl (of_all (P := fun p => p.2 ∈ form_opcodes) hop (by decide))
  | access_unsigned | access_reg | access_indexed =>
    exact .inl (of_all (P := (· ∈ form_opcodes)) (ldst_opcode_mem _ _) (by decide))
  | cond_branch => exact .inl (by decide : 0x54#8 ∈ form_opcodes)
  | nop => exact .inl (by decide : 0x90#8 ∈ form_opcodes)
  | add_sub hop | bitfield hop | branch hop | compare_branch hop | test_branch hop | system hop
  | address hop => exact .inl (of_all (P := (· ∈ form_opcodes)) hop (by decide))

/-- Opcodes of the two engines that no form has: MOV, CMP, TST, CSEL, LDP and STP. -/
def unreached_opcodes : List Byte := [0x20#8, 0x30#8, 0x31#8, 0x40#8, 0x80#8, 0x81#8]

theorem Found.opcode_notMem (hout : Blank out) (h : Found w out d) :
    d.opcode ∉ unreached_opcodes := by
  rcases h.opcode_mem hout with hop | ⟨-, hop⟩
  · exact of_all (P := (· ∉ unreached_opcodes)) hop (by decide)
  · exact of_all (P := (· ∉ unreached_opcodes)) hop (by decide)

/-- AND, ORR and EOR come from no form without an `rm`. -/
theorem Found.isArm_rm_of_logical (hout : Blank out) (h : Found w out d)
    (hop : d.opcode ∈ [0x10#8, 0x12#8, 0x14#8]) : IsArm d.rm := by
  cases h with
  | shifted | access_reg => exact isArm_rm w
  | add_sub ho | bitfield ho =>
    exact absurd hop (of_all (P := (· ∉ [0x10#8, 0x12#8, 0x14#8])) ho (by decide))
  | access_indexed =>
    exact absurd hop (of_all (P := (· ∉ [0x10#8, 0x12#8, 0x14#8])) (ldst_opcode_mem _ _) (by decide))
  | _ =>
    show IsArm out.rm
    rw [hout.rm]
    decide

end Found

/-! ## Every word -/

section Decode

variable (w : BitVec 32)

theorem sound_decode : Sound (decode w) := by
  obtain ⟨out, hout, ha⟩ := decode_answered w
  have hb := hout.blank
  generalize decode w = r at ha
  cases ha with
  | found h => exact ⟨fun _ => h.wellDecoded hb, nofun⟩
  | unknown size => exact ⟨nofun, fun _ => ⟨hb.opcode, hb.rd, hb.rn, hb.rm, hb.rt⟩⟩

/-- The answer has the word of the record it started with. -/
def KeepsRaw (out : DecodedInstr) (r : Bool × DecodedInstr) : Prop := r.2.raw = out.raw

theorem keepsRaw_decode : KeepsRaw (.cleared w) (decode w) := by
  obtain ⟨out, ⟨size, rfl⟩, ha⟩ := decode_answered w
  generalize decode w = r at ha
  cases ha with
  | found h => exact h.raw
  | unknown size => rfl

/-- The answer has the opcode of a register move only if the record had it before. -/
def NoMove (out : DecodedInstr) (r : Bool × DecodedInstr) : Prop :=
  out.opcode ≠ 0x20#8 → r.2.opcode ≠ 0x20#8

/-- The MOV route of `decode_data_proc_reg` is out of reach. -/
theorem noMove_decode : NoMove (.cleared w) (decode w) := by
  obtain ⟨out, hout, ha⟩ := decode_answered w
  intro _
  generalize decode w = r at ha
  cases ha with
  | found h =>
    intro he
    exact absurd (h.opcode_notMem hout.blank) (not_not.mpr (by rw [he]; decide))
  | unknown size =>
    show out.opcode ≠ 0x20#8
    rw [hout.blank.opcode]
    decide

end Decode

theorem decode?_opcode_ne_move {w : BitVec 32} {d : DecodedInstr} (h : decode? w = some d) :
    d.opcode ≠ 0x20#8 := by
  unfold decode? at h
  split_ifs at h
  rw [← Option.some.inj h]
  exact noMove_decode w (by decide : 0x00#8 ≠ 0x20#8)

theorem decode?_raw {w : BitVec 32} {d : DecodedInstr} (h : decode? w = some d) : d.raw = w := by
  unfold decode? at h
  split_ifs at h
  rw [← Option.some.inj h]
  exact keepsRaw_decode w

/-- **Every accepted word** gives a record within the bounds of `WellDecoded`. -/
theorem decode?_wellDecoded {w : BitVec 32} {d : DecodedInstr} (h : decode? w = some d) :
    WellDecoded d := by
  unfold decode? at h
  split_ifs at h with hw
  rw [← Option.some.inj h]
  exact (sound_decode w).1 hw

theorem wellDecoded_of_decoded {ds : List DecodedInstr} (h : ∀ d ∈ ds, ∃ w, decode? w = some d) :
    ∀ d ∈ ds, WellDecoded d := by
  intro d hd
  obtain ⟨w, hw⟩ := h d hd
  exact decode?_wellDecoded hw

end ARM64Decoder

end Bbarm64
