import Bbarm64.Decoder.Decode

/-!
# Decoder.Forms — the answers of the decoder, form by form

`Found w out d` lists the records `d` that the category decoders make of the record `out`, as far as
the routes reach them.  A category decoder that does not know the word leaves its category and its
size behind, so `decode` gives one of these forms on a `Fresh` record, or `unknown`
(`decode_answered`).  What holds of all accepted words follows form by form.
-/

namespace Bbarm64

open X86

namespace ARM64Decoder

/-! ## Bit ranges -/

theorem bits_toNat (w : BitVec 32) {hi lo : ℕ} (h : hi - lo + 1 < 32) :
    (bits w hi lo).toNat = w.toNat / 2 ^ lo % 2 ^ (hi - lo + 1) := by
  have hlt : 2 ^ (hi - lo + 1) < 2 ^ 32 := Nat.pow_lt_pow_right (by decide) h
  have hpos : 0 < 2 ^ (hi - lo + 1) := Nat.two_pow_pos _
  have hm : ((1#32 <<< (hi - lo + 1)) - 1#32).toNat = 2 ^ (hi - lo + 1) - 1 := by
    simp only [BitVec.toNat_sub, BitVec.toNat_shiftLeft, BitVec.toNat_ofNat, Nat.shiftLeft_eq]
    omega
  rw [bits, BitVec.toNat_and, hm, BitVec.toNat_ushiftRight, Nat.shiftRight_eq_div_pow,
    Nat.and_two_pow_sub_one_eq_mod]

theorem bits_lt (w : BitVec 32) {hi lo : ℕ} (h : hi - lo + 1 < 32) :
    (bits w hi lo).toNat < 2 ^ (hi - lo + 1) := by
  rw [bits_toNat w h]
  exact Nat.mod_lt _ (Nat.two_pow_pos _)

theorem bits8_lt (w : BitVec 32) {hi lo k : ℕ} (hk : hi - lo + 1 = k) (h : k ≤ 8) :
    (bits8 w hi lo).toNat < 2 ^ k := by
  have h1 : (bits w hi lo).toNat < _ := bits_lt w (by omega)
  rw [hk] at h1
  rw [bits8, BitVec.toNat_setWidth]
  exact Nat.lt_of_le_of_lt (Nat.mod_le _ _) h1

theorem bits_eq_iff {w : BitVec 32} {hi lo : ℕ} {v : BitVec 32} (h : hi - lo + 1 < 32) :
    bits w hi lo = v ↔ w.toNat / 2 ^ lo % 2 ^ (hi - lo + 1) = v.toNat := by
  rw [← BitVec.toNat_inj, bits_toNat w h]

/-! ## The forms -/

/-- The test for BR and RET. -/
def IsRegBranchTest (w : BitVec 32) : Prop :=
  bits w 31 26 = 0b110101#32 ∧ bits w 15 10 = 0#32 ∧ bits w 4 0 = 0#32

instance (w : BitVec 32) : Decidable (IsRegBranchTest w) := inferInstanceAs (Decidable (_ ∧ _))

/-- The operations on shifted registers. -/
def shifted_opcodes : List (InstrCategory × Byte) :=
  [(.INTEGER_ARITH, 0x00#8), (.INTEGER_ARITH, 0x01#8), (.LOGICAL, 0x10#8), (.LOGICAL, 0x11#8),
    (.LOGICAL, 0x12#8), (.LOGICAL, 0x13#8), (.LOGICAL, 0x14#8), (.LOGICAL, 0x15#8),
    (.LOGICAL, 0x16#8), (.LOGICAL, 0x17#8)]

/-- The twelve-bit immediate of ADD and SUB, shifted or not. -/
def imm12 (w : BitVec 32) : BitVec 64 :=
  if bits w 22 22 ≠ 0#32 then (bits w 21 10).setWidth 64 <<< 12 else (bits w 21 10).setWidth 64

/-- The offset of LDUR, STUR and the indexed forms. -/
def imm9 (w : BitVec 32) : BitVec 64 :=
  (sign_extend ((bits w 20 12).setWidth 64) 9).signExtend 64

/-- The offset of ADR and ADRP. -/
def imm21 (w : BitVec 32) : BitVec 64 :=
  (sign_extend (((bits w 23 5 <<< 2) ||| bits w 30 29).setWidth 64) 21).signExtend 64

/-- A load or store up to its address. -/
def access (w : BitVec 32) (out : DecodedInstr) : DecodedInstr :=
  { out with
    category := .LOAD_STORE, rt := bits8 w 4 0, rn := bits8 w 9 5,
    opcode := ldst_opcode (bits w 22 22 != 0#32) (bits w 31 30) }

/-- The records of the category decoders. -/
inductive Found (w : BitVec 32) (out : DecodedInstr) : DecodedInstr → Prop where
  | shifted {category : InstrCategory} {opcode : Byte} {sets_flags : Bool}
    (hop : (category, opcode) ∈ shifted_opcodes) : Found w out { out with
      size := bits8 w 31 31, rd := bits8 w 4 0, rn := bits8 w 9 5, rm := bits8 w 20 16,
      shift_type := bits8 w 23 22, shift_amount := bits8 w 15 10, category, opcode, sets_flags }
  | add_sub {opcode : Byte} (hop : opcode ∈ [0x00#8, 0x01#8]) : Found w out { out with
      size := bits8 w 31 31, category := .INTEGER_ARITH, rd := bits8 w 4 0, rn := bits8 w 9 5,
      rm := 0xFF#8, imm := imm12 w, sets_flags := bits w 30 30 != 0#32, opcode }
  | bitfield {opcode : Byte} {imm_s : BitVec 64}
    (hop : opcode ∈ [0x04#8, 0x05#8, 0x06#8, 0x07#8, 0x08#8]) : Found w out { out with
      size := bits8 w 31 31, category := .INTEGER_ARITH, rd := bits8 w 4 0, rn := bits8 w 9 5,
      rm := 0xFF#8, imm := (bits w 21 16).setWidth 64, imm_s, opcode }
  | move_wide {opcode : Byte} (hop : opcode ∈ [0x21#8, 0x22#8, 0x23#8, out.opcode]) :
    Found w out { out with
      size := bits8 w 31 31, category := .MOVE, rd := bits8 w 4 0, imm := (bits w 20 5).setWidth 64,
      opcode }
  | branch {opcode : Byte} (hop : opcode ∈ [0x50#8, 0x51#8])
    (hw : bits w 31 26 = 0b000101#32 ∨ bits w 31 26 = 0b100101#32) : Found w out { out with
      category := .BRANCH, opcode, branch_offset := sign_extend (w.setWidth 64) 26 <<< 2 }
  | reg_branch {opcode rn : Byte} (hw : IsRegBranchTest w)
    (hop : bits w 9 5 = 30#32 ∧ opcode = 0x53#8 ∧ rn = 30#8 ∨ opcode = 0x52#8 ∧ rn = bits8 w 9 5) :
    Found w out { out with category := .BRANCH, opcode, rn }
  | cond_branch : Found w out { out with
      category := .BRANCH_COND, opcode := 0x54#8, cond := bits8 w 3 0,
      branch_offset := sign_extend (w.setWidth 64) 19 <<< 2 }
  | compare_branch {opcode : Byte} (hop : opcode ∈ [0x55#8, 0x56#8]) : Found w out { out with
      category := .BRANCH_COND, opcode, rn := bits8 w 9 5, size := bits8 w 31 31,
      branch_offset := sign_extend (w.setWidth 64) 19 <<< 2 }
  | test_branch {opcode : Byte} (hop : opcode ∈ [0x57#8, 0x58#8]) : Found w out { out with
      category := .BRANCH_COND, rn := bits8 w 4 0, size := bits8 w 31 31, cond := bits8 w 24 24, opcode,
      imm := (bits w 23 19).setWidth 64,
      branch_offset := sign_extend ((bits w 18 5).setWidth 64) 14 <<< 2 }
  | access_unsigned : Found w out { access w out with
      imm := (bits w 21 10 <<< (bits w 31 30).toNat).setWidth 64 }
  | access_reg : Found w out { access w out with
      rm := bits8 w 20 16, shift_type := bits8 w 13 12, imm := 0#64 }
  | access_indexed : Found w out { access w out with rm := 255#8, imm_s := imm9 w, imm := imm9 w }
  | nop : Found w out { out with category := .SYSTEM, opcode := 0x90#8 }
  | system {opcode : Byte} (hop : opcode ∈ [0x90#8, 0x91#8, 0x92#8, 0x93#8, 0x94#8, 0x95#8]) :
    Found w out { out with category := .SYSTEM, rd := bits8 w 4 0, opcode }
  | address {opcode : Byte} (hop : opcode ∈ [0x24#8, 0x25#8]) : Found w out { out with
      category := .MOVE, rd := bits8 w 4 0, imm_s := imm21 w, imm := imm21 w, is_pc_relative := true,
      opcode }
  | literal {category : InstrCategory} {opcode : Byte} (hop : (category, opcode) ∈
      [(.LOAD_STORE, 0x62#8), (.LOAD_STORE, 0x63#8), (.SIMD_FP, out.opcode)]) : Found w out { out with
      category, opcode, rt := bits8 w 4 0, rn := 31#8,
      imm_s := (sign_extend ((bits w 23 5).setWidth 64) 19).signExtend 64, is_pc_relative := true }

/-- The answer of a category decoder: one of the forms, or a record with no more than a size. -/
inductive Answers (w : BitVec 32) (out : DecodedInstr) : Bool × DecodedInstr → Prop where
  | found {d : DecodedInstr} (h : Found w out d) : Answers w out (true, d)
  | unknown (size : Byte) : Answers w out (unknown { out with size })

theorem Answers.ite {w : BitVec 32} {out : DecodedInstr} {c : Prop} [Decidable c]
    {a b : Bool × DecodedInstr} (ha : c → Answers w out a) (hb : ¬ c → Answers w out b) :
    Answers w out (if c then a else b) := by
  split_ifs with h
  · exact ha h
  · exact hb h

/-! ## The category decoders -/

section Categories

variable (w : BitVec 32)

/-- The words that are offered to `decode_data_proc_reg`. -/
def OfferedAsReg : Prop := reg_route (bits w 28 24) ∨ bits w 30 29 = 0b00#32

variable {w}

/-- The rows of `decode_data_proc_reg` behind the logical operations lie in classes of words that it
is not offered. -/
theorem OfferedAsReg.ne_row (h : OfferedAsReg w) :
    bits w 30 21 ≠ 0x2A0#32 ∧ bits w 30 21 ≠ 0x1B0#32 ∧ bits w 30 21 ≠ 0x1AC#32 ∧
      bits w 30 22 ≠ 0x0D3#32 ∧ bits w 30 21 ≠ 0x2B0#32 ∧ bits w 30 24 ≠ 0x1A8#32 := by
  have hclass : ¬ (20 ≤ w.toNat / 2 ^ 24 % 2 ^ 5 ∧ w.toNat / 2 ^ 24 % 2 ^ 5 ≤ 22) ∨
      w.toNat / 2 ^ 29 % 2 ^ 2 = 0 := by
    have h28 : (bits w 28 24).toNat = w.toNat / 2 ^ 24 % 2 ^ 5 := bits_toNat w (by decide)
    refine h.imp (fun hr => ?_) fun h0 => (bits_eq_iff (by decide)).mp h0
    simp only [reg_route, BitVec.le_def, ← BitVec.toNat_inj, h28, BitVec.toNat_ofNat] at hr
    omega
  refine ⟨?_, ?_, ?_, ?_, ?_, ?_⟩
  all_goals
    intro he
    rw [bits_eq_iff (by decide)] at he
    simp only [BitVec.toNat_ofNat] at he
    omega

variable (out : DecodedInstr)

theorem answers_data_proc_reg (h : OfferedAsReg w) :
    Answers w out (decode_data_proc_reg w out) := by
  obtain ⟨h2A0, h1B0, h1AC, h0D3, h2B0, h1A8⟩ := h.ne_row
  unfold decode_data_proc_reg
  simp only [h2A0, h1B0, h1AC, h0D3, h2B0, h1A8, false_and, if_false]
  refine .ite (fun _ => .found (.shifted (by decide))) fun _ => ?_
  refine .ite (fun _ => .found (.shifted (by decide))) fun _ => ?_
  refine .ite (fun _ => .found (.shifted ?_)) fun _ => .unknown _
  split_ifs <;> decide

theorem answers_data_proc_imm : Answers w out (decode_data_proc_imm w out) := by
  unfold decode_data_proc_imm
  dsimp only
  refine .ite (fun _ => .found (.add_sub (by decide))) fun _ => ?_
  refine .ite (fun _ => .found (.add_sub (by decide))) fun _ => ?_
  refine .ite (fun _ => ?_) fun _ => ?_
  · refine .ite (fun _ => .found (.bitfield (by decide))) fun _ => ?_
    refine .ite (fun _ => .found (.bitfield (by decide))) fun _ => ?_
    refine .ite (fun _ => .found (.bitfield (by decide))) fun _ => .found (.bitfield ?_)
    split_ifs <;> decide
  · refine .ite (fun _ => .found (.move_wide ?_)) fun _ => .unknown _
    split_ifs <;> simp

theorem answers_branch : Answers w out (decode_branch w out) := by
  unfold decode_branch
  dsimp only
  refine .ite (fun h => .found (.branch (by decide) (.inl h))) fun _ => ?_
  refine .ite (fun h => .found (.branch (by decide) (.inr h))) fun _ => ?_
  refine .ite (fun h => .ite (fun h30 => ?_) fun _ => ?_) fun _ => ?_
  · exact .found (.reg_branch h (.inl ⟨h30, rfl, rfl⟩))
  · exact .found (.reg_branch h (.inr ⟨rfl, rfl⟩))
  refine .ite (fun _ => .found .cond_branch) fun _ => ?_
  refine .ite (fun _ => .found (.compare_branch ?_)) fun _ => .unknown _
  split_ifs <;> decide

theorem answers_load_store : Answers w out (decode_load_store w out) := by
  unfold decode_load_store
  dsimp only
  refine .ite (fun _ => .found .access_unsigned) fun _ => ?_
  refine .ite (fun _ => .found .access_reg) fun hreg => ?_
  refine .ite (fun _ => .found .access_indexed) fun _ => ?_
  refine .ite (fun _ => .found .access_reg) fun _ => .ite (fun hpair => absurd ?_ hreg) fun _ => .unknown _
  -- the words of LDP and STP are taken for a register form
  rw [bits_eq_iff (by decide)] at hpair ⊢
  simp only [BitVec.toNat_ofNat] at hpair ⊢
  omega

theorem answers_system : Answers w out (decode_system w out) := by
  unfold decode_system
  dsimp only
  refine .ite (fun _ => .found .nop) fun _ => .ite (fun _ => .found (.system ?_)) fun _ => .unknown _
  split_ifs <;> decide

theorem answers_pcrel : Answers w out (decode_pcrel w out) := by
  unfold decode_pcrel
  dsimp only
  refine .ite (fun _ => .found (.address (by decide))) fun _ => ?_
  refine .ite (fun _ => .found (.address (by decide))) fun _ => .ite (fun _ => ?_) fun _ => .unknown _
  refine .ite (fun _ => .found (.literal (by simp))) fun _ => ?_
  exact .ite (fun _ => .found (.literal (by simp))) fun _ => .found (.literal (by simp))

theorem answers_test_branch : Answers w out (decode_test_branch w out) := by
  refine .found (.test_branch ?_)
  split_ifs <;> decide

end Categories

/-! ## The routes -/

/-- A record in which a category decoder has set the size at most. -/
def Fresh (w : BitVec 32) (out : DecodedInstr) : Prop :=
  ∃ size, out = { DecodedInstr.cleared w with size }

/-- A category decoder has answered on a fresh record. -/
def Answered (w : BitVec 32) (r : Bool × DecodedInstr) : Prop := ∃ out, Fresh w out ∧ Answers w out r

section Routes

variable {w : BitVec 32} {out : DecodedInstr}

theorem Fresh.unknown (h : Fresh w out) (size : Byte) :
    Fresh w (ARM64Decoder.unknown { out with size }).2 := by
  obtain ⟨size', rfl⟩ := h
  exact ⟨size, rfl⟩

theorem Answered.ite {c : Prop} [Decidable c] {a b : Bool × DecodedInstr} (ha : c → Answered w a)
    (hb : ¬ c → Answered w b) : Answered w (if c then a else b) := by
  split_ifs with h
  · exact ha h
  · exact hb h

theorem Answered.orElseIf {c : Prop} [Decidable c] {r k : DecodedInstr → Bool × DecodedInstr}
    (h : Fresh w out) (hr : c → Answers w out (r out)) (hk : ∀ o, Fresh w o → Answered w (k o)) :
    Answered w (orElseIf c r out k) := by
  unfold ARM64Decoder.orElseIf orElse
  by_cases hc : c
  · rw [if_pos hc]
    have ha := hr hc
    generalize r out = a at ha
    cases ha with
    | found hd => exact ⟨out, h, .found hd⟩
    | unknown size => exact hk _ (h.unknown size)
  · rw [if_neg hc]
    exact hk out h

/-- The vector forms are out of reach: their words go to `decode_load_store` before. -/
theorem answered_last (h : Fresh w out)
    (hs : ¬ (bits w 31 29 = 0b010#32 ∨ bits w 31 29 = 0b011#32)) : Answered w (decode_last w out) := by
  unfold decode_last
  dsimp only
  refine .ite (fun _ => ⟨out, h, answers_data_proc_imm out⟩) fun _ => ?_
  refine .ite (fun _ => ⟨out, h, answers_system out⟩) fun _ => ?_
  exact .orElseIf h (fun hc => absurd hc hs) fun o ho => ⟨o, ho, .unknown o.size⟩

theorem answered_even (h : Fresh w out)
    (hs : ¬ (bits w 31 29 = 0b010#32 ∨ bits w 31 29 = 0b011#32)) : Answered w (decode_even w out) := by
  unfold decode_even
  dsimp only
  refine .ite (fun hop1 => ?_) fun _ => answered_last h hs
  refine .orElseIf h (fun _ => answers_data_proc_imm out) fun o ho => ?_
  refine .orElseIf ho (fun hop => answers_data_proc_reg o (.inr ?_)) fun o ho => ?_
  · simp only [bits_eq_iff (show 31 - 29 + 1 < 32 by decide), bits_eq_iff (show 30 - 29 + 1 < 32 by decide),
      BitVec.toNat_ofNat] at hop1 hop hs ⊢
    omega
  · exact .orElseIf ho (fun _ => answers_data_proc_imm o) fun o ho => answered_last ho hs

theorem answered_mid (h : Fresh w out) : Answered w (decode_mid w out) := by
  unfold decode_mid
  dsimp only
  refine .ite (fun _ => ⟨out, h, answers_data_proc_imm out⟩) fun _ => ?_
  refine .ite (fun _ => ⟨out, h, answers_data_proc_imm out⟩) fun _ => ?_
  refine .ite (fun _ => ⟨out, h, answers_branch out⟩) fun _ => ?_
  refine .ite (fun _ => ⟨out, h, answers_branch out⟩) fun _ => ?_
  refine .ite (fun _ => ⟨out, h, answers_load_store out⟩) fun hs => answered_even h fun h' => hs ?_
  exact h'.elim (fun h' => .inr (.inl h')) fun h' => .inr (.inr (.inl h'))

/-- **Every answer** of the decoder is a form, or `unknown` on a fresh record. -/
theorem decode_answered (w : BitVec 32) : Answered w (decode w) := by
  have h : Fresh w (.cleared w) := ⟨0#8, rfl⟩
  unfold decode
  dsimp only
  refine .ite (fun _ => ⟨_, h, answers_pcrel _⟩) fun _ => .ite (fun _ => ⟨_, h, answers_pcrel _⟩) fun _ => ?_
  refine .ite (fun _ => ⟨_, h, answers_pcrel _⟩) fun _ => ?_
  refine .ite (fun _ => ⟨_, h, answers_test_branch _⟩) fun _ => ?_
  refine .ite (fun _ => ⟨_, h, answers_data_proc_imm _⟩) fun _ => ?_
  refine .ite (fun hr => ⟨_, h, answers_data_proc_reg _ (.inl hr.2)⟩) fun _ => ?_
  refine .ite (fun h101 => ?_) fun _ => .ite (fun _ => ⟨_, h, answers_branch _⟩) fun _ => ?_
  · rw [if_pos h101]
    exact ⟨_, h, answers_branch _⟩
  · exact .orElseIf h (fun hr => answers_data_proc_reg _ (.inl hr.1)) fun o ho => answered_mid ho

theorem decode?_found {d : DecodedInstr} (h : decode? w = some d) : ∃ out, Fresh w out ∧ Found w out d := by
  unfold decode? at h
  split_ifs at h with hok
  obtain ⟨out, hout, ha⟩ := decode_answered w
  have hd := Option.some.inj h
  generalize decode w = r at hok hd ha
  cases ha with
  | found hf => exact ⟨out, hout, hd ▸ hf⟩
  | unknown size => cases hok

end Routes

end ARM64Decoder

end Bbarm64
