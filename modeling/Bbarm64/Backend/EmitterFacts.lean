import Bbarm64.Backend.Emitter
import Bbarm64.X86.Codec

/-!
# Backend.EmitterFacts — what the emitter writes

Every `emit_*` function of the forms the lowering uses is `emit_bytes` of one encoded instruction.
`Extends e e'` says that only the buffer of `e` was stored to on the way to `e'`, and
`Appends e e' l` adds the bytes `l`: the contents when they fit, the offset also when they do not.
-/

namespace Bbarm64

open X86

/-! ## Register numbers -/

/-- A register number in the forms that place its bit 3 in the REX prefix. -/
def hreg (r : Byte) : Reg := r.setWidth 4

/-- A register number in the forms that place its bit 0 there (the shifts and the `81` group). -/
def breg (r : Byte) : Reg := r.setWidth 1 ++ r.setWidth 3

/-- The numbers `arm_to_x86_static` can give: the sixteen registers and `NONE`. -/
def IsReg (r : Byte) : Prop := r < 16#8 ∨ r = 0xFF#8

instance (r : Byte) : Decidable (IsReg r) := inferInstanceAs (Decidable (_ ∨ _))

namespace X86_64Emitter

variable (e : X86_64Emitter)

/-! ## Byte strings -/

def emit_bytes (l : List Byte) : X86_64Emitter := l.foldl emit_byte e

@[simp] theorem emit_bytes_nil : e.emit_bytes [] = e := rfl

@[simp] theorem emit_bytes_cons (b : Byte) (l : List Byte) :
    e.emit_bytes (b :: l) = (e.emit_byte b).emit_bytes l := rfl

theorem emit_bytes_append (l₁ l₂ : List Byte) :
    e.emit_bytes (l₁ ++ l₂) = (e.emit_bytes l₁).emit_bytes l₂ := List.foldl_append

theorem low_byte (v : BitVec 32) : (v &&& 0xFF#32).setWidth 8 = v.setWidth 8 := by
  have h : (0xFF#32).setWidth 8 = BitVec.allOnes 8 := by decide
  rw [BitVec.setWidth_and, h, BitVec.and_allOnes]

theorem emit_dword_eq (d : BitVec 32) : e.emit_dword d = e.emit_bytes (le32 d) := by
  have h : ∀ i < 4, ((d >>> (8 * i)) &&& 0xFF#32).setWidth 8 = byteAt d i := by
    intro i hi
    rw [low_byte]
    refine BitVec.eq_of_getLsbD_eq fun j hj => ?_
    simp [byteAt, hj]
  have h0 := h 0 (by omega)
  have h1 := h 1 (by omega)
  have h2 := h 2 (by omega)
  have h3 := h 3 (by omega)
  simp only [Nat.mul_zero, BitVec.ushiftRight_zero] at h0
  simp only [emit_dword, h0, h1, h2, h3, le32, emit_bytes_cons, emit_bytes_nil]

theorem emit_qword_eq (q : BitVec 64) : e.emit_qword q = e.emit_bytes (le64 q) := by
  have hlo : (q &&& 0xFFFFFFFF#64).setWidth 32 = q.extractLsb' 0 32 := by
    have h : (0xFFFFFFFF#64).setWidth 32 = BitVec.allOnes 32 := by decide
    rw [BitVec.setWidth_and, h, BitVec.and_allOnes]
    refine BitVec.eq_of_getLsbD_eq fun j hj => ?_
    simp [hj]
  have hhi : (q >>> 32).setWidth 32 = q.extractLsb' 32 32 := by
    refine BitVec.eq_of_getLsbD_eq fun j hj => ?_
    simp [hj]
  simp only [emit_qword, hlo, hhi, emit_dword_eq, le64, emit_bytes_append]

/-! ## One instruction -/

theorem emit_rex_eq (r b : Byte) :
    e.emit_rex true r 0 b = e.emit_byte (rexW (r.setWidth 1) (b.setWidth 1)) := by
  have h1 : ∀ r : Byte, r &&& 1#8 = (r.setWidth 1).setWidth 8 := by decide
  have h2 : ∀ r b : BitVec 1, 0x40#8 ||| 0x08#8 ||| (r.setWidth 8 <<< 2) |||
      (((0#8).setWidth 1).setWidth 8 <<< 1) ||| b.setWidth 8 = rexW r b := by decide
  simp only [emit_rex, h1, ↓reduceIte]
  rw [← h2]
  rfl

theorem rex_bit : ∀ r : Byte, ((r >>> 3) &&& 1#8).setWidth 1 = (hreg r).hi := by decide

theorem hreg_setWidth : ∀ r : Reg, hreg (r.setWidth 8) = r := by decide

theorem rex_low : ∀ r : Byte, (r &&& 1#8).setWidth 1 = (breg r).hi := by decide

theorem low_hreg : ∀ r : Byte, r &&& 7#8 = (hreg r).lo.setWidth 8 := by decide

theorem low_breg : ∀ r : Byte, r &&& 7#8 = (breg r).lo.setWidth 8 := by decide

theorem modrm_reg_reg : ∀ a b : BitVec 3,
    0xC0#8 ||| (a.setWidth 8 <<< 3) ||| b.setWidth 8 = modrm 3#2 a b := by decide

theorem emit_mov_reg_imm_eq {reg : Byte} (h : IsReg reg) (imm : BitVec 64) :
    e.emit_mov_reg_imm reg imm = e.emit_bytes (encode (.movRI (hreg reg) imm)) := by
  have hrex : ∀ reg : Byte, IsReg reg →
      (if reg ≥ 8#8 then rexW 0#1 1#1 else rexW 0#1 0#1) = rexW 0#1 (hreg reg).hi := by decide
  have hop : ∀ l : BitVec 3, 0xB8#8 + l.setWidth 8 = 0b10111#5 ++ l := by decide
  have hite : (if reg ≥ 8#8 then e.emit_rex true 0 0 1 else e.emit_rex true 0 0 0) =
      e.emit_byte (rexW 0#1 (hreg reg).hi) := by
    rw [← hrex reg h, emit_rex_eq, emit_rex_eq]
    split_ifs <;> rfl
  simp only [emit_mov_reg_imm, hite, low_hreg, hop, emit_qword_eq, encode, emit_bytes_append,
    emit_bytes_cons, emit_bytes_nil]

theorem emit_reg_reg_eq (op dst src : Byte) : e.emit_reg_reg op dst src =
    e.emit_bytes [rexW (hreg src).hi (hreg dst).hi, op, modrm 3#2 (hreg src).lo (hreg dst).lo] := by
  simp only [emit_reg_reg, emit_rex_eq, rex_bit, low_hreg, modrm_reg_reg, emit_bytes_cons,
    emit_bytes_nil]

theorem emit_two_byte_eq (op dst src : Byte) : e.emit_two_byte op dst src = e.emit_bytes
    [rexW (hreg src).hi (hreg dst).hi, 0x0F#8, op, modrm 3#2 (hreg src).lo (hreg dst).lo] := by
  simp only [emit_two_byte, emit_rex_eq, rex_bit, low_hreg, modrm_reg_reg, emit_bytes_cons,
    emit_bytes_nil]

theorem emit_mov_reg_reg_eq (dst src : Byte) : e.emit_mov_reg_reg dst src =
    e.emit_bytes (encode (.movRR (hreg dst) (hreg src))) := e.emit_reg_reg_eq 0x89#8 dst src

theorem emit_add_reg_reg_eq (dst src : Byte) : e.emit_add_reg_reg dst src =
    e.emit_bytes (encode (.alu .add (hreg dst) (hreg src))) := e.emit_reg_reg_eq 0x01#8 dst src

theorem emit_sub_reg_reg_eq (dst src : Byte) : e.emit_sub_reg_reg dst src =
    e.emit_bytes (encode (.alu .sub (hreg dst) (hreg src))) := e.emit_reg_reg_eq 0x29#8 dst src

theorem emit_or_reg_reg_eq (dst src : Byte) : e.emit_or_reg_reg dst src =
    e.emit_bytes (encode (.alu .or (hreg dst) (hreg src))) := e.emit_reg_reg_eq 0x09#8 dst src

theorem emit_cmp_reg_reg_eq (dst src : Byte) : e.emit_cmp_reg_reg dst src =
    e.emit_bytes (encode (.alu .cmp (hreg dst) (hreg src))) := e.emit_reg_reg_eq 0x39#8 dst src

theorem emit_test_reg_reg_eq (dst src : Byte) : e.emit_test_reg_reg dst src =
    e.emit_bytes (encode (.test (hreg dst) (hreg src))) := e.emit_reg_reg_eq 0x85#8 dst src

theorem emit_shift_imm_eq (op : ShiftOp) (reg imm : Byte) :
    e.emit_shift_imm (modrm 3#2 op.digit 0#3) reg imm =
      e.emit_bytes (encode (.shift op (breg reg) imm)) := by
  have h : ∀ d l : BitVec 3, modrm 3#2 d 0#3 ||| l.setWidth 8 = modrm 3#2 d l := by decide
  simp only [emit_shift_imm, emit_rex_eq, rex_low, low_breg, h, encode, emit_bytes_cons,
    emit_bytes_nil]
  rfl

theorem emit_shl_reg_imm_eq (reg imm : Byte) : e.emit_shl_reg_imm reg imm =
    e.emit_bytes (encode (.shift .shl (breg reg) imm)) := e.emit_shift_imm_eq .shl reg imm

theorem emit_shr_reg_imm_eq (reg imm : Byte) : e.emit_shr_reg_imm reg imm =
    e.emit_bytes (encode (.shift .shr (breg reg) imm)) := e.emit_shift_imm_eq .shr reg imm

theorem emit_sar_reg_imm_eq (reg imm : Byte) : e.emit_sar_reg_imm reg imm =
    e.emit_bytes (encode (.shift .sar (breg reg) imm)) := e.emit_shift_imm_eq .sar reg imm

theorem emit_group_imm_eq (op : AluOp) (reg : Byte) (imm : BitVec 64) :
    e.emit_group_imm (modrm 3#2 op.digit 0#3) reg imm =
      e.emit_bytes (encode (.aluI op (breg reg) (imm.setWidth 32))) := by
  have h : ∀ d l : BitVec 3, modrm 3#2 d 0#3 ||| l.setWidth 8 = modrm 3#2 d l := by decide
  simp only [emit_group_imm, emit_rex_eq, rex_low, low_breg, h, emit_dword_eq, encode,
    emit_bytes_append, emit_bytes_cons, emit_bytes_nil]
  rfl

/-- The short form of the arithmetic with an immediate. -/
theorem emit_short_imm_eq (op : AluOp) {imm : BitVec 64} (h : imm ≤ 0xFFFFFFFF#64) (reg : Byte)
    (long : X86_64Emitter) :
    (if imm ≤ 0xFFFFFFFF#64 then e.emit_group_imm (modrm 3#2 op.digit 0#3) reg imm else long) =
      e.emit_bytes (encode (.aluI op (breg reg) (imm.setWidth 32))) := by
  rw [if_pos h]
  exact e.emit_group_imm_eq op reg imm

section ShortImm

variable {imm : BitVec 64} (h : imm ≤ 0xFFFFFFFF#64) (reg : Byte)
include h

theorem emit_add_reg_imm_eq : e.emit_add_reg_imm reg imm =
    e.emit_bytes (encode (.aluI .add (breg reg) (imm.setWidth 32))) := e.emit_short_imm_eq .add h reg _

theorem emit_sub_reg_imm_eq : e.emit_sub_reg_imm reg imm =
    e.emit_bytes (encode (.aluI .sub (breg reg) (imm.setWidth 32))) := e.emit_short_imm_eq .sub h reg _

theorem emit_and_reg_imm_eq : e.emit_and_reg_imm reg imm =
    e.emit_bytes (encode (.aluI .and (breg reg) (imm.setWidth 32))) := e.emit_short_imm_eq .and h reg _

theorem emit_or_reg_imm_eq : e.emit_or_reg_imm reg imm =
    e.emit_bytes (encode (.aluI .or (breg reg) (imm.setWidth 32))) := e.emit_short_imm_eq .or h reg _

theorem emit_xor_reg_imm_eq : e.emit_xor_reg_imm reg imm =
    e.emit_bytes (encode (.aluI .xor (breg reg) (imm.setWidth 32))) := e.emit_short_imm_eq .xor h reg _

theorem emit_cmp_reg_imm_eq : e.emit_cmp_reg_imm reg imm =
    e.emit_bytes (encode (.aluI .cmp (breg reg) (imm.setWidth 32))) := e.emit_short_imm_eq .cmp h reg _

end ShortImm

/-- ModRM, SIB and displacement; a base numbered `101` in its low bits would need the eight-bit
displacement the source leaves out where it is zero. -/
theorem emit_mem_eq {base : Byte} {disp : BitVec 32} (h : disp = 0#32 → (hreg base).lo ≠ 5#3)
    (reg : Byte) :
    e.emit_mem reg base disp = e.emit_bytes (memBytes (hreg reg).lo (hreg base) disp) := by
  have h4 : ∀ base : Byte, base &&& 7#8 = 4#8 ↔ (hreg base).lo = 4#3 := by decide
  have hm : ∀ a b : BitVec 3, (a.setWidth 8 <<< 3) ||| b.setWidth 8 = modrm 0#2 a b ∧
      0x40#8 ||| (a.setWidth 8 <<< 3) ||| b.setWidth 8 = modrm 1#2 a b ∧
      0x80#8 ||| (a.setWidth 8 <<< 3) ||| b.setWidth 8 = modrm 2#2 a b := by decide
  have hm4 : ∀ a : BitVec 3, (a.setWidth 8 <<< 3) ||| 4#8 = modrm 0#2 a 4#3 ∧
      0x40#8 ||| (a.setWidth 8 <<< 3) ||| 4#8 = modrm 1#2 a 4#3 ∧
      0x80#8 ||| (a.setWidth 8 <<< 3) ||| 4#8 = modrm 2#2 a 4#3 := by decide
  have hl := low_hreg base
  unfold emit_mem memBytes
  simp only [low_byte, low_hreg reg]
  by_cases hb : (hreg base).lo = 4#3
  · have hb' := (h4 base).mpr hb
    by_cases h0 : disp = 0#32
    · simp [h0, hb', hb, hm4, sib]
    · by_cases h8 : -128 ≤ disp.toInt ∧ disp.toInt ≤ 127
      · simp [h0, hb', hb, hm4, sib, fits8, h8]
      · simp [h0, hb', hb, hm4, sib, fits8, h8, emit_dword_eq]
  · have hb' : ¬ base &&& 7#8 = 4#8 := fun h' => hb ((h4 base).mp h')
    rw [hl] at hb' ⊢
    by_cases h0 : disp = 0#32
    · simp [h0, hb', hb, h h0, hm, sib]
    · by_cases h8 : -128 ≤ disp.toInt ∧ disp.toInt ≤ 127
      · simp [h0, hb', hb, hm, sib, fits8, h8]
      · simp [h0, hb', hb, hm, sib, fits8, h8, emit_dword_eq]

theorem emit_mov_reg_mem_eq {base : Byte} {disp : BitVec 32}
    (h : disp = 0#32 → (hreg base).lo ≠ 5#3) (reg : Byte) : e.emit_mov_reg_mem reg base disp =
      e.emit_bytes (encode (.load (hreg reg) (hreg base) disp)) := by
  simp only [emit_mov_reg_mem, emit_rex_eq, rex_bit, emit_mem_eq _ h, encode, emit_bytes_append,
    emit_bytes_cons, emit_bytes_nil]

theorem emit_mov_mem_reg_eq {base : Byte} {disp : BitVec 32}
    (h : disp = 0#32 → (hreg base).lo ≠ 5#3) (reg : Byte) : e.emit_mov_mem_reg base disp reg =
      e.emit_bytes (encode (.store (hreg base) disp (hreg reg))) := by
  simp only [emit_mov_mem_reg, emit_rex_eq, rex_bit, emit_mem_eq _ h, encode, emit_bytes_append,
    emit_bytes_cons, emit_bytes_nil]

theorem emit_ret_eq : e.emit_ret = e.emit_bytes (encode .ret) := rfl

theorem emit_nop_eq : e.emit_nop = e.emit_bytes (encode .nop) := rfl

theorem emit_pushfq_eq : e.emit_byte 0x9C#8 = e.emit_bytes (encode .pushfq) := rfl

theorem emit_pop_rax_eq : e.emit_byte 0x58#8 = e.emit_bytes (encode (.pop rax)) := rfl

/-! ## Stores into the buffer -/

/-- `e'` comes from `e` by stores into the buffer. -/
structure Extends (e e' : X86_64Emitter) : Prop where
  buf : e'.buf_ = e.buf_
  size : e'.size_ = e.size_
  host : Outside e.buf_ e.size_ e.host e'.host
  written : ∀ a ∈ e'.written, a ∈ e.written ∨ (a - e.buf_).toNat < e.size_

section Buffer

variable {e} {e' e'' : X86_64Emitter}

theorem Extends.refl (e : X86_64Emitter) : Extends e e := ⟨rfl, rfl, Outside.refl _ _ _, fun _ => .inl⟩

theorem Extends.trans (h₁ : Extends e e') (h₂ : Extends e' e'') : Extends e e'' := by
  have hh := h₂.host
  have hw := h₂.written
  rw [h₁.buf, h₁.size] at hh hw
  exact ⟨h₂.buf.trans h₁.buf, h₂.size.trans h₁.size, h₁.host.trans hh,
    fun a ha => (hw a ha).elim (h₁.written a) .inr⟩

theorem off_sub_lt {c : Word} {o n : ℕ} (h : o < n) : (off c o - c).toNat < n := by
  simp only [off, BitVec.toNat_sub, BitVec.toNat_add, BitVec.toNat_ofNat]
  have := c.isLt
  omega

theorem extends_byte (e : X86_64Emitter) (b : Byte) : Extends e (e.emit_byte b) := by
  unfold emit_byte
  split_ifs with h
  · refine ⟨rfl, rfl, fun a ha => Function.update_of_ne ?_ _ _, fun a ha => ?_⟩
    · rintro rfl
      have := off_sub_lt (c := e.buf_) h.2
      omega
    · rcases List.mem_cons.mp ha with rfl | ha
      · exact .inr (off_sub_lt h.2)
      · exact .inl ha
  · exact Extends.refl e

theorem extends_bytes (e : X86_64Emitter) (l : List Byte) : Extends e (e.emit_bytes l) := by
  induction l generalizing e with
  | nil => exact Extends.refl e
  | cons b l ih => exact (extends_byte e b).trans (ih _)

theorem extends_patch (e : X86_64Emitter) (pos : ℕ) (v : BitVec 32) :
    Extends e (e.patch_dword_at pos v) := by
  unfold patch_dword_at
  split_ifs with h
  · refine ⟨rfl, rfl, fun a ha => writeN_of_le ?_, fun a ha => ?_⟩
    · simp only [off, BitVec.toNat_sub, BitVec.toNat_add, BitVec.toNat_ofNat] at ha ⊢
      have := e.buf_.isLt
      have := a.isLt
      omega
    · rcases List.mem_append.mp ha with ha | ha
      · obtain ⟨i, hi, rfl⟩ := List.mem_map.mp ha
        have := List.mem_range.mp hi
        exact .inr (off_sub_lt (by omega))
      · exact .inl ha
  · exact Extends.refl e

end Buffer

/-! ## Offset and contents -/

theorem emit_byte_offset (hb : e.buf_ ≠ 0#64) (ho : e.offset_ ≤ e.size_) (b : Byte) :
    (e.emit_byte b).offset_ = min e.size_ (e.offset_ + 1) := by
  unfold emit_byte
  split_ifs with h
  · exact (Nat.min_eq_right h.2).symm
  · have : e.offset_ = e.size_ := by
      have := not_and.mp h hb
      omega
    omega

theorem emit_bytes_offset (hb : e.buf_ ≠ 0#64) (ho : e.offset_ ≤ e.size_) (l : List Byte) :
    (e.emit_bytes l).offset_ = min e.size_ (e.offset_ + l.length) := by
  induction l generalizing e with
  | nil => exact (Nat.min_eq_right ho).symm
  | cons b l ih =>
    have hx := extends_byte e b
    have h1 := e.emit_byte_offset hb ho b
    rw [emit_bytes_cons, ih _ (by rw [hx.buf]; exact hb) (by rw [h1, hx.size]; omega), hx.size, h1,
      List.length_cons]
    omega

@[simp] theorem code_length : e.code.length = e.offset_ := by simp [code]

theorem off_inj {c : Word} {i j : ℕ} (hi : i < 2 ^ 64) (hj : j < 2 ^ 64) (h : off c i = off c j) :
    i = j := by
  have h' := congrArg (fun a : Word => (a - c).toNat) h
  simp only [off, BitVec.toNat_sub, BitVec.toNat_add, BitVec.toNat_ofNat] at h'
  have := c.isLt
  omega

theorem emit_byte_code (hb : e.buf_ ≠ 0#64) (ho : e.offset_ < e.size_) (hs : e.size_ ≤ 2 ^ 64)
    (b : Byte) : (e.emit_byte b).code = e.code ++ [b] := by
  have h : e.buf_ ≠ 0#64 ∧ e.offset_ < e.size_ := ⟨hb, ho⟩
  have hold : ∀ i ∈ List.range e.offset_,
      Function.update e.host (off e.buf_ e.offset_) b (off e.buf_ i) = e.host (off e.buf_ i) := by
    intro i hi
    have hi := List.mem_range.mp hi
    refine Function.update_of_ne (fun he => ?_) _ _
    have := off_inj (by omega) (by omega) he
    omega
  simp only [code, emit_byte, if_pos h, List.range_succ, List.map_append, List.map_cons,
    List.map_nil, Function.update_self, List.map_congr_left hold]

theorem emit_bytes_code (hb : e.buf_ ≠ 0#64) {l : List Byte} (hl : e.offset_ + l.length ≤ e.size_)
    (hs : e.size_ ≤ 2 ^ 64) : (e.emit_bytes l).code = e.code ++ l := by
  induction l generalizing e with
  | nil => simp
  | cons b l ih =>
    have hx := extends_byte e b
    rw [List.length_cons] at hl
    have h1 := e.emit_byte_offset hb (by omega) b
    rw [emit_bytes_cons, ih _ (by rw [hx.buf]; exact hb) (by rw [h1, hx.size]; omega)
      (by rw [hx.size]; exact hs), e.emit_byte_code hb (by omega) hs]
    simp

/-- The bytes behind what was there before. -/
theorem emit_bytes_drop (hb : e.buf_ ≠ 0#64) (hs : e.size_ ≤ 2 ^ 64) {l : List Byte}
    (hl : e.offset_ + l.length ≤ e.size_) : (e.emit_bytes l).code.drop e.offset_ = l := by
  rw [e.emit_bytes_code hb hl hs, ← e.code_length, List.drop_left]

/-- Bytes that may not fit leave what was there before. -/
theorem emit_bytes_prefix (hb : e.buf_ ≠ 0#64) (ho : e.offset_ ≤ e.size_) (hs : e.size_ ≤ 2 ^ 64)
    (l : List Byte) : ∃ t, (e.emit_bytes l).code = e.code ++ t := by
  induction l generalizing e with
  | nil => exact ⟨[], (List.append_nil _).symm⟩
  | cons b l ih =>
    have hx := extends_byte e b
    have h1 := e.emit_byte_offset hb ho b
    obtain ⟨t, ht⟩ := ih (e := e.emit_byte b) (by rwa [hx.buf]) (by rw [h1, hx.size]; omega)
      (by rwa [hx.size])
    rw [emit_bytes_cons, ht]
    by_cases hlt : e.offset_ < e.size_
    · exact ⟨b :: t, by rw [e.emit_byte_code hb hlt hs, List.append_assoc]; rfl⟩
    · have hfull : e.emit_byte b = e := if_neg fun h => hlt h.2
      exact ⟨t, by rw [hfull]⟩

/-- A patch replaces four bytes of the contents. -/
theorem patch_code (hb : e.buf_ ≠ 0#64) (hs : e.size_ ≤ 2 ^ 64) (ho : e.offset_ ≤ e.size_)
    {pre old post : List Byte} (hold : old.length = 4) (h : e.code = pre ++ old ++ post)
    (v : BitVec 32) : (e.patch_dword_at pre.length v).code = pre ++ le32 v ++ post := by
  have hlen : e.offset_ = pre.length + 4 + post.length := by
    have := congrArg List.length h
    simp only [code_length, List.length_append, hold] at this
    exact this
  have hif : e.buf_ ≠ 0#64 ∧ pre.length + 4 ≤ e.size_ := ⟨hb, by omega⟩
  have hle : ∀ i < 4, (le32 v)[i]? = some (byteAt v i) := by
    intro i hi
    match i, hi with
    | 0, _ | 1, _ | 2, _ | 3, _ => rfl
  refine List.ext_getElem? fun i => ?_
  by_cases hi : i < e.offset_
  · have hl : (e.patch_dword_at pre.length v).code[i]? =
        some (writeN 4 e.host (off e.buf_ pre.length) v (off e.buf_ i)) := by
      simp [code, patch_dword_at, if_pos hif, hi]
    have hc : e.code[i]? = some (e.host (off e.buf_ i)) := by simp [code, hi]
    rw [h] at hc
    rw [hl]
    rcases Nat.lt_or_ge i pre.length with h1 | h1
    · rw [writeN_of_le (by rw [off_sub_toNat_of_lt h1 (by omega)]; omega), ← hc]
      simp [h1, Nat.lt_of_lt_of_le h1 (Nat.le_add_right _ _)]
    · have hsub : (off e.buf_ i - off e.buf_ pre.length).toNat = i - pre.length :=
        off_sub_toNat h1 (by omega)
      rcases Nat.lt_or_ge (i - pre.length) 4 with h2 | h2
      · have hr : (pre ++ le32 v ++ post)[i]? = some (byteAt v (i - pre.length)) := by
          rw [List.append_assoc, List.getElem?_append_right h1, List.getElem?_append_left (by simpa),
            hle _ h2]
        rw [hr, writeN, hsub, if_pos h2]
      · rw [writeN_of_le (by omega), ← hc, List.getElem?_append_right (by simp [hold]; omega),
          List.getElem?_append_right (by simp; omega)]
        simp [hold]
  · have h1 : (e.patch_dword_at pre.length v).code.length ≤ i := by
      simp [patch_dword_at, if_pos hif]
      omega
    rw [List.getElem?_eq_none h1, List.getElem?_eq_none (by simp; omega)]

/-- `e'` is `e` after the bytes `l`. -/
structure Appends (e e' : X86_64Emitter) (l : List Byte) : Prop where
  ext : Extends e e'
  offset : e.buf_ ≠ 0#64 → e.offset_ ≤ e.size_ → e'.offset_ = min e.size_ (e.offset_ + l.length)
  code : e.buf_ ≠ 0#64 → e.size_ ≤ 2 ^ 64 → e.offset_ + l.length ≤ e.size_ → e'.code = e.code ++ l

theorem appends_bytes (l : List Byte) : Appends e (e.emit_bytes l) l :=
  ⟨extends_bytes e l, fun hb ho => e.emit_bytes_offset hb ho l, fun hb hs hl => e.emit_bytes_code hb hl hs⟩

theorem Appends.trans {e e' e'' : X86_64Emitter} {l l' : List Byte} (h₁ : Appends e e' l)
    (h₂ : Appends e' e'' l') : Appends e e'' (l ++ l') := by
  have hbuf := h₁.ext.buf
  have hsize := h₁.ext.size
  refine ⟨h₁.ext.trans h₂.ext, fun hb ho => ?_, fun hb hs hl => ?_⟩
  · have o1 := h₁.offset hb ho
    rw [h₂.offset (by rwa [hbuf]) (by rw [hsize]; omega), hsize, o1, List.length_append]
    omega
  · rw [List.length_append] at hl
    have o1 := h₁.offset hb (by omega)
    rw [h₂.code (by rwa [hbuf]) (by rwa [hsize]) (by rw [hsize]; omega),
      h₁.code hb hs (by omega), List.append_assoc]

/-- In a fresh buffer. -/
theorem Appends.code_fresh {host_code : Word} {n : ℕ} {host : Mem} {e : X86_64Emitter} {l : List Byte}
    (h : Appends (.set_buffer host_code n host) e l) (hb : host_code ≠ 0#64) (hn : n ≤ 2 ^ 64)
    (hl : l.length ≤ n) : e.code = l := by
  have hempty : (X86_64Emitter.set_buffer host_code n host).code = [] := rfl
  rw [h.code hb hn ((Nat.zero_add l.length).symm ▸ hl), hempty, List.nil_append]

end X86_64Emitter

end Bbarm64
