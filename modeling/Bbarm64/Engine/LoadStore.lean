import Bbarm64.Decoder.ShiftedForms
import Bbarm64.Engine.Interp

/-!
# Engine.LoadStore — the addresses of the 64-bit LDR and STR

`access` is the access that `execute_decoded` makes for a record of these opcodes.  Every LDR and STR
of a 64-bit register decodes in the same way: `decode_load_store` tests bits 28:26 only, so it takes
all four forms for a register form, with the index register from bits 20:16 and the shift from bits
13:12, and no form writes the base register.
-/

namespace Bbarm64

open X86 ARM64Decoder

namespace ExecEngine

/-! ## The access of an instruction -/

/-- The 64-bit access of `execute_decoded`: whether it loads, and the address. -/
def access (ctx : CPUContext) (decoded : DecodedInstr) : Option (Bool × Word) :=
  if decoded.opcode = 0x63#8 then some (true, ldr_addr ctx decoded)
  else if decoded.opcode = 0x73#8 then some (false, str_addr ctx decoded)
  else none

section Access

variable {ctx : CPUContext} {decoded : DecodedInstr} {a : Word}

theorem execute_load (h : access ctx decoded = some (true, a)) (mem : MemoryManager) :
    execute_decoded (ctx, mem) decoded = load (ctx, mem) decoded.rt (mem.read_u64 a) := by
  unfold access at h
  split_ifs at h with hload hstore
  · obtain rfl : ldr_addr ctx decoded = a := congrArg Prod.snd (Option.some.inj h)
    exact execute_ldr64 hload
  · cases h

theorem execute_store (h : access ctx decoded = some (false, a)) (mem : MemoryManager) :
    execute_decoded (ctx, mem) decoded =
      store (ctx, mem) (mem.write_u64 a (ctx.x decoded.rt.toNat)) := by
  unfold access at h
  split_ifs at h with hload hstore
  · cases h
  · obtain rfl : str_addr ctx decoded = a := congrArg Prod.snd (Option.some.inj h)
    exact execute_str64 hstore

end Access

/-! ## The decode -/

/-- The record of every LDR and STR of a 64-bit register. -/
def access_record (w : BitVec 32) : DecodedInstr :=
  { DecodedInstr.cleared w with
    category := .LOAD_STORE, opcode := if w.getLsbD 22 then 0x63#8 else 0x73#8, size := 1#8,
    rt := bits8 w 4 0, rn := bits8 w 9 5, rm := bits8 w 20 16, shift_type := bits8 w 13 12,
    imm := 0#64 }

theorem decode_access64 {w : BitVec 32} (h : w >>> 24 = 0xF8#32 ∨ w >>> 24 = 0xF9#32) :
    ARM64Decoder.decode w = (true, access_record w) := by
  have hload : (bits w 22 22 != 0#32) = w.getLsbD 22 := by
    rw [Bool.eq_iff_iff, getLsbD_iff, bne_iff_ne, Ne, bits_eq_iff (by decide)]
    simp only [BitVec.toNat_ofNat]
    omega
  rcases h with h | h <;>
  · have hb := bits_shift h
    have hrow := not_fixed_row h (by decide)
    have hmov := not_movz h (by decide)
    have hsize : bits8 w 31 31 = 1#8 := by rw [bits8, hb 31 31 (by decide) (by decide)]; rfl
    simp only [fixed_rows, List.mem_cons, List.not_mem_nil, or_false, not_or] at hrow
    simp +decide only [ARM64Decoder.decode, decode_mid, decode_data_proc_reg, decode_load_store,
      ldst_opcode, hb, hrow, hmov, hload, hsize, unknown, orElseIf, orElse, if_true, if_false,
      false_and, access_record]

/-- The offset of that record: the index register, shifted by two bits of the word. -/
def index_offset (ctx : CPUContext) (w : BitVec 32) : Word :=
  if w.extractLsb' 16 5 = 31#5 then 0#64
  else ctx.x (w.extractLsb' 16 5).toNat <<< (w.extractLsb' 12 2).toNat

theorem toNat_bits8 (w : BitVec 32) {hi lo n : ℕ} (hn : hi - lo + 1 = n) (h : n ≤ 8) :
    (bits8 w hi lo).toNat = (w.extractLsb' lo n).toNat := by
  have hlt : (w.extractLsb' lo n).toNat < 2 ^ 8 :=
    Nat.lt_of_lt_of_le (BitVec.isLt _) (Nat.pow_le_pow_right (by decide) h)
  have hw : bits8 w hi lo = (w.extractLsb' lo n).setWidth 8 := setWidth_bits w hn (by omega) h
  rw [hw, BitVec.toNat_setWidth, Nat.mod_eq_of_lt hlt]

/-- The base register, number 31 being SP. -/
def base (ctx : CPUContext) (rn : BitVec 5) : Word := if rn = 31#5 then ctx.sp else ctx.x rn.toNat

/-- `x[31]` is the word of `sp`. -/
theorem base_eq (ctx : CPUContext) (rn : BitVec 5) : base ctx rn = ctx.x rn.toNat := by
  unfold base
  split_ifs with h
  · rw [h]
    rfl
  · rfl

theorem x_or_sp_eq (ctx : CPUContext) (w : BitVec 32) :
    x_or_sp ctx (bits8 w 9 5) = base ctx (w.extractLsb' 5 5) := by
  have hrn := toNat_bits8 w (show 9 - 5 + 1 = 5 from rfl) (by decide)
  rw [x_or_sp, base_eq, ← hrn]
  split_ifs with h
  · rw [h]
    rfl
  · rfl

/-- Both cases of the interpreter add the index offset. -/
theorem addr_of_record (ctx : CPUContext) (w : BitVec 32) :
    ldr_addr ctx (access_record w) = base ctx (w.extractLsb' 5 5) + index_offset ctx w ∧
      str_addr ctx (access_record w) = base ctx (w.extractLsb' 5 5) + index_offset ctx w := by
  have hrm := toNat_bits8 w (show 20 - 16 + 1 = 5 from rfl) (by decide)
  have hsh := toNat_bits8 w (show 13 - 12 + 1 = 2 from rfl) (by decide)
  have hshift : bits8 w 13 12 < 4#8 := by
    rw [BitVec.lt_def, hsh]
    exact (w.extractLsb' 12 2).isLt
  have hindex : bits8 w 20 16 < 31#8 ↔ ¬ w.extractLsb' 16 5 = 31#5 := by
    have h5 := (w.extractLsb' 16 5).isLt
    rw [BitVec.lt_def, hrm, ← BitVec.toNat_inj, BitVec.toNat_ofNat, BitVec.toNat_ofNat]
    omega
  unfold ldr_addr str_addr index_offset
  simp only [access_record, DecodedInstr.cleared, x_or_sp_eq, hrm, hsh, hshift, hindex]
  by_cases hr : w.extractLsb' 16 5 = 31#5
  · simp [hr]
  · simp [hr]

theorem access_of_record (ctx : CPUContext) (w : BitVec 32) :
    access ctx (access_record w) =
      some (w.getLsbD 22, base ctx (w.extractLsb' 5 5) + index_offset ctx w) := by
  have hop : (access_record w).opcode = if w.getLsbD 22 then 0x63#8 else 0x73#8 := rfl
  rw [access, hop, (addr_of_record ctx w).1, (addr_of_record ctx w).2]
  cases w.getLsbD 22 <;> rfl

/-! ## The A64 address -/

/-- The address A64 gives the access. -/
def address (f : A64.LoadStore64) (ctx : CPUContext) : Word :=
  base ctx f.rn + f.index.offset fun r => ctx.x r.toNat

/-- The word decodes, the access is at its A64 address, and a pre- or post-indexed form moves the
base register. -/
def AccessesA64 (f : A64.LoadStore64) (w : BitVec 32) (g : Guest) : Prop :=
  ∃ decoded, decode? w = some decoded ∧ access g.1 decoded = some (f.load, address f g.1) ∧
    ∀ d, f.index.writeback? = some d →
      base (execute_decoded g decoded).1 f.rn = base g.1 f.rn + d

/-- The index offset is the offset of the form; and a form that moves its base moves it by nothing,
or loads the moved base into it. -/
def FormInPlace (f : A64.LoadStore64) (w : BitVec 32) (g : Guest) : Prop :=
  index_offset g.1 w = f.index.offset (fun r => g.1.x r.toNat) ∧
    ∀ d, f.index.writeback? = some d →
      if f.load = true ∧ f.rt = f.rn then read64 g.2.host (address f g.1) = base g.1 f.rn + d
      else d = 0#64

section Forms

variable {f : A64.LoadStore64} {w : BitVec 32} {g : Guest}

theorem fields_of_ofWord? (h : A64.LoadStore64.ofWord? w = some f) :
    (w >>> 24 = 0xF8#32 ∨ w >>> 24 = 0xF9#32) ∧ f.load = w.getLsbD 22 ∧
      f.rt = w.extractLsb' 0 5 ∧ f.rn = w.extractLsb' 5 5 := by
  unfold A64.LoadStore64.ofWord? at h
  dsimp only at h
  split_ifs at h with h23 h9 h8 h21 h01 h11 h10
  · obtain rfl := Option.some.inj h
    exact ⟨.inr (top_of_extract h9), rfl, rfl, rfl⟩
  · obtain rfl := Option.some.inj h
    exact ⟨.inl (top_of_extract h8), rfl, rfl, rfl⟩
  · obtain rfl := Option.some.inj h
    exact ⟨.inl (top_of_extract h8), rfl, rfl, rfl⟩
  · obtain rfl := Option.some.inj h
    exact ⟨.inl (top_of_extract h8), rfl, rfl, rfl⟩

/-- The base register behind the access. -/
theorem base_after {decoded : DecodedInstr} {a : Word} {rn : BitVec 5} {is_load : Bool}
    (h : access g.1 decoded = some (is_load, a))
    (hp : is_load = true → g.2.check_perms a 8 PROT_READ = true) :
    base (execute_decoded g decoded).1 rn =
      if is_load = true ∧ rn.toNat = decoded.rt.toNat then read64 g.2.host a else base g.1 rn := by
  have hrn := rn.isLt
  have hpc : rn.toNat ≠ 32 := by omega
  cases is_load with
  | true =>
    rw [execute_load h, MemoryManager.read_u64, if_pos (hp rfl)]
    simp [base_eq, load, set_reg, next, CPUContext.x, CPUContext.set_x, CPUContext.set_pc, hpc]
  | false =>
    rw [execute_store h]
    simp [base_eq, store, next, CPUContext.x, CPUContext.set_pc, hpc]

/-- **Addresses of LDR and STR**: the access is A64's exactly if the form happens to ask for the
index offset, and its base for no move. -/
theorem accessesA64_iff (h : A64.LoadStore64.ofWord? w = some f)
    (hp : g.2.check_perms (address f g.1) 8 (if f.load then PROT_READ else PROT_WRITE) = true) :
    AccessesA64 f w g ↔ FormInPlace f w g := by
  obtain ⟨htop, hload, hrt, hrn⟩ := fields_of_ofWord? h
  have hdecode : decode? w = some (access_record w) := by
    rw [decode?, decode_access64 htop]
    rfl
  have haccess : access g.1 (access_record w) = some (f.load, base g.1 f.rn + index_offset g.1 w) := by
    rw [access_of_record, hload, hrn]
  have haddr : access g.1 (access_record w) = some (f.load, address f g.1) ↔
      index_offset g.1 w = f.index.offset (fun r => g.1.x r.toNat) := by
    rw [haccess, address, Option.some.injEq, Prod.mk.injEq, BitVec.add_right_inj]
    exact and_iff_right rfl
  have hreg : f.rn.toNat = (access_record w).rt.toNat ↔ f.rt = f.rn := by
    have hrt' : (access_record w).rt.toNat = f.rt.toNat := by
      rw [hrt]
      exact toNat_bits8 w (show 4 - 0 + 1 = 5 from rfl) (by decide)
    rw [hrt', BitVec.toNat_inj, eq_comm]
  have hread : f.load = true → g.2.check_perms (address f g.1) 8 PROT_READ = true := by
    intro hl
    rwa [if_pos hl] at hp
  constructor
  · rintro ⟨decoded, hd, ha, hwb⟩
    obtain rfl := Option.some.inj (hdecode.symm.trans hd)
    refine ⟨haddr.mp ha, fun d hd' => ?_⟩
    have hmove := hwb d hd'
    simp only [base_after ha hread, hreg] at hmove
    split_ifs at hmove ⊢
    · exact hmove
    · exact (BitVec.add_right_inj _).mp (hmove.symm.trans (BitVec.add_zero _).symm)
  · rintro ⟨hoff, hwb⟩
    refine ⟨_, hdecode, haddr.mpr hoff, fun d hd => ?_⟩
    have hmove := hwb d hd
    simp only [base_after (haddr.mpr hoff) hread, hreg]
    split_ifs at hmove ⊢
    · exact hmove
    · rw [hmove, BitVec.add_zero]

/-- Registers and memory, every page of which can be read and written. -/
def open_state (ctx : CPUContext) : Guest :=
  (ctx, { MemoryManager.new (fun _ => 0#8) with
    regions_ := [{ addr := 0#64, size := -1#64, perms := PROT_READ ||| PROT_WRITE }] })

/-- `ldr x0, [x1, x2, lsl #3]`: bits 13:12 are the shift. -/
theorem accessesA64_iff_lsl :
    AccessesA64 ⟨true, 0#5, 1#5, .reg 2#5 0b011#3 true⟩ 0xF8627820#32
      (open_state ((CPUContext.zero.set_x 1 0x8000#64).set_x 2 2#64)) ↔
    FormInPlace ⟨true, 0#5, 1#5, .reg 2#5 0b011#3 true⟩ 0xF8627820#32
      (open_state ((CPUContext.zero.set_x 1 0x8000#64).set_x 2 2#64)) :=
  accessesA64_iff (by decide) (by decide)

/-- `ldr x0, [x1, #8]` with `x1 = 0x8000` reads at 0x8000. -/
theorem not_accessesA64_unsigned :
    A64.LoadStore64.ofWord? 0xF9400420#32 = some ⟨true, 0#5, 1#5, .unsigned 1#12⟩ ∧
      (open_state (CPUContext.zero.set_x 1 0x8000#64)).2.check_perms 0x8008#64 8 PROT_READ = true ∧
      ¬ AccessesA64 ⟨true, 0#5, 1#5, .unsigned 1#12⟩ 0xF9400420#32
        (open_state (CPUContext.zero.set_x 1 0x8000#64)) := by
  refine ⟨by decide, by decide, ?_⟩
  rintro ⟨decoded, hd, ha, -⟩
  have hdecode : decode? 0xF9400420#32 = some (access_record 0xF9400420#32) := by decide
  obtain rfl := Option.some.inj (hdecode.symm.trans hd)
  exact absurd ha (by decide)

end Forms

end ExecEngine

end Bbarm64
