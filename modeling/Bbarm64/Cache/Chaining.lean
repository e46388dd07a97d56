import Bbarm64.Cache.TranslationCache

/-!
# Cache.Chaining — `patch_chain_slot`

The patch writes a `jmp rel32` into the code of a block, ten bytes before its end for slot 0 and five
for slot 1.  `patched_byte` gives the bytes behind it.
-/

namespace Bbarm64

open X86

/-- A `BlockInfo` with its `chain_slots`, which nothing else reads or writes. -/
structure ChainedBlock extends BlockInfo where
  chain_slots : Word × Word := (0#64, 0#64)

/-- Where the jump goes, from the start of the code.  The subtraction is one of `uint32_t`, and the
difference becomes a `size_t`. -/
def chain_offset (block : BlockInfo) (slot : ℤ) : Word :=
  let chain_offset := (block.host_code_size - 10#32).setWidth 64
  if slot = 1 then chain_offset + 5#64 else chain_offset

def slot_ptr (block : BlockInfo) (slot : ℤ) : Word := block.host_code + chain_offset block slot

/-- The displacement of the jump to `target_addr`. -/
def chain_rel (block : BlockInfo) (slot : ℤ) (target_addr : Word) : BitVec 32 :=
  (target_addr - (slot_ptr block slot + 5#64)).setWidth 32

/-- The result, the memory and the block behind `patch_chain_slot(block, slot, target_addr)`. -/
def patch_chain_slot (m : Mem) (block : Option ChainedBlock) (slot : ℤ) (target_addr : Word) :
    Bool × Mem × Option ChainedBlock :=
  match block with
  | none => (false, m, none)
  | some block =>
    if slot < 0 ∨ slot > 1 then (false, m, some block)
    else
      let ptr := slot_ptr block.toBlockInfo slot
      -- JMP rel32
      let m := writeN 1 m ptr 0xE9#8
      let m := writeN 4 m (ptr + 1#64) (chain_rel block.toBlockInfo slot target_addr)
      let slots := block.chain_slots
      let slots := if slot = 0 then (target_addr, slots.2) else (slots.1, target_addr)
      (true, m, some { block with chain_slots := slots })

/-- The memory behind the patch. -/
def patched (m : Mem) (block : BlockInfo) (slot : ℤ) (target_addr : Word) : Mem :=
  (patch_chain_slot m (some { block with }) slot target_addr).2.1

section Patch

variable {block : BlockInfo} {slot : ℤ}

theorem patched_eq (h : slot = 0 ∨ slot = 1) (m : Mem) (target_addr : Word) :
    patched m block slot target_addr = writeN 4 (writeN 1 m (slot_ptr block slot) 0xE9#8)
      (slot_ptr block slot + 1#64) (chain_rel block slot target_addr) := by
  rcases h with rfl | rfl <;> rfl

/-- The offset as a number, in code of ten bytes or more. -/
theorem chain_offset_toNat (h : slot = 0 ∨ slot = 1) (hsize : 10 ≤ block.host_code_size.toNat) :
    (chain_offset block slot).toNat = block.host_code_size.toNat - if slot = 1 then 5 else 10 := by
  have hlt := block.host_code_size.isLt
  have hten : 10#32 ≤ block.host_code_size := BitVec.le_def.mpr hsize
  have hbase : ((block.host_code_size - 10#32).setWidth 64).toNat = block.host_code_size.toNat - 10 := by
    rw [BitVec.toNat_setWidth, BitVec.toNat_sub_of_le hten, BitVec.toNat_ofNat]
    omega
  rcases h with rfl | rfl
  · exact hbase
  · show ((block.host_code_size - 10#32).setWidth 64 + 5#64).toNat = _
    rw [BitVec.toNat_add, hbase, BitVec.toNat_ofNat, if_pos rfl]
    omega

/-- **The bytes behind the patch**: the opcode, the displacement, and the code as it was. -/
theorem patched_byte (h : slot = 0 ∨ slot = 1) (hsize : 10 ≤ block.host_code_size.toNat) (m : Mem)
    (target_addr : Word) {i : ℕ} (hi : i < block.host_code_size.toNat) :
    patched m block slot target_addr (off block.host_code i) =
      if i = (chain_offset block slot).toNat then 0xE9#8
      else if (chain_offset block slot).toNat < i ∧ i ≤ (chain_offset block slot).toNat + 4 then
        byteAt (chain_rel block slot target_addr) (i - ((chain_offset block slot).toNat + 1))
      else m (off block.host_code i) := by
  have hlt := block.host_code_size.isLt
  have ho := (chain_offset block slot).isLt
  have hlast := chain_offset_toNat h hsize
  have hptr : slot_ptr block slot = off block.host_code (chain_offset block slot).toNat :=
    (off_toNat _ _).symm
  have hrel : slot_ptr block slot + 1#64 =
      off block.host_code ((chain_offset block slot).toNat + 1) := by
    rw [hptr]
    exact off_add _ _ 1
  have hle : (chain_offset block slot).toNat + 5 ≤ block.host_code_size.toNat := by
    rw [hlast]
    split_ifs <;> omega
  rw [patched_eq h, hrel, hptr]
  generalize (chain_offset block slot).toNat = o at *
  -- distances from the two stores
  have hdist : ∀ p, p < 2 ^ 64 → (off block.host_code i - off block.host_code p).toNat =
      (i + (2 ^ 64 - p)) % 2 ^ 64 := by
    intro p hp
    have hb := block.host_code.isLt
    simp only [off, BitVec.toNat_sub, BitVec.toNat_add, BitVec.toNat_ofNat]
    omega
  have h0 := hdist o (by omega)
  have h1 := hdist (o + 1) (by omega)
  rw [writeN, h1]
  by_cases hin : o < i ∧ i ≤ o + 4
  · have he : (i + (2 ^ 64 - (o + 1))) % 2 ^ 64 = i - (o + 1) := by omega
    rw [he, if_pos (by omega), if_neg (by omega), if_pos hin]
  · rw [if_neg (by omega), writeN, h0, if_neg hin]
    by_cases hio : i = o
    · have he : (i + (2 ^ 64 - o)) % 2 ^ 64 = 0 := by omega
      rw [he, if_pos Nat.one_pos, if_pos hio]
      rfl
    · rw [if_neg (by omega), if_neg hio]

end Patch

end Bbarm64
