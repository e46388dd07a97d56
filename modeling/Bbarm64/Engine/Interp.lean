import Bbarm64.Decoder.DecodeFacts
import Bbarm64.Engine.Exec

/-!
# Engine.Interp — `execute_decoded`, opcode by opcode

Each opcode picks one case of the chain.
-/

namespace Bbarm64

open X86 ARM64Decoder

namespace ExecEngine

section Opcodes

variable {g : Guest} {d : DecodedInstr}

theorem x_or_sp_of_le {r : Byte} (h : r ≤ 30#8) (ctx : CPUContext) :
    x_or_sp ctx r = ctx.x r.toNat := by
  refine if_neg ?_
  rintro rfl
  exact absurd h (by decide)

/-- A step that writes a register. -/
theorem set_reg_word {r : Byte} (hr : IsArm r) (v : Word) (i : ℕ) : (set_reg g r v).1.word i =
    if i = 32 then g.1.pc + 4#64 else if i = r.toNat then v else g.1.word i := by
  have hr' : r.toNat < 32 := hr
  have hpc : (g.1.set_x r.toNat v).pc = g.1.pc := by
    simp only [CPUContext.pc, CPUContext.set_x, CPUContext.set_word]
    rw [if_neg (by omega)]
  simp only [set_reg, next, hpc]
  rfl

/-! ## Moves and arithmetic -/

theorem execute_movz (h : d.opcode = 0x22#8) : execute_decoded g d = set_reg g d.rd d.imm := by
  simp +decide only [execute_decoded, h, if_true, if_false]

theorem execute_movk (h : d.opcode = 0x23#8) : execute_decoded g d =
    let hw := ((d.raw >>> 21) &&& 3#32).toNat * 16
    set_reg g d.rd ((g.1.x d.rd.toNat &&& ~~~(0xFFFF#64 <<< hw)) ||| (d.imm <<< hw)) := by
  simp +decide only [execute_decoded, h, if_true, if_false]

theorem execute_movn (h : d.opcode = 0x21#8) : execute_decoded g d =
    set_reg g d.rd (~~~(d.imm <<< (((d.raw >>> 21) &&& 3#32).toNat * 16))) := by
  simp +decide only [execute_decoded, h, if_true, if_false]

theorem execute_adr (h : d.opcode = 0x24#8) :
    execute_decoded g d = set_reg g d.rd (g.1.pc + d.imm_s) := by
  simp +decide only [execute_decoded, h, if_true, if_false]

theorem execute_adrp (h : d.opcode = 0x25#8) :
    execute_decoded g d = set_reg g d.rd ((g.1.pc &&& ~~~0xFFF#64) + (d.imm_s <<< 12)) := by
  simp +decide only [execute_decoded, h, if_true, if_false]

theorem execute_add (h : d.opcode = 0x00#8) :
    execute_decoded g d = set_reg g d.rd (g.1.x d.rn.toNat + d.imm) := by
  simp +decide only [execute_decoded, h, if_true, if_false]

theorem execute_sub (h : d.opcode = 0x01#8) :
    execute_decoded g d = set_reg g d.rd (g.1.x d.rn.toNat - d.imm) := by
  simp +decide only [execute_decoded, h, if_true, if_false]

theorem execute_mov (h : d.opcode = 0x20#8) :
    execute_decoded g d = set_reg g d.rd (x_or_sp g.1 d.rm) := by
  simp +decide only [execute_decoded, h, if_true, if_false]

/-- SBFX has no case. -/
theorem execute_sbfx (h : d.opcode = 0x07#8) : execute_decoded g d = next (crash g.1, g.2) := by
  simp +decide only [execute_decoded, h, if_false, or_false]

/-! ## Logical operations -/

theorem execute_and (h : d.opcode = 0x10#8) : execute_decoded g d = logical g d (· &&& ·) := by
  simp +decide only [execute_decoded, h, if_true, if_false]

theorem execute_orr (h : d.opcode = 0x12#8) : execute_decoded g d = logical g d (· ||| ·) := by
  simp +decide only [execute_decoded, h, if_true, if_false]

theorem execute_eor (h : d.opcode = 0x14#8) : execute_decoded g d = logical g d (· ^^^ ·) := by
  simp +decide only [execute_decoded, h, if_true, if_false]

/-! ## Comparisons -/

theorem execute_cmp (h : d.opcode = 0x30#8) : execute_decoded g d =
    let a := g.1.x d.rn.toNat
    let b := g.1.x d.rm.toNat
    next (g.1.set_nzcv (a - b).msb (a - b == 0#64) (b ≤ a) ((a - b).msb != a.slt b), g.2) := by
  simp +decide only [execute_decoded, h, if_true, if_false]

/-! ## Loads and stores -/

theorem execute_ldr64 (h : d.opcode = 0x63#8) :
    execute_decoded g d = load g d.rt (g.2.read_u64 (ldr_addr g.1 d)) := by
  simp +decide only [execute_decoded, h, if_true, if_false]

theorem execute_ldr32 (h : d.opcode = 0x62#8) :
    execute_decoded g d = load g d.rt (g.2.read_u32 (ldr_addr g.1 d)) := by
  simp +decide only [execute_decoded, h, if_true, if_false]

theorem execute_ldrb (h : d.opcode = 0x60#8) :
    execute_decoded g d = load g d.rt (g.2.read_u8 (x_or_sp g.1 d.rn + d.imm)) := by
  simp +decide only [execute_decoded, h, if_true, if_false]

theorem execute_ldrh (h : d.opcode = 0x61#8) :
    execute_decoded g d = load g d.rt (g.2.read_u16 (x_or_sp g.1 d.rn + d.imm)) := by
  simp +decide only [execute_decoded, h, if_true, if_false]

theorem execute_str64 (h : d.opcode = 0x73#8) :
    execute_decoded g d = store g (g.2.write_u64 (str_addr g.1 d) (g.1.x d.rt.toNat)) := by
  simp +decide only [execute_decoded, h, if_true, if_false]

theorem execute_str32 (h : d.opcode = 0x72#8) :
    execute_decoded g d =
      store g (g.2.write_u32 (str_addr g.1 d) ((g.1.x d.rt.toNat).setWidth 32)) := by
  simp +decide only [execute_decoded, h, if_true, if_false]

theorem execute_strb (h : d.opcode = 0x70#8) :
    execute_decoded g d =
      store g (g.2.write_u8 (x_or_sp g.1 d.rn + d.imm) ((g.1.x d.rt.toNat).setWidth 8)) := by
  simp +decide only [execute_decoded, h, if_true, if_false]

theorem execute_strh (h : d.opcode = 0x71#8) :
    execute_decoded g d =
      store g (g.2.write_u16 (x_or_sp g.1 d.rn + d.imm) ((g.1.x d.rt.toNat).setWidth 16)) := by
  simp +decide only [execute_decoded, h, if_true, if_false]

theorem execute_stp (h : d.opcode = 0x81#8) :
    execute_decoded g d =
      store g ((g.2.write_u64 (x_or_sp g.1 d.rn + d.imm_s) (g.1.x d.rt.toNat)).2.write_u64
        (x_or_sp g.1 d.rn + d.imm_s + 8#64) (g.1.x d.rm.toNat)) := by
  simp +decide only [execute_decoded, h, if_true, if_false]

theorem execute_ldp (h : d.opcode = 0x80#8) {a v₁ v₂ : Word} (ha : x_or_sp g.1 d.rn + d.imm_s = a)
    (h₁ : g.2.read_u64 a = some v₁) (h₂ : g.2.read_u64 (a + 8#64) = some v₂) :
    execute_decoded g d = next ((g.1.set_x d.rt.toNat v₁).set_x d.rm.toNat v₂, g.2) := by
  simp +decide only [execute_decoded, h, ha, h₁, h₂, if_true, if_false]

/-! ## Branches -/

theorem execute_br (h : d.opcode = 0x52#8) :
    execute_decoded g d = (g.1.set_pc (x_or_sp g.1 d.rn), g.2) := by
  simp +decide only [execute_decoded, h, if_true, if_false]

/-- TBZ and TBNZ. -/
theorem execute_tb (h : d.opcode = 0x57#8 ∨ d.opcode = 0x58#8) :
    execute_decoded g d = branch_if g ((g.1.x d.rn.toNat).getLsbD (d.imm.setWidth 32).toNat ==
      decide (d.opcode = 0x58#8)) d.branch_offset := by
  rcases h with h | h <;> simp +decide only [execute_decoded, h, if_true, if_false]

end Opcodes

end ExecEngine

end Bbarm64
