import Bbarm64.Engine.Compile
import Bbarm64.Engine.GuestAccess
import Bbarm64.Engine.LoadStore

/-!
# Engine.Word32 — the 32-bit LDR and STR in the two engines

`emit_mov_reg_mem` and `emit_mov_mem_reg` have a 64-bit form only, so LOAD32 and STORE32 move eight
bytes.  That shows only where the four bytes behind the access are not what they would be anyway.
-/

namespace Bbarm64

open X86 ARM64Decoder IRBuilder IRLowering

namespace ExecEngine

/-- `x[n] + imm` -/
def offset_addr (ctx : CPUContext) (d : DecodedInstr) : Word := ctx.x d.rn.toNat + d.imm

/-- The guest state behind the access to four bytes. -/
def word32_access (g : Guest) (d : DecodedInstr) : Guest :=
  let a := offset_addr g.1 d
  let rt := d.rt.toNat
  let pc := g.1.pc + 4#64
  if d.opcode = 0x62#8 then ((g.1.set_x rt ((read32 g.2.host a).setWidth 64)).set_pc pc, g.2)
  else (g.1.set_pc pc, { g.2 with host := writeN 4 g.2.host a (g.1.x rt) })

/-- The block of the lone instruction, entered in state `s`, returns with that guest state, and the
interpreter gives it too. -/
def AccessesWord32 (d : DecodedInstr) (g : Guest) (host_code : Word) (host : Mem) (s : State) : Prop :=
  ∃ s', Returns (block_code [d] g.1.pc host_code host) s s' ∧
    HoldsGuest (s.reg rdi) s'.mem (word32_access g d) ∧ execute_decoded g d = word32_access g d

/-- The four bytes behind the access are zero for a load, and the upper half of the register for a
store; and a load that is marked as relative to `pc` finds the same at that address. -/
def UpperInPlace (d : DecodedInstr) (g : Guest) : Prop :=
  let a := offset_addr g.1 d
  if d.opcode = 0x62#8 then
    read32 g.2.host (a + 4#64) = 0#32 ∧ (d.is_pc_relative = true →
      read32 g.2.host (g.1.pc + d.imm_s <<< 2) = read32 g.2.host a)
  else read32 g.2.host (a + 4#64) = (g.1.x d.rt.toNat).extractLsb' 32 32

section Word32

variable {d : DecodedInstr} {g : Guest} {host_code c : Word} {s : State}

theorem imm_le_of_lt {imm : Word} (h : imm < 16384#64) : imm ≤ 0xFFF000#64 :=
  BitVec.le_trans (BitVec.le_of_lt h) (by decide)

/-- The block accesses `x[n] + imm`. -/
theorem host_addr_eq (himm : d.imm < 16384#64) (ctx : CPUContext) :
    host_addr ctx d = offset_addr ctx d := by
  rw [host_addr, signExtend_imm (imm_le_of_lt himm), offset_addr]

/-- A register and then `pc`. -/
theorem HoldsGuest.set_x_pc {m : Mem} (h : HoldsGuest c m g) {r : Byte} (hr : r ≤ 30#8) (v pc : Word) :
    HoldsGuest c (writeN 8 (writeN 8 m (off c (8 * r.toNat)) v) (off c (8 * 32)) pc)
      ((g.1.set_x r.toNat v).set_pc pc, g.2) := by
  have hlt : r.toNat ≤ 30 := hr
  have hw : CPUContext.words = 104 := rfl
  exact (h.set (by omega) v).set (by omega) pc

theorem set_x_inj {ctx : CPUContext} {r : Byte} (hr : r ≤ 30#8) {v v' pc : Word} :
    (ctx.set_x r.toNat v).set_pc pc = (ctx.set_x r.toNat v').set_pc pc ↔ v = v' := by
  have hlt : r.toNat ≤ 30 := hr
  have hne : r.toNat ≠ 32 := by omega
  constructor
  · intro h
    have hword := congrArg (fun c : CPUContext => c.word r.toNat) h
    simpa [CPUContext.set_pc, CPUContext.set_x, hne] using hword
  · rintro rfl
    rfl

/-! ## Loads -/

theorem execute_ldr32_eq (hop : d.opcode = 0x62#8) (hrt : d.rt ≤ 30#8) :
    execute_decoded g d =
      ((g.1.set_x d.rt.toNat ((read32 g.2.host (ldr_addr g.1 d)).setWidth 64)).set_pc
        (g.1.pc + 4#64), g.2) := by
  have hlt : d.rt.toNat ≤ 30 := hrt
  have hne : 32 ≠ d.rt.toNat := by omega
  rw [execute_ldr32 hop, MemoryManager.read_u32, ExecEngine.load, set_reg, next]
  simp [CPUContext.pc, CPUContext.set_x, hne]

theorem ldr_addr_eq (hn : d.rn ≤ 30#8) (himm : d.imm ≠ 0#64) (ctx : CPUContext) :
    ldr_addr ctx d = if d.is_pc_relative then ctx.pc + d.imm_s <<< 2 else offset_addr ctx d := by
  simp [ldr_addr, x_or_sp_of_le hn, himm, offset_addr]

theorem execute_ldr32_iff (hop : d.opcode = 0x62#8) (hn : d.rn ≤ 30#8) (himm : d.imm ≠ 0#64)
    (hrt : d.rt ≤ 30#8) : execute_decoded g d = word32_access g d ↔ (d.is_pc_relative = true →
      read32 g.2.host (g.1.pc + d.imm_s <<< 2) = read32 g.2.host (offset_addr g.1 d)) := by
  have hinj : ∀ v v' : BitVec 32, v.setWidth 64 = v'.setWidth 64 ↔ v = v' := by
    intro v v'
    refine ⟨fun h => ?_, fun h => h ▸ rfl⟩
    have h' := congrArg (BitVec.setWidth 32) h
    simpa using h'
  rw [execute_ldr32_eq hop hrt, word32_access]
  dsimp only
  rw [if_pos hop, Prod.mk.injEq, set_x_inj hrt, hinj, ldr_addr_eq hn himm]
  cases d.is_pc_relative <;> simp

theorem instrIr_ldr32 (hop : d.opcode = 0x62#8) (pc : Word) : instrIr d pc = [loadIr .LOAD32 d] := by
  simp [instrIr, build_instr, hop, IRBuilder.load, loadIr, IRBlock.push_back]

/-- The block loads eight bytes. -/
theorem holds_ldr32_iff (hop : d.opcode = 0x62#8) (hrt : d.rt ≤ 30#8) {m : Mem}
    (hold : HoldsGuest c g.2.host g) (hm : m = writeN 8 (writeN 8 g.2.host (off c (8 * d.rt.toNat))
      (read64 g.2.host (offset_addr g.1 d))) (off c (8 * 32)) (g.1.pc + 4#64)) :
    HoldsGuest c m (word32_access g d) ↔ read32 g.2.host (offset_addr g.1 d + 4#64) = 0#32 := by
  have hlt : d.rt.toNat ≤ 30 := hrt
  have hacc : word32_access g d = ((g.1.set_x d.rt.toNat
      ((read32 g.2.host (offset_addr g.1 d)).setWidth 64)).set_pc (g.1.pc + 4#64), g.2) := if_pos hop
  rw [hacc, holdsGuest_iff (hold.set_x_pc hrt _ _), hm, ← read64_eq_setWidth_iff]
  constructor
  · intro h
    have hword := congrArg (fun m => X86.word m c (8 * d.rt.toNat)) h
    simpa only [word_write_ne (show 8 * d.rt.toNat + 8 ≤ 8 * 32 ∨ _ from .inl (by omega)) (by omega)
      (by omega), word_write_same] using hword
  · intro h
    rw [h]

/-! ## Stores -/

theorem ldr_ne_str (hop : d.opcode = 0x72#8) : ¬ d.opcode = 0x62#8 := by
  rw [hop]
  decide

theorem word32_access_str (hop : d.opcode = 0x72#8) : word32_access g d =
    (g.1.set 32 (g.1.pc + 4#64),
      { g.2 with host := writeN 4 g.2.host (offset_addr g.1 d) (g.1.x d.rt.toNat) }) :=
  if_neg (ldr_ne_str hop)

/-- The bytes behind a clear access do not reach `ctx.pc`. -/
theorem clear_behind {a : Word} (h : Clear c a 4) {i : ℕ} (hi : i < 4) :
    8 ≤ (a + 4#64 + BitVec.ofNat 64 i - off c (8 * 32)).toNat := by
  have hw : 8 * CPUContext.words = 832 := rfl
  have h3 := h 3 (by omega)
  have ha := a.isLt
  have hc := c.isLt
  simp only [off, BitVec.toNat_sub, BitVec.toNat_add, BitVec.toNat_ofNat] at h3 ⊢
  omega

/-- The block stores eight bytes. -/
theorem holds_str32_iff (hop : d.opcode = 0x72#8) {m : Mem} (hold : HoldsGuest c g.2.host g)
    (hclear : Clear c (offset_addr g.1 d) 4) (hm : m = writeN 8 (writeN 8 g.2.host
      (offset_addr g.1 d) (g.1.x d.rt.toNat)) (off c (8 * 32)) (g.1.pc + 4#64)) :
    HoldsGuest c m (word32_access g d) ↔
      read32 g.2.host (offset_addr g.1 d + 4#64) = (g.1.x d.rt.toNat).extractLsb' 32 32 := by
  rw [word32_access_str hop]
  generalize offset_addr g.1 d = a at hclear hm ⊢
  generalize g.1.x d.rt.toNat = x at hm ⊢
  have hwant := (hold.store hclear x).set (by decide : 32 < CPUContext.words) (g.1.pc + 4#64)
  rw [holdsGuest_iff hwant, hm]
  constructor
  · intro h
    refine read32_of_bytes fun i hi => ?_
    have hbyte := congrFun h (a + 4#64 + BitVec.ofNat 64 i)
    have hsub : (a + 4#64 + BitVec.ofNat 64 i - a).toNat = 4 + i := by
      have := a.isLt
      simp only [BitVec.toNat_sub, BitVec.toNat_add, BitVec.toNat_ofNat]
      omega
    rw [writeN_of_le (clear_behind hclear hi), writeN_of_le (clear_behind hclear hi),
      writeN_of_le (k := 4) (by omega)] at hbyte
    rw [← hbyte, writeN, if_pos (by omega), hsub, byteAt_extract32 (s := 4) x hi]
  · intro h
    rw [writeN_eight_eq_four h]

theorem execute_str32_eq (hop : d.opcode = 0x72#8) (hn : d.rn ≤ 30#8) (himm : d.imm ≠ 0#64)
    (hp : g.2.check_perms (offset_addr g.1 d) 4#64 PROT_WRITE = true) :
    execute_decoded g d = word32_access g d := by
  have haddr : str_addr g.1 d = offset_addr g.1 d := by
    simp [str_addr, x_or_sp_of_le hn, himm, offset_addr]
  have hwrite : writeN 4 g.2.host (offset_addr g.1 d) ((g.1.x d.rt.toNat).setWidth 32) =
      writeN 4 g.2.host (offset_addr g.1 d) (g.1.x d.rt.toNat) := by
    funext b
    unfold writeN
    split_ifs with hb
    · exact byteAt_setWidth _ hb
    · rfl
  rw [execute_str32 hop, haddr, MemoryManager.write_u32, MemoryManager.write_u, if_pos hp,
    hwrite, word32_access_str hop]
  rfl

theorem instrIr_str32 (hop : d.opcode = 0x72#8) (pc : Word) :
    instrIr d pc = [storeIr .STORE32 d] := by
  simp [instrIr, build_instr, hop, IRBuilder.store, storeIr, IRBlock.push_back]

/-- **The 32-bit LDR and STR**: the block does what the interpreter does exactly if the four bytes
behind the access are zero, for a load, or the upper half of the register, for a store. -/
theorem accessesWord32_iff (hop : d.opcode = 0x62#8 ∨ d.opcode = 0x72#8) (hn : d.rn ≤ 30#8)
    (hrt : d.rt ≤ 30#8) (himm : d.imm ≠ 0#64) (himm' : d.imm < 16384#64) (hb : host_code ≠ 0#64)
    (host : Mem) (hctx : CtxAt s.mem (s.reg rdi) g.1) (hmem : s.mem = g.2.host)
    (hp : d.opcode = 0x72#8 → g.2.check_perms (offset_addr g.1 d) 4#64 PROT_WRITE = true ∧
      Clear (s.reg rdi) (offset_addr g.1 d) 4) :
    AccessesWord32 d g host_code host s ↔ UpperInPlace d g := by
  have harm : IsArm d.rn ∧ IsArm d.rt := ⟨isArm_of_le hn, isArm_of_le hrt⟩
  have hold : HoldsGuest (s.reg rdi) g.2.host g := holdsGuest_host (hmem ▸ hctx)
  unfold AccessesWord32 UpperInPlace
  dsimp only
  rcases hop with hop | hop
  · obtain ⟨s', hret, hs'⟩ :=
      returns_load (.inr rfl) (instrIr_ldr32 hop g.1.pc) harm.1 harm.2 hb host hctx
    rw [hmem, host_addr_eq himm'] at hs'
    simp only [hret, exists_eq_left, if_pos hop]
    rw [holds_ldr32_iff hop hrt hold hs', execute_ldr32_iff hop hn himm hrt]
  · obtain ⟨hperm, hclear⟩ := hp hop
    obtain ⟨s', hret, hs'⟩ :=
      returns_store (.inr rfl) (instrIr_str32 hop g.1.pc) harm.1 harm.2 hb host hctx
    rw [hmem, host_addr_eq himm'] at hs'
    simp only [hret, exists_eq_left, if_neg (ldr_ne_str hop)]
    rw [holds_str32_iff hop hold hclear hs']
    exact and_iff_left (execute_str32_eq hop hn himm hperm)

end Word32

/-- `ldr w1, [x2, #4]` -/
def ldr_w1 : DecodedInstr :=
  { DecodedInstr.cleared 0xB9400441#32 with opcode := 0x62#8, rt := 1#8, rn := 2#8, imm := 4#64 }

/-- 12 in `x1`, and 0x2000 in `x2`. -/
def word_ctx : CPUContext := (CPUContext.zero.set_x 1 12#64).set_x 2 0x2000#64

/-- 7 at 0x2004. -/
def seven_word : Guest :=
  (word_ctx, { (open_state .zero).2 with host := writeN 4 (ctx_mem word_ctx) 0x2004#64 7#32 })

theorem ctxAt_seven_word : CtxAt seven_word.2.host 0#64 word_ctx := by
  intro i hi
  refine Eq.trans (read64_congr fun j hj => ?_) (ctxAt_ctx_mem word_ctx i hi)
  refine writeN_of_le (m := ctx_mem word_ctx) (Nat.le_of_not_lt fun hlt => ?_)
  unfold CPUContext.words at hi
  simp only [off, BitVec.toNat_sub, BitVec.toNat_add, BitVec.toNat_ofNat] at hlt
  omega

def seven_state : State := { State.cleared with mem := seven_word.2.host }

/-- The word 7, with zeros behind it. -/
theorem accessesWord32_iff_ldr :
    AccessesWord32 ldr_w1 seven_word 0x8000#64 (fun _ => 0#8) seven_state := by
  have hop : ldr_w1.opcode ≠ 0x72#8 := by decide
  have hupper : UpperInPlace ldr_w1 seven_word := by
    unfold UpperInPlace
    decide
  have hctx : CtxAt seven_state.mem (seven_state.reg rdi) seven_word.1 := ctxAt_seven_word
  exact (accessesWord32_iff (.inl (by decide)) (by decide) (by decide) (by decide) (by decide)
    (by decide) _ hctx rfl fun h => absurd h hop).mpr hupper

/-- `ldr w1, [x2, #0x1004]` -/
def ldr_w1_far : DecodedInstr := { ldr_w1 with imm := 0x1004#64 }

/-- A cleared state but for the byte 1 at 0x1008. -/
def one_behind : Guest :=
  (.zero, { (open_state .zero).2 with host := writeN 1 (fun _ => 0#8) 0x1008#64 1#8 })

theorem ctxAt_one_behind : CtxAt one_behind.2.host 0#64 .zero := by
  have hw : 8 * CPUContext.words = 832 := rfl
  refine ctxAt_zero_of fun a ha => ?_
  refine writeN_of_le (m := fun _ => 0#8) (Nat.le_of_not_lt fun hlt => ?_)
  have hlt' := a.isLt
  simp only [BitVec.toNat_sub, BitVec.toNat_ofNat] at ha hlt
  omega

/-- The block of `ldr w1, [x2, #0x1004]` loads the byte behind the word with it. -/
theorem not_accessesWord32_ldr :
    ¬ AccessesWord32 ldr_w1_far one_behind 0x8000#64 (fun _ => 0#8)
      { State.cleared with mem := one_behind.2.host } := by
  have hop : ldr_w1_far.opcode = 0x62#8 := by decide
  rintro ⟨s', hs, hheld, -⟩
  obtain ⟨s₁, hret, hs₁⟩ := returns_load (.inr rfl) (instrIr_ldr32 hop one_behind.1.pc) (by decide)
    (by decide) (by decide : 0x8000#64 ≠ 0#64) (fun _ => 0#8)
    (s := { State.cleared with mem := one_behind.2.host }) ctxAt_one_behind
  obtain rfl := (hret s').mp hs
  rw [host_addr_eq (by decide)] at hs₁
  have hzero := (holds_ldr32_iff hop (by decide) (holdsGuest_host ctxAt_one_behind) hs₁).mp hheld
  exact absurd hzero (by decide)

end ExecEngine

end Bbarm64
