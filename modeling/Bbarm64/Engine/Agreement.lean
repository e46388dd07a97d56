import Bbarm64.Engine.Branch
import Bbarm64.Engine.Interp
import Bbarm64.Engine.ProgramBlock

/-!
# Engine.Agreement — the interpreter and the blocks

When there is no slot left, the loop interprets the instructions it would have translated.  On a row of
the A64 subset the two leave the same guest exactly if the row does not branch back: the interpreter
zero-extends the offset (`interp_agrees_iff`).
-/

namespace Bbarm64

open X86 ARM64Decoder

/-- B and BL with a negative offset. -/
def Back : A64.Insn → Prop
  | .b imm26 | .bl imm26 => imm26.msb = true
  | .addImm _ _ _ | .movz _ _ | .adr _ _ | .adrp _ _ | .nop => False

instance : DecidablePred Back
  | .b _ | .bl _ => inferInstanceAs (Decidable (_ = true))
  | .addImm _ _ _ | .movz _ _ | .adr _ _ | .adrp _ _ | .nop => inferInstanceAs (Decidable False)

namespace ExecEngine

/-- Interpreted rounds, one for each instruction. -/
def interp (g : Guest) (ds : List DecodedInstr) : Guest := ds.foldl execute_decoded g

/-- The same guest, as far as it is visible: the words of the context, and the memory outside of the
object. -/
structure Agrees (c : Word) (g g' : Guest) : Prop where
  words : ∀ i < CPUContext.words, g'.1.word i = g.1.word i
  outside : CtxOutside c g.2.host g'.2.host

section Interp

variable {c : Word} {g g' : Guest} {i : A64.Insn} {d : DecodedInstr} {is : List A64.Insn}
  {ds : List DecodedInstr}

/-- The words of the A64 state. -/
theorem guest_eq_iff {ctx ctx' : CPUContext} :
    guest ctx = guest ctx' ↔ ∀ k ≤ 32, ctx.word k = ctx'.word k := by
  constructor
  · intro h k hk
    by_cases h32 : k = 32
    · subst h32
      exact congrArg A64.State.pc h
    · have hr := congrFun (congrArg A64.State.reg h) (BitVec.ofNat 5 k)
      have hk' : (BitVec.ofNat 5 k).toNat = k := by
        rw [BitVec.toNat_ofNat]
        omega
      change ctx.word (BitVec.ofNat 5 k).toNat = ctx'.word (BitVec.ofNat 5 k).toNat at hr
      rwa [hk'] at hr
  · intro h
    have hregs : ∀ q, guest_regs ctx q = guest_regs ctx' q := by
      intro q
      have hq := q.isLt
      exact h _ (by omega)
    rw [guest, guest, funext hregs, CPUContext.pc, CPUContext.pc, h 32 (by omega)]

theorem guest_set_pc (ctx : CPUContext) (pc : Word) :
    guest (ctx.set_pc pc) = { guest ctx with pc } := by
  have hregs : ∀ q : BitVec 5, guest_regs (ctx.set_pc pc) q = guest_regs ctx q := by
    intro q
    have hq := q.isLt
    exact if_neg (by omega)
  rw [guest, funext hregs]
  rfl

theorem toNat_setWidth_reg (r : BitVec 5) : (r.setWidth 8).toNat = r.toNat := by
  have hr := r.isLt
  rw [BitVec.toNat_setWidth]
  omega

theorem set_x_pc (ctx : CPUContext) (r : BitVec 5) (v : Word) :
    (ctx.set_x r.toNat v).pc = ctx.pc := by
  have hr := r.isLt
  exact if_neg (by omega)

theorem guest_set_x (ctx : CPUContext) (r : BitVec 5) (v : Word) :
    guest (ctx.set_x r.toNat v) = (guest ctx).setReg r v := by
  have hregs : ∀ q : BitVec 5, guest_regs (ctx.set_x r.toNat v) q =
      if q = r then v else guest_regs ctx q := by
    intro q
    rw [guest_regs, CPUContext.set_x, CPUContext.set_word]
    simp only [BitVec.toNat_inj]
    rfl
  rw [guest, funext hregs, set_x_pc]
  rfl

/-- A register and the program counter. -/
theorem guest_set_reg (g : Guest) (r : BitVec 5) (v : Word) :
    guest (set_reg g (r.setWidth 8) v).1 = ((guest g.1).setReg r v).next := by
  rw [set_reg, next, guest_set_pc, toNat_setWidth_reg, guest_set_x, set_x_pc]
  rfl

theorem set_reg_rest (g : Guest) (r : BitVec 5) (v : Word) {k : ℕ} (hk : 32 < k) :
    (set_reg g (r.setWidth 8) v).1.word k = g.1.word k := by
  have hr := r.isLt
  rw [set_reg_word (show IsArm (r.setWidth 8) by rw [IsArm, toNat_setWidth_reg]; exact hr),
    toNat_setWidth_reg, if_neg (by omega), if_neg (by omega)]

/-- The two branches, whose offset is zero-extended. -/
theorem execute_b (h : d.opcode = 0x50#8) : execute_decoded g d =
    (g.1.set_pc (g.1.pc + d.branch_offset.setWidth 64), g.2) := by
  simp +decide only [execute_decoded, branch_if, h, if_true, if_false]

theorem execute_bl (h : d.opcode = 0x51#8) : execute_decoded g d =
    ((g.1.set_x 30 (g.1.pc + 4#64)).set_pc (g.1.pc + d.branch_offset.setWidth 64), g.2) := by
  simp +decide only [execute_decoded, branch_if, h, if_true, if_false]
  rfl

theorem execute_nop (h : d.opcode = 0x90#8) : execute_decoded g d = next g := by
  simp +decide only [execute_decoded, h, if_true, if_false, or_false]

/-- The offset is the one of A64 unless it is negative. -/
theorem offset_eq_iff (imm26 : BitVec 26) :
    (imm26.signExtend 32 <<< 2).setWidth 64 = imm26.signExtend 64 <<< 2 ↔ imm26.msb = false := by
  have hmsb : (imm26.signExtend 32 <<< 2).msb = imm26.msb := by
    rw [BitVec.msb_eq_getLsbD_last, BitVec.getLsbD_shiftLeft, BitVec.getLsbD_signExtend]
    rfl
  rw [← signExtend_shiftLeft, setWidth_eq_signExtend_iff, ← hmsb, BitVec.msb_eq_toInt]
  simp

/-- **One instruction** that does not branch back is executed as A64 says. -/
theorem interp_insn (h : Decodes i d) (hb : ¬ Back i) (g : Guest) :
    guest (execute_decoded g d).1 = i.exec (guest g.1) := by
  cases i with
  | addImm rd rn imm =>
    obtain ⟨hop, hrd, hrn, -, himm, -⟩ := h
    have hx : g.1.x d.rn.toNat = (guest g.1).reg rn := by
      rw [hrn, toNat_setWidth_reg]
      rfl
    rw [execute_add hop, hrd, guest_set_reg, hx, himm]
    rfl
  | movz rd imm16 =>
    obtain ⟨hop, hrd, himm⟩ := h
    rw [execute_movz hop, hrd, guest_set_reg, himm]
    rfl
  | adr rd imm21 =>
    obtain ⟨hop, hrd, himm⟩ := h
    rw [execute_adr hop, hrd, guest_set_reg, himm]
    rfl
  | adrp rd imm21 =>
    obtain ⟨hop, hrd, himm⟩ := h
    rw [execute_adrp hop, hrd, guest_set_reg, himm]
    rfl
  | nop =>
    rw [execute_nop h]
    exact guest_set_pc _ _
  | b imm26 =>
    obtain ⟨hop, hoff⟩ := h
    rw [execute_b hop, hoff, (offset_eq_iff imm26).mpr (Bool.not_eq_true _ ▸ hb)]
    exact guest_set_pc _ _
  | bl imm26 =>
    obtain ⟨hop, hoff⟩ := h
    rw [execute_bl hop, hoff, (offset_eq_iff imm26).mpr (Bool.not_eq_true _ ▸ hb)]
    have hlr := guest_set_x g.1 30#5 (g.1.pc + 4#64)
    rw [show (30#5).toNat = 30 from rfl] at hlr
    rw [guest_set_pc, hlr]
    rfl

/-- One that does goes elsewhere. -/
theorem interp_back (h : Decodes i d) (hb : Back i) (g : Guest) :
    (execute_decoded g d).1.pc ≠ (i.exec (guest g.1)).pc := by
  have hne : ∀ imm26 : BitVec 26, imm26.msb = true → d.branch_offset = imm26.signExtend 32 <<< 2 →
      g.1.pc + d.branch_offset.setWidth 64 ≠ g.1.pc + imm26.signExtend 64 <<< 2 := by
    intro imm26 hmsb hoff he
    have hfalse := (offset_eq_iff imm26).mp (by rw [← hoff]; exact (BitVec.add_right_inj _).mp he)
    rw [hmsb] at hfalse
    cases hfalse
  cases i with
  | b imm26 =>
    rw [execute_b h.1]
    exact hne imm26 hb h.2
  | bl imm26 =>
    rw [execute_bl h.1]
    exact hne imm26 hb h.2
  | _ => exact hb.elim

/-- What is not in the A64 state stays. -/
theorem interp_rest (h : Decodes i d) (g : Guest) : (execute_decoded g d).2 = g.2 ∧
    ∀ k, 32 < k → (execute_decoded g d).1.word k = g.1.word k := by
  have hset : ∀ (r : BitVec 5) v, execute_decoded g d = set_reg g (r.setWidth 8) v →
      (execute_decoded g d).2 = g.2 ∧
        ∀ k, 32 < k → (execute_decoded g d).1.word k = g.1.word k := by
    intro r v he
    rw [he]
    exact ⟨rfl, fun k hk => set_reg_rest g r v hk⟩
  cases i with
  | addImm rd => exact hset rd _ (by rw [execute_add h.1, h.2.1])
  | movz rd => exact hset rd _ (by rw [execute_movz h.1, h.2.1])
  | adr rd => exact hset rd _ (by rw [execute_adr h.1, h.2.1])
  | adrp rd => exact hset rd _ (by rw [execute_adrp h.1, h.2.1])
  | nop =>
    rw [execute_nop h]
    exact ⟨rfl, fun k hk => if_neg (by omega)⟩
  | b =>
    rw [execute_b h.1]
    exact ⟨rfl, fun k hk => if_neg (by omega)⟩
  | bl =>
    rw [execute_bl h.1]
    refine ⟨rfl, fun k hk => (if_neg (by omega)).trans (if_neg (by omega))⟩

theorem Row.head (h : Row (i :: is) (d :: ds)) : Decodes i d ∧ (is = [] ∨ i.isBranch = false) := by
  obtain ⟨hi, -⟩ := List.forall₂_cons.mp h.decodes
  refine ⟨hi.1, ?_⟩
  cases is with
  | nil => exact .inl rfl
  | cons i' is => exact .inr (h.inner i (by rw [List.dropLast_cons_cons]; exact List.mem_cons_self))

theorem Row.tail (h : Row (i :: is) (d :: ds)) : Row is ds := by
  refine ⟨(List.forall₂_cons.mp h.decodes).2, fun j hj => h.inner j ?_⟩
  cases is with
  | nil => cases hj
  | cons i' is =>
    rw [List.dropLast_cons_cons]
    exact List.mem_cons_of_mem i hj

theorem isBranch_of_back (h : Back i) : i.isBranch = true := by
  cases i with
  | b | bl => rfl
  | _ => exact h.elim

/-- **A row** is executed as A64 says exactly if it does not branch back. -/
theorem interp_row_iff (h : Row is ds) (g : Guest) :
    guest (interp g ds).1 = A64.run is (guest g.1) ↔ ∀ i ∈ is, ¬ Back i := by
  induction is generalizing ds g with
  | nil =>
    obtain rfl := List.forall₂_nil_left_iff.mp h.decodes
    exact iff_of_true rfl (List.forall_mem_nil _)
  | cons i is ih =>
    obtain ⟨d, ds, -, -, rfl⟩ := List.forall₂_cons_left_iff.mp h.decodes
    obtain ⟨hi, hlast⟩ := h.head
    rw [List.forall_mem_cons, interp, List.foldl_cons, A64.run_cons]
    by_cases hb : Back i
    · -- the row ends with it
      obtain rfl : is = [] := hlast.resolve_right (by rw [isBranch_of_back hb]; simp)
      obtain rfl := List.forall₂_nil_left_iff.mp h.tail.decodes
      exact iff_of_false (fun he => interp_back hi hb g (congrArg A64.State.pc he)) fun hn => hn.1 hb
    · rw [← interp_insn hi hb g, and_iff_right hb]
      exact ih h.tail _

theorem interp_row_rest (h : Row is ds) (g : Guest) : (interp g ds).2 = g.2 ∧
    ∀ k, 32 < k → (interp g ds).1.word k = g.1.word k := by
  induction is generalizing ds g with
  | nil =>
    obtain rfl := List.forall₂_nil_left_iff.mp h.decodes
    exact ⟨rfl, fun _ _ => rfl⟩
  | cons i is ih =>
    obtain ⟨d, ds, -, -, rfl⟩ := List.forall₂_cons_left_iff.mp h.decodes
    obtain ⟨hmem, hword⟩ := interp_rest h.head.1 g
    obtain ⟨hmem', hword'⟩ := ih h.tail (execute_decoded g d)
    exact ⟨hmem'.trans hmem, fun k hk => (hword' k hk).trans (hword k hk)⟩

/-- **The two ways**: every execution of the block of a row that does not crash leaves the guest that
the interpreter leaves exactly if the row does not branch back. -/
theorem interp_agrees_iff {pc host_code : Word} {cpu : Cpu} (h : Row is ds)
    (hlen : ds.length ≤ max_instr) (hu : Undisturbed ds pc host_code cpu.st)
    (he : Enters c host_code g cpu) (hpc : g.1.pc = pc) (hl : Leaves c g cpu g')
    (hgo : g'.1.crashed = false) : Agrees c (interp g ds) g' ↔ ∀ i ∈ is, ¬ Back i := by
  obtain ⟨hstate, hrest, hout⟩ := (h.leaves hlen hu he hpc).1 g' hl hgo
  obtain ⟨hmem, hword⟩ := interp_row_rest h g
  rw [← interp_row_iff h g, ← hstate]
  constructor
  · intro ha
    exact guest_eq_iff.mpr fun k hk => (ha.words k (by rw [CPUContext.words]; omega)).symm
  · intro hg
    refine ⟨fun k hk => ?_, by rw [hmem]; exact hout⟩
    by_cases h32 : k ≤ 32
    · exact (guest_eq_iff.mp hg k h32).symm
    · rw [hrest k (by omega) hk, hword k (by omega)]

/-- `b .-4` at 0x1000, with its block at 0x10000 and the context object at 0x8000. -/
theorem interp_agrees_iff_b : ∃ d g cpu g', Row [.b (-1#26)] [d] ∧ g.1.pc = 0x1000#64 ∧
    Leaves 0x8000#64 g cpu g' ∧
    (Agrees 0x8000#64 (interp g [d]) g' ↔ ∀ i ∈ [A64.Insn.b (-1#26)], ¬ Back i) := by
  have hw : A64.Insn.ofWord? 0x17FFFFFF#32 = some (.b (-1#26)) := by decide
  obtain ⟨d, hd, hdec⟩ := decodes_of_ofWord? hw
  have hrow : Row [.b (-1#26)] [d] :=
    ⟨.cons ⟨hdec, decode?_wellDecoded hd⟩ .nil, fun _ h => absurd h List.not_mem_nil⟩
  have hlen : 1 ≤ max_instr := by decide
  have hslot : slot_size = 4096 := rfl
  have hapart : ∀ a, InSlot a 0x10000#64 → 8 * CPUContext.words ≤ (a - 0x8000#64).toNat := by
    intro a ha
    simp only [InSlot, CPUContext.words, slot_size, BitVec.toNat_sub, BitVec.toNat_ofNat] at *
    omega
  let ctx : CPUContext := CPUContext.zero.set_pc 0x1000#64
  let code := block_code [d] 0x1000#64 0x10000#64 fun _ => 0#8
  have hsize : code.length ≤ slot_size := by
    show (block_code [d] 0x1000#64 0x10000#64 fun _ => 0#8).length ≤ slot_size
    have hfits : Fits [d] 0x1000#64 := hrow.fits hlen
    have hle := (fits_iff hrow.wellDecoded).mp hfits
    rw [block_code_eq hrow.wellDecoded (by decide) hle]
    exact hle
  let g : Guest := (ctx, .new (fill (fun _ => 0#8) 0x10000#64 code.length fun i => code.getD i 0#8))
  have he : Enters 0x8000#64 0x10000#64 g (entering 0x8000#64 0x10000#64 g) := enters_entering _ _ _
  have hcode : CodeAt (entering 0x8000#64 0x10000#64 g).st.mem 0x10000#64 code := by
    refine (codeAt_fill (fun _ => 0#8) 0x10000#64 (by omega)).congr fun i hi => he.host _ (hapart _ ?_)
    rw [InSlot, off_sub_self (by omega)]
    omega
  have hu := program_undisturbed hrow hlen (by decide) hcode hapart
  obtain ⟨g', hl, hf⟩ := (hrow.leaves hlen hu he rfl).2
  have hrest : g'.1.crashed = (CPUContext.zero.set_pc 0x1000#64).crashed :=
    crashed_congr (hf.rest 103 (by decide) (by decide))
  have hgo : g'.1.crashed = false := hrest.trans (by decide)
  exact ⟨d, g, _, g', hrow, rfl, hl, interp_agrees_iff hrow hlen hu he rfl hl hgo⟩

end Interp

end ExecEngine

end Bbarm64
