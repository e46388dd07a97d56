import Bbarm64.Decoder.ImmediateForms
import Bbarm64.Engine.GuestAccess
import Bbarm64.Engine.LoadStore

/-!
# Engine.Literal — LDR (literal), ADR and ADRP in the two engines

The record of LDR (literal) is marked by `is_pc_relative` and has SP for its base and no `imm`.  The
interpreter looks at the mark; the IR is that of a load from the base, so the block loads from `sp`.
For ADR and ADRP the two agree on the address, if the word decodes.
-/

namespace Bbarm64

open X86 ARM64Decoder IRBuilder IRLowering

namespace ExecEngine

/-- The guest state behind the load of `rt` from `a`. -/
def loaded (g : Guest) (rt : ℕ) (a : Word) : Guest :=
  ((g.1.set_x rt (read64 g.2.host a)).set_pc (g.1.pc + 4#64), g.2)

/-- The word decodes; the block of the lone instruction, entered in state `s`, loads from the A64
address and from no other one, and returns with the register loaded and all else as it was; and so
does the interpreter. -/
def LoadsLiteral (f : A64.LoadLiteral) (w : BitVec 32) (g : Guest) (host_code : Word) (host : Mem)
    (s : State) : Prop :=
  let a := f.address g.1.pc
  let g' := loaded g f.rt.toNat a
  ∃ d s', decode? w = some d ∧ Returns (block_code [d] g.1.pc host_code host) s s' ∧
    Observes guestLoad (block_code [d] g.1.pc host_code host) s a ∧ HoldsGuest (s.reg rdi) s'.mem g' ∧
    execute_decoded g d = g'

section Literal

variable {f : A64.LoadLiteral} {w : BitVec 32} {g : Guest} {host_code : Word} {s : State}

theorem literal_rt (w : BitVec 32) : (literal_record w).rt.toNat = (w.extractLsb' 0 5).toNat :=
  toNat_setWidth_arm _

/-- The interpreter loads from the A64 address. -/
theorem execute_literal (h : A64.LoadLiteral.ofWord? w = some f)
    (hp : g.2.check_perms (f.address g.1.pc) 8 PROT_READ = true) :
    execute_decoded g (literal_record w) = loaded g f.rt.toNat (f.address g.1.pc) := by
  obtain ⟨-, rfl⟩ := decode?_literal h
  have haddr : ldr_addr g.1 (literal_record w) =
      (⟨w.extractLsb' 0 5, w.extractLsb' 5 19⟩ : A64.LoadLiteral).address g.1.pc := by
    have h4 : ∀ x : Word, x <<< 2 = 4#64 * x := by
      intro x
      rw [BitVec.shiftLeft_eq_mul_twoPow, BitVec.mul_comm]
      rfl
    show g.1.pc + (w.extractLsb' 5 19).signExtend 64 <<< 2 = _
    rw [h4]
    rfl
  have hpc : ∀ v, (g.1.set_x (literal_record w).rt.toNat v).pc = g.1.pc := by
    intro v
    have hne : 32 ≠ (literal_record w).rt.toNat := by
      have hlt := (w.extractLsb' 0 5).isLt
      rw [literal_rt]
      omega
    simp [CPUContext.pc, CPUContext.set_x, hne]
  rw [execute_ldr64 rfl, haddr, MemoryManager.read_u64, if_pos hp, ExecEngine.load, set_reg, next,
    BitVec.setWidth_eq, hpc, literal_rt]
  rfl

/-- The block loads from the base register, which is SP. -/
theorem host_addr_literal (w : BitVec 32) (ctx : CPUContext) :
    host_addr ctx (literal_record w) = ctx.sp := BitVec.add_zero _

theorem instrIr_literal (w : BitVec 32) (pc : Word) :
    instrIr (literal_record w) pc = [loadIr .LOAD64 (literal_record w)] := by
  simp [instrIr, build_instr, literal_record, IRBuilder.load, loadIr, IRBlock.push_back]

theorem isArm_literal (w : BitVec 32) : IsArm (literal_record w).rn ∧ IsArm (literal_record w).rt := by
  refine ⟨(by decide : IsArm 31#8), ?_⟩
  rw [IsArm, literal_rt]
  exact (w.extractLsb' 0 5).isLt

theorem observes_literal (w : BitVec 32) (hb : host_code ≠ 0#64) (host : Mem)
    (hctx : CtxAt s.mem (s.reg rdi) g.1) (a : Word) :
    Observes guestLoad (block_code [literal_record w] g.1.pc host_code host) s a ↔ g.1.sp = a := by
  rw [observes_load (.inl rfl) (instrIr_literal w _) (isArm_literal w).1 hb host hctx,
    host_addr_literal]

/-- **LDR (literal)**: the block loads from the A64 address exactly if that happens to be in `sp`. -/
theorem loadsLiteral_iff (h : A64.LoadLiteral.ofWord? w = some f)
    (hp : g.2.check_perms (f.address g.1.pc) 8 PROT_READ = true) (hb : host_code ≠ 0#64) (host : Mem)
    (hctx : CtxAt s.mem (s.reg rdi) g.1) (hmem : s.mem = g.2.host) :
    LoadsLiteral f w g host_code host s ↔ g.1.sp = f.address g.1.pc := by
  obtain ⟨hdec, hf⟩ := decode?_literal h
  have hobs := observes_literal w hb host hctx (f.address g.1.pc)
  constructor
  · rintro ⟨d, s', hd, -, ho, -⟩
    obtain rfl := Option.some.inj (hdec.symm.trans hd)
    exact hobs.mp ho
  · intro hsp
    obtain ⟨hrn, hrt⟩ := isArm_literal w
    obtain ⟨s', hret, hs'⟩ := returns_load (.inl rfl) (instrIr_literal w _) hrn hrt hb host hctx
    have he : (literal_record w).rt.toNat = f.rt.toNat := by rw [literal_rt, hf]
    have hlt := f.rt.isLt
    have hw : CPUContext.words = 104 := rfl
    have hold : HoldsGuest (s.reg rdi) g.2.host g := holdsGuest_host (hmem ▸ hctx)
    rw [host_addr_literal, hsp, he, hmem] at hs'
    refine ⟨_, s', hdec, (hret s').mpr rfl, hobs.mpr hsp, ?_, execute_literal h hp⟩
    rw [hs']
    exact (hold.set (by omega) _).set (by omega) _

/-- 7 in `x1`, and 0x1008 in `sp`, at 0x1000. -/
def seven_in_x1 : CPUContext := ((CPUContext.zero.set_x 1 7#64).set 31 0x1008#64).set_pc 0x1000#64

/-- Memory that can be read, with the context at 0. -/
def seven_guest : Guest := (seven_in_x1, { (open_state .zero).2 with host := ctx_mem seven_in_x1 })

/-- `ldr x1, .+8`, whose address is in `sp` already. -/
theorem loadsLiteral_iff_sp :
    LoadsLiteral ⟨1#5, 2#19⟩ 0x58000041#32 seven_guest 0x8000#64 (fun _ => 0#8) (holding seven_in_x1) := by
  have hword : A64.LoadLiteral.ofWord? 0x58000041#32 = some ⟨1#5, 2#19⟩ := by decide
  have hperms : seven_guest.2.check_perms ((⟨1#5, 2#19⟩ : A64.LoadLiteral).address seven_guest.1.pc) 8
      PROT_READ = true := by decide
  have hsp : seven_guest.1.sp = (⟨1#5, 2#19⟩ : A64.LoadLiteral).address seven_guest.1.pc := by decide
  exact (loadsLiteral_iff hword hperms (by decide) _ (ctxAt_holding _) rfl).mpr hsp

/-- The block of `ldr x1, .+8` at 0 loads from 0. -/
theorem not_loadsLiteral_forward :
    A64.LoadLiteral.ofWord? 0x58000041#32 = some ⟨1#5, 2#19⟩ ∧
      (open_state .zero).2.check_perms 8#64 8 PROT_READ = true ∧
      ¬ LoadsLiteral ⟨1#5, 2#19⟩ 0x58000041#32 (open_state .zero) 0x8000#64 (fun _ => 0#8) .cleared := by
  refine ⟨by decide, by decide, ?_⟩
  rintro ⟨d, s', hd, -, ho, -⟩
  have hdec : decode? 0x58000041#32 = some (literal_record 0x58000041#32) := by decide
  obtain rfl := Option.some.inj (hdec.symm.trans hd)
  have hctx : CtxAt State.cleared.mem (State.cleared.reg rdi) (open_state .zero).1 := ctxAt_zero _
  have hsp := (observes_literal 0x58000041#32 (by decide) _ hctx _).mp ho
  exact absurd hsp (by decide)

end Literal

/-! ## ADR and ADRP -/

/-- The word decodes; at every address the IR is one MOV_IMM of the A64 address to `rd`, and the
interpreter writes the A64 address to `rd` and goes on. -/
structure FindsAddress (f : A64.PcRel) (w : BitVec 32) : Prop where
  ok : (decode w).1 = true
  build : ∀ pc block, ∃ ir, build_instr (decode w).2 pc block = some (block.push_back ir) ∧
    ir.op = .MOV_IMM ∧ ir.dest.toNat = f.rd.toNat ∧ ir.imm = f.address pc
  execute : ∀ g : Guest, execute_decoded g (decode w).2 =
    ((g.1.set_x f.rd.toNat (f.address g.1.pc)).set_pc (g.1.pc + 4#64), g.2)

section PcRel

variable {f : A64.PcRel} {w : BitVec 32}

/-- The address in the source's terms. -/
theorem address_pcrel (h : A64.PcRel.ofWord? w = some f) (pc : Word) : f.address pc =
    if f.page then (pc &&& ~~~0xFFF#64) + ((pcrel_record w f.page).imm_s <<< 12)
    else pc + (pcrel_record w f.page).imm_s := by
  obtain ⟨hf, -⟩ := top_of_pcrel h
  have hshift : ∀ x : Word, x * 4096#64 = x <<< 12 := by
    intro x
    rw [BitVec.shiftLeft_eq_mul_twoPow]
    rfl
  rw [A64.PcRel.address, hshift, hf]
  rfl

theorem build_pcrel (h : A64.PcRel.ofWord? w = some f) (pc : Word) (block : IRBlock) :
    ∃ ir, build_instr (pcrel_record w f.page) pc block = some (block.push_back ir) ∧
      ir.op = .MOV_IMM ∧ ir.dest.toNat = f.rd.toNat ∧ ir.imm = f.address pc := by
  obtain ⟨hf, -⟩ := top_of_pcrel h
  have hdest : (reg (pcrel_record w f.page).rd).toNat = f.rd.toNat := by
    have hlt := f.rd.isLt
    have hrd : (pcrel_record w f.page).rd = f.rd.setWidth 8 := by
      rw [hf]
      rfl
    rw [reg, hrd]
    simp only [BitVec.toNat_setWidth]
    omega
  rw [address_pcrel h]
  cases hp : f.page with
  | false =>
    rw [hp] at hdest
    exact ⟨_, rfl, rfl, hdest, rfl⟩
  | true =>
    rw [hp] at hdest
    exact ⟨_, rfl, rfl, hdest, rfl⟩

theorem execute_pcrel (h : A64.PcRel.ofWord? w = some f) (g : Guest) :
    execute_decoded g (pcrel_record w f.page) =
      ((g.1.set_x f.rd.toNat (f.address g.1.pc)).set_pc (g.1.pc + 4#64), g.2) := by
  obtain ⟨hf, -⟩ := top_of_pcrel h
  have hrd : (pcrel_record w f.page).rd.toNat = f.rd.toNat := by
    rw [hf]
    exact toNat_setWidth_arm _
  have hset : execute_decoded g (pcrel_record w f.page) =
      set_reg g (pcrel_record w f.page).rd (f.address g.1.pc) := by
    rw [address_pcrel h]
    cases hp : f.page with
    | false => exact execute_adr rfl
    | true => exact execute_adrp rfl
  have hpc : (g.1.set_x f.rd.toNat (f.address g.1.pc)).pc = g.1.pc := by
    have hne : 32 ≠ f.rd.toNat := by
      have hlt := f.rd.isLt
      omega
    simp [CPUContext.pc, CPUContext.set_x, hne]
  rw [hset, set_reg, next, hrd, hpc]

/-- **ADR and ADRP**: the address is found in both engines, except by an ADR whose immediate is no
multiple of four; that does not decode. -/
theorem findsAddress_iff (h : A64.PcRel.ofWord? w = some f ∧ f.rd ≠ 31#5) :
    FindsAddress f w ↔ f.page = true ∨ f.imm21.extractLsb' 0 2 = 0#2 := by
  have hdec := decode_pcrel_word h.1
  constructor
  · intro hf
    by_contra hnot
    rw [if_neg hnot] at hdec
    exact absurd (hdec.symm.trans hf.ok) (by decide)
  · intro hin
    rw [if_pos hin] at hdec
    refine ⟨?_, ?_, ?_⟩ <;> rw [hdec]
    · exact build_pcrel h.1
    · exact execute_pcrel h.1

/-- `adrp x1, .-4096` -/
theorem findsAddress_iff_adrp : FindsAddress ⟨true, -1#21, 1#5⟩ 0xF0FFFFE1#32 ↔
    true = true ∨ (-1#21 : BitVec 21).extractLsb' 0 2 = 0#2 :=
  findsAddress_iff (f := ⟨true, -1#21, 1#5⟩) (by decide)

/-- `adr x0, .+1` does not decode. -/
theorem not_findsAddress_adr :
    A64.PcRel.ofWord? 0x30000000#32 = some ⟨false, 1#21, 0#5⟩ ∧
      ¬ FindsAddress ⟨false, 1#21, 0#5⟩ 0x30000000#32 := by
  refine ⟨by decide, fun h => ?_⟩
  exact absurd h.ok (by decide)

end PcRel

end ExecEngine

end Bbarm64
