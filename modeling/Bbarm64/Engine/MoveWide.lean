import Bbarm64.Decoder.ImmediateForms
import Bbarm64.Engine.Compile
import Bbarm64.Engine.Interp

/-!
# Engine.MoveWide — MOVZ, MOVN and MOVK in the two engines

The record of a wide move does not have the halfword.  The interpreter gets it from the word for MOVN
and MOVK, but not for MOVZ; the block has one `MOV_IMM` for all three.
-/

namespace Bbarm64

open X86 ARM64Decoder IRBuilder IRLowering

namespace ExecEngine

/-- A wide move to `r`. -/
structure IsMove (r : Byte) (d : DecodedInstr) : Prop where
  opcode : d.opcode = 0x21#8 ∨ d.opcode = 0x22#8 ∨ d.opcode = 0x23#8
  category : d.category = .MOVE
  rd : d.rd = r

def moveIr (d : DecodedInstr) : IRInst where
  op := .MOV_IMM
  dest := reg d.rd
  imm := d.imm
  size := if d.size ≠ 0#8 then 8#8 else 4#8

/-- The immediate of the last move, or what was there. -/
def lastImm (x : Word) (ds : List DecodedInstr) : Word := ds.foldl (fun _ d => d.imm) x

/-! ## The blocks -/

section Blocks

variable {r : Byte} {d : DecodedInstr} {ds : List DecodedInstr} {ctx : CPUContext} {c : Word}
  {s : State}

theorem instrIr_move (hd : IsMove r d) (pc : Word) : instrIr d pc = [moveIr d] := by
  rcases hd.opcode with h | h | h <;>
    simp [instrIr, build_instr, h, mov_imm, moveIr, IRBlock.push_back]

theorem lowerAsm_move (d : DecodedInstr) (ft : Word) : lowerAsm ft (moveIr d) =
    [.movRI (hostReg (reg d.rd)) d.imm, stArm (hostReg (reg d.rd)) d.rd] := by
  simp [lowerAsm, moveIr]

theorem length_moves (ds : List DecodedInstr) (ft : Word) :
    ((ds.map moveIr).flatMap (lowerAsm ft)).length = 2 * ds.length := by
  induction ds with
  | nil => rfl
  | cons d ds ih =>
    rw [List.map_cons, List.flatMap_cons, List.length_append, ih, lowerAsm_move, List.length_cons]
    simp only [List.length_cons, List.length_nil]
    omega

theorem run_move (hr : IsArm d.rd) (hc : s.reg r12 = c) (ft : Word) :
    (execAll (lowerAsm ft (moveIr d)) s).mem = writeN 8 s.mem (off c (8 * d.rd.toNat)) d.imm := by
  have hne : r12 ≠ hostReg (reg d.rd) := (free_hostReg _).1.symm
  have hc' : (exec (.movRI (hostReg (reg d.rd)) d.imm) s).reg r12 = c := by simp [exec, hne, hc]
  rw [lowerAsm_move, execAll_cons, execAll_cons, execAll_nil, exec_stArm_mem hc' hr]
  simp [exec]

theorem set_x_set_x (ctx : CPUContext) (i : ℕ) (v w : Word) :
    (ctx.set_x i v).set_x i w = ctx.set_x i w := by
  refine CPUContext.ext fun j => ?_
  simp only [CPUContext.set_x, CPUContext.set_word]
  split_ifs <;> rfl

theorem set_x_self (ctx : CPUContext) (i : ℕ) : ctx.set_x i (ctx.x i) = ctx := by
  refine CPUContext.ext fun j => ?_
  simp only [CPUContext.set_x, CPUContext.set_word, CPUContext.x]
  split_ifs with hj
  · rw [hj]
  · rfl

/-- The context behind a list of moves: the last one wins. -/
theorem run_moves (hds : ∀ d ∈ ds, IsMove r d) (hr : IsArm r) (hc : s.reg r12 = c)
    (hctx : CtxAt s.mem c ctx) (ft : Word) :
    CtxAt (runIr ft (ds.map moveIr) s).mem c
      ((ctx.set_x r.toNat (lastImm (ctx.x r.toNat) ds)).set_pc ft) := by
  induction ds generalizing ctx s with
  | nil =>
    show CtxAt (setPc ft s).mem c ((ctx.set_x r.toNat (ctx.x r.toNat)).set_pc ft)
    rw [set_x_self, setPc_mem hc]
    exact hctx.write (by decide) ft
  | cons d ds ih =>
    have hd := hds d List.mem_cons_self
    have hnr : ¬ Returning (moveIr d).op := (by decide : ¬ Returning .MOV_IMM)
    have hc₁ := (lowerAsm_r12 ft hnr s).trans hc
    have hctx₁ : CtxAt (execAll (lowerAsm ft (moveIr d)) s).mem c (ctx.set_x r.toNat d.imm) := by
      rw [run_move (hd.rd ▸ hr) hc, hd.rd]
      exact hctx.write (Nat.lt_of_lt_of_le hr (by decide)) d.imm
    have hx : (ctx.set_x r.toNat d.imm).x r.toNat = d.imm := if_pos rfl
    have h := ih (fun d' hd' => hds d' (List.mem_cons_of_mem _ hd')) hc₁ hctx₁
    rw [List.map_cons, runIr, if_neg hnr]
    rwa [hx, set_x_set_x] at h

theorem irFrom_moves (hds : ∀ d ∈ ds, IsMove r d) (pc : Word) (i : ℕ) :
    irFrom pc i ds = ds.map moveIr := by
  induction ds generalizing i with
  | nil => rfl
  | cons d ds ih =>
    have hd := hds d List.mem_cons_self
    rw [irFrom, instrIr_move hd, hd.category, ih fun d' hd' => hds d' (List.mem_cons_of_mem _ hd')]
    rfl

theorem blockIr_moves (hds : ∀ d ∈ ds, IsMove r d) (pc : Word) : blockIr ds pc = ds.map moveIr := by
  rw [blockIr, irFrom_moves hds]
  exact merge_of_flags (by simp [moveIr])

/-- **A block of moves.** -/
theorem returns_moves (hds : ∀ d ∈ ds, IsMove r d) (hr : IsArm r) (hlen : ds.length ≤ max_instr)
    {host_code : Word} (hb : host_code ≠ 0#64) (host : Mem) (pc : Word)
    (hctx : CtxAt s.mem (s.reg rdi) ctx) :
    ∃ s', (∀ s₁, Returns (block_code ds pc host_code host) s s₁ ↔ s₁ = s') ∧
      CtxAt s'.mem (s.reg rdi)
        ((ctx.set_x r.toNat (lastImm (ctx.x r.toNat) ds)).set_pc (fallthrough ds pc)) := by
  have hir := blockIr_moves hds pc
  have hl : ∀ ir ∈ blockIr ds pc, Lowerable ir := by
    rw [hir]
    simp [moveIr, Lowerable]
  have hsize : size (blockInstrs ds pc) ≤ slot_size := by
    have hbytes := size_le_length (blockInstrs ds pc)
    have hmax : max_instr = 64 := rfl
    have hslot : slot_size = 4096 := rfl
    have hcount : (blockInstrs ds pc).length = 2 * ds.length + 4 := by
      rw [blockInstrs, hir, blockAsm, List.length_append, List.length_cons, length_moves]
      rfl
    omega
  refine ⟨(runIr (fallthrough ds pc) (ds.map moveIr) (enter s)).popRet, fun s₁ => ?_,
    run_moves hds hr (enter_r12 s) hctx (fallthrough ds pc)⟩
  rw [block_code_eq_of_lowerable hl hb hsize, blockInstrs, returns_iff, hir]

/-- The blocks are run one after another, each from a host state that holds what the last one left:
they return, and register `r` is `v` in the end. -/
def BlocksLeave (r : ℕ) (v : Word) : List (List DecodedInstr) → CPUContext → Prop
  | [], ctx => ctx.x r = v
  | ds :: rest, ctx => ∀ host_code host s, host_code ≠ 0#64 → CtxAt s.mem (s.reg rdi) ctx →
      ∃ s' ctx', Returns (block_code ds ctx.pc host_code host) s s' ∧
        CtxAt s'.mem (s.reg rdi) ctx' ∧ BlocksLeave r v rest ctx'

theorem exists_entry (ctx : CPUContext) : ∃ s : State, CtxAt s.mem (s.reg rdi) ctx :=
  ⟨holding ctx, ctxAt_holding ctx⟩

/-- Blocks of moves leave the last immediate, however the list is cut. -/
theorem blocksLeave_moves (hr : IsArm r) {v : Word} {dss : List (List DecodedInstr)}
    (hds : ∀ ds ∈ dss, (∀ d ∈ ds, IsMove r d) ∧ ds.length ≤ max_instr) (ctx : CPUContext) :
    BlocksLeave r.toNat v dss ctx ↔ lastImm (ctx.x r.toNat) dss.flatten = v := by
  induction dss generalizing ctx with
  | nil => exact Iff.rfl
  | cons ds rest ih =>
    obtain ⟨hmoves, hlen⟩ := hds ds List.mem_cons_self
    have hrest := ih fun ds' hds' => hds ds' (List.mem_cons_of_mem _ hds')
    have hlt : r.toNat < 32 := hr
    have hflat : lastImm (ctx.x r.toNat) (ds :: rest).flatten =
        lastImm (lastImm (ctx.x r.toNat) ds) rest.flatten := by
      rw [List.flatten_cons, lastImm, List.foldl_append]
      rfl
    -- the register behind the first block, in any context that is held there
    have hx : ∀ {host_code host s s' ctx'}, host_code ≠ 0#64 → CtxAt s.mem (s.reg rdi) ctx →
        Returns (block_code ds ctx.pc host_code host) s s' → CtxAt s'.mem (s.reg rdi) ctx' →
        ctx'.x r.toNat = lastImm (ctx.x r.toNat) ds := by
      intro host_code host s s' ctx' hb hctx hs hctx'
      obtain ⟨s₁, hret, hs₁⟩ := returns_moves hmoves hr hlen hb host ctx.pc hctx
      obtain rfl := (hret s').mp hs
      have hreg : r.toNat < CPUContext.words := Nat.lt_of_lt_of_le hlt (by decide)
      rw [CPUContext.x, ← hctx' _ hreg, hs₁ _ hreg]
      simp [CPUContext.set_pc, CPUContext.set_x, show r.toNat ≠ 32 by omega]
    rw [hflat]
    constructor
    · intro h
      obtain ⟨s, hctx⟩ := exists_entry ctx
      have hb : 1#64 ≠ 0#64 := by decide
      obtain ⟨s', ctx', hs, hctx', hleave⟩ := h 1#64 (fun _ => 0#8) s hb hctx
      rw [← hx hb hctx hs hctx']
      exact (hrest ctx').mp hleave
    · intro h host_code host s hb hctx
      obtain ⟨s', hret, hctx'⟩ := returns_moves hmoves hr hlen hb host ctx.pc hctx
      have hs := (hret s').mpr rfl
      refine ⟨s', _, hs, hctx', (hrest _).mpr ?_⟩
      rw [hx hb hctx hs hctx']
      exact h

end Blocks

/-! ## The interpreter -/

section Interpreter

variable {w : BitVec 32} {f : A64.MoveWide} {rd : BitVec 5} {ws : List (BitVec 32)}
  {fs : List A64.MoveWide} {g : Guest}

/-- The interpreter leaves out the halfword of MOVZ. -/
def interpreted (f : A64.MoveWide) (x : Word) : Word :=
  if f.op = .movz then f.imm16.setWidth 64 else f.result x

theorem hw_eq (w : BitVec 32) :
    ((w >>> 21) &&& 3#32).toNat * 16 = 16 * (w.extractLsb' 21 2).toNat := by
  rw [BitVec.toNat_and, BitVec.extractLsb'_toNat, BitVec.toNat_ushiftRight]
  rw [show (3#32).toNat = 2 ^ 2 - 1 from rfl, Nat.and_two_pow_sub_one_eq_mod, Nat.mul_comm]

theorem execute_move (h : A64.MoveWide.ofWord? w = some f) : execute_decoded g (decode w).2 =
    set_reg g (f.rd.setWidth 8) (interpreted f (g.1.x f.rd.toNat)) := by
  obtain ⟨hdec, hhw, himm, hrd⟩ := decode_move_wide h
  have hpos : ((w >>> 21) &&& 3#32).toNat * 16 = f.pos := by
    rw [A64.MoveWide.pos, hhw]
    exact hw_eq w
  have hx : g.1.x (move_record w f.op).rd.toNat = g.1.x f.rd.toNat := by
    rw [hrd]
    exact congrArg _ (toNat_setWidth_arm _)
  have hmask : (0xFFFF#16).setWidth 64 = 0xFFFF#64 := by decide
  rw [hdec, interpreted, A64.MoveWide.result, hmask, ← hpos, himm, hrd]
  cases hop : f.op with
  | movn => exact execute_movn rfl
  | movz => exact execute_movz rfl
  | movk =>
    rw [hop] at hx
    rw [execute_movk rfl, hx, hrd]
    rfl

/-- The records of a list of moves. -/
theorem isMove_of_words (h : List.Forall₂ (fun w f => A64.MoveWide.ofWord? w = some f) ws fs)
    (hrd : ∀ f ∈ fs, f.rd = rd) : ∀ w ∈ ws, (decode w).1 = true ∧
      IsMove (rd.setWidth 8) (decode w).2 := by
  induction h with
  | nil => exact List.forall_mem_nil _
  | @cons w f ws fs hw _ ih =>
    rw [List.forall_mem_cons]
    refine ⟨?_, ih fun f' hf' => hrd f' (List.mem_cons_of_mem _ hf')⟩
    obtain ⟨hdec, -, -, hrd'⟩ := decode_move_wide hw
    have hop : (move_record w f.op).opcode = move_opcode f.op := rfl
    rw [hdec]
    refine ⟨rfl, ?_, rfl, ?_⟩
    · rw [hop]
      cases f.op <;> simp [move_opcode]
    · rw [← hrd f List.mem_cons_self, hrd']
      rfl

theorem lastImm_words (h : List.Forall₂ (fun w f => A64.MoveWide.ofWord? w = some f) ws fs)
    (x : Word) : lastImm x (ws.map fun w => (decode w).2) =
      fs.foldl (fun _ f => f.imm16.setWidth 64) x := by
  induction h generalizing x with
  | nil => rfl
  | cons hw _ ih =>
    obtain ⟨hdec, -, himm, -⟩ := decode_move_wide hw
    rw [List.map_cons, List.foldl_cons, ← ih, hdec, himm]
    rfl

/-- **The interpreter** on a list of moves to one register. -/
theorem foldl_execute (h : List.Forall₂ (fun w f => A64.MoveWide.ofWord? w = some f) ws fs)
    (hrd : ∀ f ∈ fs, f.rd = rd) (g : Guest) :
    ((ws.map fun w => (decode w).2).foldl execute_decoded g).1.x rd.toNat =
      fs.foldl (fun x f => interpreted f x) (g.1.x rd.toNat) := by
  induction h generalizing g with
  | nil => rfl
  | @cons w f ws fs hw _ ih =>
    obtain rfl := hrd f List.mem_cons_self
    have hlt := f.rd.isLt
    have hx : (execute_decoded g (decode w).2).1.x f.rd.toNat =
        interpreted f (g.1.x f.rd.toNat) := by
      rw [execute_move hw, CPUContext.x, set_reg_word (isArm_setWidth _), if_neg (by omega),
        toNat_setWidth_arm, if_pos rfl]
    rw [List.map_cons, List.foldl_cons, List.foldl_cons,
      ih fun f' hf' => hrd f' (List.mem_cons_of_mem _ hf'), hx]

end Interpreter

/-! ## Sequences -/

section Sequence

variable {f : A64.MoveWide} {ks : List A64.MoveWide} {rd : BitVec 5} {wss : List (List (BitVec 32))}
  {g : Guest}

/-- The words decode; their blocks, however the sequence is cut, and the interpreter leave `v` in
register `r`. -/
def LeavesConstant (wss : List (List (BitVec 32))) (r : ℕ) (v : Word) (g : Guest) : Prop :=
  let dss := wss.map fun ws => ws.map fun w => (decode w).2
  (∀ w ∈ wss.flatten, (decode w).1 = true) ∧ BlocksLeave r v dss g.1 ∧
    (dss.flatten.foldl execute_decoded g).1.x r = v

/-- The halfword of MOVZ does not matter, or what it selects is overwritten; and the immediate of the
last word is the constant. -/
def ConstantInPlace (f : A64.MoveWide) (ks : List A64.MoveWide) : Prop :=
  (f.op = .movz → f.hw = 0#2 ∨ f.imm16 = 0#16 ∨
    (∃ k ∈ ks, k.hw = 0#2) ∧ ∃ k ∈ ks, k.hw = f.hw) ∧
  ∀ j, A64.constantHalfword f ks j = if j = 0#2 then (ks.getLastD f).imm16 else 0#16

theorem halfword_setWidth (v : BitVec 16) (j : BitVec 2) :
    A64.halfword (v.setWidth 64) j = if j = 0#2 then v else 0#16 := by
  have h := A64.halfword_shift v 0#2 j
  rwa [show 16 * (0#2).toNat = 0 from rfl, BitVec.shiftLeft_zero] at h

theorem foldl_last {α β : Type} (p : α → β) (a : α) (l : List α) (x : β) :
    (a :: l).foldl (fun _ b => p b) x = p (l.getLastD a) := by
  induction l generalizing a x with
  | nil => rfl
  | cons b l ih => rw [List.foldl_cons, ih, List.getLastD_cons]

/-- The block is right if the last immediate is the constant. -/
theorem last_eq_constant_iff (hseq : A64.MoveSeq rd f ks) :
    (ks.getLastD f).imm16.setWidth 64 = A64.constant (f :: ks) ↔
      ∀ j, A64.constantHalfword f ks j = if j = 0#2 then (ks.getLastD f).imm16 else 0#16 := by
  rw [eq_comm, A64.eq_iff_halfword]
  refine forall_congr' fun j => ?_
  rw [halfword_setWidth, A64.constant, List.foldl_cons, A64.halfword_foldl_movk hseq.movk,
    A64.constantHalfword]

theorem foldl_interpreted (hks : ∀ k ∈ ks, k.op = .movk) (x : Word) :
    ks.foldl (fun x k => interpreted k x) x = ks.foldl (fun x k => k.result x) x := by
  induction ks generalizing x with
  | nil => rfl
  | cons k ks ih =>
    have hk : interpreted k x = k.result x := if_neg (by rw [hks k List.mem_cons_self]; decide)
    rw [List.foldl_cons, List.foldl_cons, hk, ih fun k' hk' => hks k' (List.mem_cons_of_mem _ hk')]

/-- The interpreter is right if the halfword of MOVZ does not matter. -/
theorem interpreted_eq_constant_iff (hseq : A64.MoveSeq rd f ks) (x : Word) :
    (f :: ks).foldl (fun x f => interpreted f x) x = A64.constant (f :: ks) ↔
      (f.op = .movz → f.hw = 0#2 ∨ f.imm16 = 0#16 ∨
        (∃ k ∈ ks, k.hw = 0#2) ∧ ∃ k ∈ ks, k.hw = f.hw) := by
  rw [List.foldl_cons, foldl_interpreted hseq.movk, A64.constant, List.foldl_cons,
    A64.foldl_movk_eq_iff hseq.movk]
  cases hop : f.op with
  | movk => exact absurd hop hseq.op
  | movn =>
    have hsame : ∀ j, A64.halfword (interpreted f x) j = A64.halfword (f.result 0#64) j := by
      intro j
      rw [interpreted, hop, if_neg (by decide), f.halfword_result, f.halfword_result, hop]
    simp [hsame]
  | movz =>
    have hx : ∀ j, A64.halfword (interpreted f x) j = if j = 0#2 then f.imm16 else 0#16 := by
      intro j
      rw [interpreted, if_pos hop, halfword_setWidth]
    have hy : ∀ j, A64.halfword (f.result 0#64) j = if j = f.hw then f.imm16 else 0#16 := by
      intro j
      rw [f.halfword_result, hop]
    simp only [hx, hy, forall_true_left]
    by_cases hhw : f.hw = 0#2
    · simp [hhw]
    by_cases himm : f.imm16 = 0#16
    · simp [himm]
    constructor
    · intro h
      have h₀ := h 0#2
      have h₁ := h f.hw
      rw [if_pos rfl, if_neg (Ne.symm hhw)] at h₀
      rw [if_neg hhw, if_pos rfl] at h₁
      exact .inr (.inr ⟨h₀.resolve_left himm, h₁.resolve_left (Ne.symm himm)⟩)
    · intro h j
      obtain ⟨h₀, h₁⟩ := (h.resolve_left hhw).resolve_left himm
      by_cases hj₀ : j = 0#2
      · exact .inr (hj₀ ▸ h₀)
      by_cases hj₁ : j = f.hw
      · exact .inr (hj₁ ▸ h₁)
      · rw [if_neg hj₀, if_neg hj₁]
        exact .inl rfl

/-- **Constants from wide moves**: both engines build them exactly if MOVZ's halfword does not matter,
for the interpreter, and the immediate of the last word is the constant, for the block. -/
theorem leavesConstant_iff
    (h : List.Forall₂ (fun w k => A64.MoveWide.ofWord? w = some k) wss.flatten (f :: ks))
    (hseq : A64.MoveSeq rd f ks) (hlen : ∀ ws ∈ wss, ws.length ≤ max_instr) :
    LeavesConstant wss rd.toNat (A64.constant (f :: ks)) g ↔ ConstantInPlace f ks := by
  have hwords := isMove_of_words h hseq.rd
  have hflat : (wss.map fun ws => ws.map fun w => (decode w).2).flatten =
      wss.flatten.map fun w => (decode w).2 := List.map_flatten.symm
  have hblocks : ∀ ds ∈ wss.map fun ws => ws.map fun w => (decode w).2,
      (∀ d ∈ ds, IsMove (rd.setWidth 8) d) ∧ ds.length ≤ max_instr := by
    simp only [List.forall_mem_map, List.length_map]
    exact fun ws hws => ⟨fun w hw => (hwords w (List.mem_flatten.mpr ⟨ws, hws, hw⟩)).2, hlen ws hws⟩
  have hleave := blocksLeave_moves (isArm_setWidth rd) hblocks g.1 (v := A64.constant (f :: ks))
  rw [toNat_setWidth_arm, hflat, lastImm_words h, foldl_last fun k : A64.MoveWide =>
    k.imm16.setWidth 64, last_eq_constant_iff hseq] at hleave
  unfold LeavesConstant ConstantInPlace
  dsimp only
  rw [hleave, hflat, foldl_execute h hseq.rd, interpreted_eq_constant_iff hseq,
    and_iff_right fun w hw => (hwords w hw).1]
  exact and_comm

end Sequence

/-- `movz x1, #7, lsl #16`, `movk x1, #0, lsl #16` and `movk x1, #5`, the last one in a block of its
own. -/
theorem leavesConstant_iff_movk :
    let f : A64.MoveWide := ⟨true, .movz, 1#2, 7#16, 1#5⟩
    let ks : List A64.MoveWide := [⟨true, .movk, 1#2, 0#16, 1#5⟩, ⟨true, .movk, 0#2, 5#16, 1#5⟩]
    LeavesConstant [[0xD2A000E1#32, 0xF2A00001#32], [0xF28000A1#32]] 1 (A64.constant (f :: ks))
      (CPUContext.zero.set_x 1 9#64, .new fun _ => 0#8) := by
  intro f ks
  have hseq : A64.MoveSeq 1#5 f ks :=
    { sf := by decide, rd := by decide, op := by decide, movk := by decide }
  have hplace : ConstantInPlace f ks := by
    refine ⟨fun _ => .inr (.inr ⟨?_, ?_⟩), ?_⟩
    · exact ⟨_, List.mem_cons_of_mem _ (List.mem_singleton_self _), rfl⟩
    · exact ⟨_, List.mem_cons_self, rfl⟩
    · decide
  exact (leavesConstant_iff (.cons (by decide) (.cons (by decide) (.cons (by decide) .nil))) hseq
    (by decide)).mpr hplace

/-- `movz x1, #1, lsl #16` leaves 1. -/
theorem not_leavesConstant_lsl :
    A64.MoveWide.ofWord? 0xD2A00021#32 = some ⟨true, .movz, 1#2, 1#16, 1#5⟩ ∧
      ¬ LeavesConstant [[0xD2A00021#32]] 1 (A64.constant [⟨true, .movz, 1#2, 1#16, 1#5⟩])
        (.zero, .new fun _ => 0#8) := by
  refine ⟨by decide, ?_⟩
  rintro ⟨-, -, hx⟩
  exact absurd hx (by decide)

end ExecEngine

end Bbarm64
