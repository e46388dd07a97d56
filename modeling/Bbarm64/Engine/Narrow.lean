import Bbarm64.Engine.AddSub
import Bbarm64.Engine.Fallback
import Bbarm64.Engine.MoveWide

/-!
# Engine.Narrow — 32-bit ADD, SUB, moves and shifts in the two engines

Neither engine looks at the size of these: ADD and SUB leave the 64-bit result, MOVN the 64-bit
complement in the interpreter and the bare immediate in the block.  Of the shifts ASR decodes as SBFX,
which neither engine has, and LSL and LSR do not decode.
-/

namespace Bbarm64

open X86 ARM64Decoder IRBuilder IRLowering

namespace ExecEngine

/-- The word decodes; its block, entered in state `s`, returns with the 32-bit result in `rd`, and so
does the interpreter. -/
def LeavesNarrow (i : A64.Narrow) (w : BitVec 32) (g : Guest) (host_code : Word) (host : Mem)
    (s : State) : Prop :=
  let d := (decode w).2
  let v := i.value (base g.1 i.rn)
  (decode w).1 = true ∧ ∃ s', Returns (block_code [d] g.1.pc host_code host) s s' ∧
    X86.word s'.mem (s.reg rdi) (8 * i.rd.toNat) = v ∧ (execute_decoded g d).1.x i.rd.toNat = v

/-- ADD has no carry out of bit 31, or has one out of bit 63 too; SUB has no borrow and a result below
`2 ^ 32`; a move is MOVZ; ASR finds its result in `rd`. -/
def NarrowInPlace (i : A64.Narrow) (g : Guest) : Prop :=
  let x := base g.1 i.rn
  match i with
  | .addSub f =>
    if f.sub then f.imm.toNat ≤ x.toNat ∧ x.toNat < f.imm.toNat + 2 ^ 32
    else x.toNat + f.imm.toNat < 2 ^ 32 ∨ 2 ^ 64 ≤ x.toNat + f.imm.toNat
  | .move f => f.op = .movz
  | .shift f => f.kind = .asr ∧ g.1.x f.rd.toNat = i.value x

section Narrow

variable {i : A64.Narrow} {w : BitVec 32} {g : Guest} {host_code : Word} {s : State}

/-- If the block and the interpreter leave a value each. -/
theorem leavesNarrow_of (hdec : (decode w).1 = true) {s' : State}
    (hret : ∀ s₁, Returns (block_code [(decode w).2] g.1.pc host_code host) s s₁ ↔ s₁ = s')
    {v v' : Word} (hv : X86.word s'.mem (s.reg rdi) (8 * i.rd.toNat) = v)
    (hv' : (execute_decoded g (decode w).2).1.x i.rd.toNat = v') :
    LeavesNarrow i w g host_code host s ↔
      v = i.value (base g.1 i.rn) ∧ v' = i.value (base g.1 i.rn) := by
  unfold LeavesNarrow
  simp only [hret, exists_eq_left, hv, hv', hdec, true_and]

theorem leavesNarrow_addSub {f : A64.AddSubImm} (h : A64.AddSubImm.ofWord? w = some f)
    (hb : host_code ≠ 0#64) (host : Mem) (hctx : CtxAt s.mem (s.reg rdi) g.1)
    (hstack : StackClear s (s.reg rdi)) : LeavesNarrow (.addSub f) w g host_code host s ↔
      f.result (base g.1 f.rn) = A64.Narrow.value (.addSub f) (base g.1 f.rn) := by
  have hle : f.rd.toNat ≤ 31 := Nat.le_of_lt_succ f.rd.isLt
  have hdec : decode w = (true, add_sub_record w) := decode_add_sub (addSub_class h).1
  obtain ⟨s', hret, hword⟩ := returns_addSub h hb host hctx hstack
  have hx : (execute_decoded g (decode w).2).1.x f.rd.toNat = f.result (base g.1 f.rn) := by
    rw [hdec, CPUContext.x, execute_addSub_word h hle, if_pos rfl]
  rw [leavesNarrow_of (i := .addSub f) (by rw [hdec]) (by rwa [hdec])
    ((hword _ hle).trans (if_pos rfl)) hx]
  exact and_self_iff

theorem leavesNarrow_move {f : A64.MoveWide} (h : A64.MoveWide.ofWord? w = some f)
    (hsf : f.sf = false) (hop : f.op = .movn ∨ f.op = .movz ∧ f.hw = 0#2) (hb : host_code ≠ 0#64)
    (host : Mem) (hctx : CtxAt s.mem (s.reg rdi) g.1) :
    LeavesNarrow (.move f) w g host_code host s ↔ f.op = .movz := by
  have hlt := f.rd.isLt
  have h32 : f.rd.toNat ≠ 32 := by omega
  have hrd : ∀ k ∈ [f], k.rd = f.rd := by simp
  obtain ⟨hdec, hmove⟩ := isMove_of_words (.cons h .nil) hrd w List.mem_cons_self
  have hlast := lastImm_words (.cons h .nil) (g.1.x f.rd.toNat)
  have hmoves : ∀ d ∈ [(decode w).2], IsMove (f.rd.setWidth 8) d := by simpa using hmove
  obtain ⟨s', hret, hctx'⟩ := returns_moves hmoves (isArm_setWidth f.rd) (by simp [max_instr]) hb host
    g.1.pc hctx
  have hword : X86.word s'.mem (s.reg rdi) (8 * f.rd.toNat) = f.imm16.setWidth 64 := by
    rw [hctx' _ (Nat.lt_of_lt_of_le hlt (by decide)), toNat_setWidth_arm]
    simpa [CPUContext.set_pc, CPUContext.set_x, h32] using hlast
  have hx : (execute_decoded g (decode w).2).1.x f.rd.toNat =
      interpreted f (g.1.x f.rd.toNat) := foldl_execute (.cons h .nil) hrd g
  rw [leavesNarrow_of (i := .move f) hdec hret hword hx]
  rcases hop with hop | ⟨hop, hhw⟩
  · have hne := f.movn_ne_value h hsf hop (g.1.x f.rd.toNat)
    have hnz : ¬ f.op = .movz := by
      rw [hop]
      decide
    rw [interpreted, if_neg hnz, base_eq]
    exact iff_of_false (fun hv => hne hv.2) hnz
  · have hv : ∀ x, A64.Narrow.value (.move f) x = f.imm16.setWidth 64 := by
      intro x
      simp [A64.Narrow.value, A64.MoveWide.result, A64.MoveWide.pos, hop, hhw]
    rw [interpreted, if_pos hop, hv, and_self_iff]
    exact iff_of_true rfl hop

theorem leavesNarrow_shift {f : A64.ShiftImm} (h : A64.ShiftImm.ofWord? w = some f)
    (hsf : f.sf = false) (hb : host_code ≠ 0#64) (host : Mem) (hctx : CtxAt s.mem (s.reg rdi) g.1) :
    LeavesNarrow (.shift f) w g host_code host s ↔
      f.kind = .asr ∧ g.1.x f.rd.toNat = A64.Narrow.value (.shift f) (base g.1 f.rn) := by
  have hshift := isShift_of_ofWord? h
  have htop := hshift.top
  have himms := hshift.imms
  rw [hsf] at htop himms
  by_cases hasr : f.kind = .asr
  · rw [if_pos hasr] at htop
    rw [hasr] at himms
    obtain ⟨hdec, hop⟩ := decode_asr32 hshift.six htop (by simpa using himms)
    have hcases : (decode w).2.opcode ∉ build_cases := by
      rw [hop]
      decide
    have hlt := f.rd.isLt
    obtain ⟨s', hret, hmem⟩ := returns_default hcases g.1.pc hb host s
    have hword : X86.word s'.mem (s.reg rdi) (8 * f.rd.toNat) = g.1.x f.rd.toNat := by
      rw [hmem, word_write_ne (by omega) (by omega) (by omega)]
      exact hctx _ (Nat.lt_of_lt_of_le hlt (by decide))
    have hx : (execute_decoded g (decode w).2).1.x f.rd.toNat = g.1.x f.rd.toNat := by
      have h32 : f.rd.toNat ≠ 32 := by omega
      have h103 : f.rd.toNat ≠ 103 := by omega
      rw [execute_sbfx hop]
      simp [next, crash, CPUContext.x, CPUContext.set_pc, CPUContext.set_state_flags, h32, h103]
    rw [leavesNarrow_of (i := .shift f) hdec hret hword hx, and_self_iff]
    exact (and_iff_right hasr).symm
  · rw [if_neg hasr] at htop
    have hdec := decode_ubfm32 hshift.six htop
    constructor
    · rintro ⟨hdec', -⟩
      exact absurd (hdec.symm.trans hdec') (by decide)
    · rintro ⟨hasr', -⟩
      exact absurd hasr' hasr

/-- **32-bit results**: the two engines leave them, extended with zeros, exactly where the 64-bit ones
are the same; MOVN, LSL and LSR are never among these. -/
theorem leavesNarrow_iff (h : i.OfWord w) (hb : host_code ≠ 0#64) (host : Mem)
    (hctx : CtxAt s.mem (s.reg rdi) g.1) (hstack : StackClear s (s.reg rdi)) :
    LeavesNarrow i w g host_code host s ↔ NarrowInPlace i g := by
  cases i with
  | addSub f => rw [leavesNarrow_addSub h.1 hb host hctx hstack, f.result_eq_value_iff]; rfl
  | move f => exact leavesNarrow_move h.1 h.2.1 h.2.2 hb host hctx
  | shift f => exact leavesNarrow_shift h.1 h.2 hb host hctx

end Narrow

/-- `add w1, w2, #1` of 7. -/
theorem leavesNarrow_iff_add :
    LeavesNarrow (.addSub ⟨false, false, false, false, 1#12, 2#5, 1#5⟩) 0x11000441#32
      (twelve_in_x1, .new (ctx_mem twelve_in_x1)) 0x8000#64 (fun _ => 0#8) (holding twelve_in_x1) := by
  have hsum : NarrowInPlace (.addSub ⟨false, false, false, false, 1#12, 2#5, 1#5⟩)
      (twelve_in_x1, .new (ctx_mem twelve_in_x1)) := by
    unfold NarrowInPlace
    decide
  exact (leavesNarrow_iff (by decide) (by decide) _ (ctxAt_holding _) (stackClear_holding _)).mpr hsum

/-- `sub w1, w2, #1` in a cleared state leaves 64 ones. -/
theorem not_leavesNarrow_sub :
    A64.Narrow.OfWord 0x51000441#32 (.addSub ⟨false, true, false, false, 1#12, 2#5, 1#5⟩) ∧
      ¬ LeavesNarrow (.addSub ⟨false, true, false, false, 1#12, 2#5, 1#5⟩) 0x51000441#32
        (.zero, .new fun _ => 0#8) 0x8000#64 (fun _ => 0#8) stacked := by
  refine ⟨by decide, ?_⟩
  rintro ⟨-, s', -, -, hx⟩
  exact absurd hx (by decide)

end ExecEngine

end Bbarm64
