import Bbarm64.Engine.FlagSave

/-!
# Engine.FlagFrame — what `save_nzcv` leaves alone

Its scratch space, bytes 512 to 535 of the context, is `v[14]` and the low half of `v[15]`.  RAX, RCX
and RDX come back from there, and `pushfq` and `pop` cancel out in RSP; R9 is left with the bit that
the shifts and the mask meant for RCX make of it.
-/

namespace Bbarm64

open X86 ARM64Decoder IRBuilder IRLowering

namespace ExecEngine

/-! ## Memory -/

/-- The scratch registers and the flags go to memory. -/
def headMem (s : State) (c : Word) : Mem :=
  let m := writeN 8 s.mem (off c 512) (s.reg rax)
  let m := writeN 8 m (off c 520) (s.reg rcx)
  let m := writeN 8 m (off c 528) (s.reg rdx)
  writeN 8 m (s.reg rsp - 8#64) (s.flags.image s.sys)

/-- The memory behind `save_nzcv`. -/
def savedMem (s : State) (c : Word) : Mem :=
  writeN 8 (headMem s c) (off c 272) (savedWord (s.flags.image s.sys))

section Frame

variable {s : State} {c : Word}

theorem saveHead_mem (hc : s.reg r12 = c) : (execAll saveHead s).mem = headMem s c := by
  let s₁ := s.setMem (writeN 8 s.mem (off c 512) (s.reg rax))
  let s₂ := s₁.setMem (writeN 8 s₁.mem (off c 520) (s.reg rcx))
  let s₃ := s₂.setMem (writeN 8 s₂.mem (off c 528) (s.reg rdx))
  have h₁ : exec (.store r12 512#32 rax) s = s₁ := exec_store_ctx hc (by decide) rax
  have h₂ : exec (.store r12 520#32 rcx) s₁ = s₂ := exec_store_ctx (s := s₁) hc (by decide) rcx
  have h₃ : exec (.store r12 528#32 rdx) s₂ = s₃ := exec_store_ctx (s := s₂) hc (by decide) rdx
  rw [saveHead, execAll_cons, h₁, execAll_cons, h₂, execAll_cons, h₃]
  rfl

theorem saveMid_mem (s : State) : (execAll saveMid s).mem = s.mem := by
  have hno : ∀ i ∈ saveMid, i.stores = false := by decide
  generalize saveMid = is at hno
  induction is generalizing s with
  | nil => rfl
  | cons i is ih =>
    rw [execAll_cons, ih _ fun j hj => hno j (by simp [hj]), exec_mem (hno i (by simp))]

theorem saveNzcv_mem (hc : s.reg r12 = c) : (execAll saveNzcv s).mem = savedMem s c := by
  obtain ⟨hrax, hrcx, -⟩ := saveHead_reg s
  have hr12 := saveMid_r12 hc
  have hstored := saveMid_stored hrax hrcx
  have hmem := (saveMid_mem (execAll saveHead s)).trans (saveHead_mem hc)
  rw [saveNzcv_parts, execAll_append, execAll_append]
  generalize execAll saveMid (execAll saveHead s) = s₁ at hr12 hstored hmem ⊢
  rw [execAll_cons, exec_store_ctx hr12 (by decide), hmem, hstored]
  rfl

/-- The stack slot of `pushfq` lies outside the context. -/
def StackClear (s : State) (c : Word) : Prop := Clear c (s.reg rsp - 8#64) 8

/-- **The words of the context**: the scratch registers are in three of them. -/
theorem savedMem_word (hstack : StackClear s c) {i : ℕ} (hi : i < CPUContext.words) :
    X86.word (savedMem s c) c (8 * i) =
      if i = 34 then savedWord (s.flags.image s.sys) else if i = 64 then s.reg rax
      else if i = 65 then s.reg rcx else if i = 66 then s.reg rdx else X86.word s.mem c (8 * i) := by
  have hw : CPUContext.words = 104 := rfl
  unfold savedMem headMem
  by_cases h34 : i = 34
  · rw [if_pos h34, h34, word_write_same]
  rw [if_neg h34, word_write_ne (by omega) (by omega) (by omega), hstack.word _ _ (by omega)]
  by_cases h64 : i = 64
  · rw [if_pos h64, h64, word_write_ne (by omega) (by omega) (by omega),
      word_write_ne (by omega) (by omega) (by omega), word_write_same]
  rw [if_neg h64]
  by_cases h65 : i = 65
  · rw [if_pos h65, h65, word_write_ne (by omega) (by omega) (by omega), word_write_same]
  rw [if_neg h65]
  by_cases h66 : i = 66
  · rw [if_pos h66, h66, word_write_same]
  rw [if_neg h66, word_write_ne (by omega) (by omega) (by omega),
    word_write_ne (by omega) (by omega) (by omega), word_write_ne (by omega) (by omega) (by omega)]

theorem savedMem_scratch (hstack : StackClear s c) : X86.word (savedMem s c) c 512 = s.reg rax ∧
    X86.word (savedMem s c) c 520 = s.reg rcx ∧ X86.word (savedMem s c) c 528 = s.reg rdx := by
  have h512 := savedMem_word hstack (by decide : 64 < CPUContext.words)
  have h520 := savedMem_word hstack (by decide : 65 < CPUContext.words)
  have h528 := savedMem_word hstack (by decide : 66 < CPUContext.words)
  simp only [Nat.reduceMul, Nat.reduceEqDiff, ↓reduceIte] at h512 h520 h528
  exact ⟨h512, h520, h528⟩

/-! ## Registers -/

theorem saveTail_mem (t : State) : (execAll saveTail t).mem = t.mem := rfl

/-- The tail loads the scratch registers. -/
theorem saveTail_reg {t : State} (hc : t.reg r12 = c) (q : Reg) : (execAll saveTail t).reg q =
    if q = rax then X86.word t.mem c 512 else if q = rcx then X86.word t.mem c 520
    else if q = rdx then X86.word t.mem c 528 else t.reg q := by
  let t₁ := t.setReg rdx (X86.word t.mem c 528)
  let t₂ := t₁.setReg rcx (X86.word t.mem c 520)
  have h₁ : exec (.load rdx r12 528#32) t = t₁ := exec_load_ctx hc (by decide) rdx
  have h₂ : exec (.load rcx r12 520#32) t₁ = t₂ := exec_load_ctx (s := t₁) hc (by decide) rcx
  have h₃ : exec (.load rax r12 512#32) t₂ = t₂.setReg rax (X86.word t.mem c 512) :=
    exec_load_ctx (s := t₂) hc (by decide) rax
  rw [saveTail, execAll_cons, h₁, execAll_cons, h₂, execAll_cons, h₃]
  rfl

/-- The bit that is left in R9. -/
def shiftedR9 (v : Word) : Word := (v >>> 7 &&& 1#64) <<< 28

theorem saveMid_r9 (s : State) : (execAll saveMid s).reg r9 = shiftedR9 (s.reg r9) := by
  simp +decide [saveMid, saveNzcv, exec, execShift, execAlu, AluOp.eval, ShiftOp.eval, shiftedR9]

/-- **The registers**: all but R9 come back. -/
theorem saveNzcv_reg (hc : s.reg r12 = c) (hstack : StackClear s c) (q : Reg) :
    (execAll saveNzcv s).reg q = if q = r9 then shiftedR9 (s.reg r9) else s.reg q := by
  by_cases hrsp : q = rsp
  · rw [if_neg (by rw [hrsp]; decide), hrsp, saveNzcv_rsp]
  let t := exec (.store r12 272#32 rcx) (execAll saveMid (execAll saveHead s))
  have ht : execAll saveNzcv s = execAll saveTail t := by
    rw [saveNzcv_parts, execAll_append, execAll_append, execAll_cons]
  have htc : t.reg r12 = c := by
    show (execAll saveMid (execAll saveHead s)).reg r12 = c
    exact saveMid_r12 hc
  have hmem : t.mem = savedMem s c := by rw [← saveNzcv_mem hc, ht, saveTail_mem]
  obtain ⟨h512, h520, h528⟩ := savedMem_scratch hstack
  rw [← hmem] at h512 h520 h528
  rw [ht, saveTail_reg htc, h512, h520, h528]
  by_cases hrax : q = rax
  · rw [if_pos hrax, hrax, if_neg (by decide)]
  rw [if_neg hrax]
  by_cases hrcx : q = rcx
  · rw [if_pos hrcx, hrcx, if_neg (by decide)]
  rw [if_neg hrcx]
  by_cases hrdx : q = rdx
  · rw [if_pos hrdx, hrdx, if_neg (by decide)]
  rw [if_neg hrdx]
  show (execAll saveMid (execAll saveHead s)).reg q = _
  split_ifs with hr9
  · rw [hr9, saveMid_r9, (saveHead_reg s).2.2]
  · -- no other register is written
    have hwr : ∀ i ∈ saveHead ++ saveMid, ∀ r ∈ i.writes, r ∈ [rsp, rax, rcx, rdx, r9] := by decide
    have hq : q ∉ [rsp, rax, rcx, rdx, r9] := by simp [hrsp, hrax, hrcx, hrdx, hr9]
    rw [← execAll_append, execAll_reg_of_notMem fun i hi hm => hq (hwr i hi q hm)]

/-- With flags or without: RAX, R12 and the words up to `lr` stay. -/
theorem saveNzcvIf_spec (hc : s.reg r12 = c) (hstack : StackClear s c) (set : Bool) :
    let s' := execAll (saveNzcvIf set) s
    s'.reg rax = s.reg rax ∧ s'.reg r12 = c ∧
      ∀ i ≤ 33, X86.word s'.mem c (8 * i) = X86.word s.mem c (8 * i) := by
  have hw : CPUContext.words = 104 := rfl
  cases set with
  | false => exact ⟨rfl, hc, fun _ _ => rfl⟩
  | true =>
    refine ⟨saveNzcv_reg hc hstack rax, (saveNzcv_reg hc hstack r12).trans hc, fun i hi => ?_⟩
    have hmem : (execAll (saveNzcvIf true) s).mem = savedMem s c := saveNzcv_mem hc
    rw [hmem, savedMem_word hstack (by omega)]
    rw [if_neg (by omega), if_neg (by omega), if_neg (by omega), if_neg (by omega)]

/-! ## The code -/

/-- The code `save_nzcv` emits. -/
def save_code (host_code : Word) (host : Mem) : List Byte :=
  (save_nzcv (.set_buffer host_code slot_size host)).code

theorem save_code_eq {host_code : Word} (hb : host_code ≠ 0#64) (host : Mem) :
    save_code host_code host = encodeAll saveNzcv := by
  have happ := X86_64Emitter.appends_bytes (.set_buffer host_code slot_size host) (encodeAll saveNzcv)
  have hsize : size saveNzcv ≤ slot_size := Nat.le_trans (size_le_length saveNzcv) (by decide)
  have hslot : slot_size ≤ 2 ^ 64 := by decide
  rw [save_code, save_nzcv_eq]
  exact happ.code_fresh hb hslot hsize

/-- The code, entered with the context pointer in R12, runs to its end and changes no word of the
context but `nzcv`, and no general register. -/
def SavesInPlace (host_code : Word) (host : Mem) (s : State) : Prop :=
  let code := save_code host_code host
  let c := s.reg r12
  ∃ s', Steps code ⟨0, s⟩ ⟨code.length, s'⟩ ∧
    (∀ i < CPUContext.words, i ≠ 34 → X86.word s'.mem c (8 * i) = X86.word s.mem c (8 * i)) ∧
    ∀ q, s'.reg q = s.reg q

theorem shiftedR9_eq_self (v : Word) : shiftedR9 v = v ↔ v = 0#64 := by
  have hfalse : (BitVec.ofBool false).setWidth 64 <<< 28 = 0#64 := by decide
  have htrue : ((BitVec.ofBool true).setWidth 64 <<< 28).getLsbD 7 = false := by decide
  rw [shiftedR9, shiftRight_and_one]
  cases h7 : v.getLsbD 7 with
  | false => rw [hfalse, eq_comm]
  | true =>
    -- bit 28 alone has no bit 7
    have hne : v ≠ 0#64 := by
      rintro rfl
      cases h7
    refine iff_of_false (fun h => ?_) hne
    rw [← h, htrue] at h7
    cases h7

/-- **What `save_nzcv` clobbers**: it leaves the context and the registers alone exactly if R9 is zero
and its scratch space, `v[14]` and the low half of `v[15]`, holds RAX, RCX and RDX already. -/
theorem savesInPlace_iff {ctx : CPUContext} {host_code : Word} (hb : host_code ≠ 0#64) (host : Mem)
    (hctx : CtxAt s.mem (s.reg r12) ctx) (hstack : StackClear s (s.reg r12)) :
    SavesInPlace host_code host s ↔ s.reg r9 = 0#64 ∧ ctx.v 14 0 = s.reg rax ∧
      ctx.v 14 1 = s.reg rcx ∧ ctx.v 15 0 = s.reg rdx := by
  have hmem := saveNzcv_mem (s := s) rfl
  have hreg := saveNzcv_reg rfl hstack
  have hsteps := steps_list_iff saveNzcv_straight s
  have hword : ∀ i < CPUContext.words, X86.word (execAll saveNzcv s).mem (s.reg r12) (8 * i) = _ :=
    fun i hi => (congrArg (X86.word · _ _) hmem).trans (savedMem_word hstack hi)
  unfold SavesInPlace
  rw [save_code_eq hb]
  simp only [hsteps]
  constructor
  · rintro ⟨s', rfl, hctx', hreg'⟩
    have hscratch : ∀ i < CPUContext.words, i ≠ 34 →
        X86.word (savedMem s (s.reg r12)) (s.reg r12) (8 * i) = ctx.word i := by
      intro i hi h34
      rw [← hmem, hctx' i hi h34, hctx i hi]
    obtain ⟨h512, h520, h528⟩ := savedMem_scratch hstack
    have hr9 := hreg' r9
    rw [hreg, if_pos rfl, shiftedR9_eq_self] at hr9
    exact ⟨hr9, (hscratch 64 (by decide) (by decide)).symm.trans h512,
      (hscratch 65 (by decide) (by decide)).symm.trans h520,
      (hscratch 66 (by decide) (by decide)).symm.trans h528⟩
  · rintro ⟨hr9, h512, h520, h528⟩
    refine ⟨_, rfl, fun i hi h34 => ?_, fun q => ?_⟩
    · rw [hword i hi, if_neg h34]
      have hi' := hctx i hi
      split_ifs with h64 h65 h66
      · rw [hi', h64]
        exact h512.symm
      · rw [hi', h65]
        exact h520.symm
      · rw [hi', h66]
        exact h528.symm
      · rfl
    · rw [hreg]
      split_ifs with hq
      · rw [hq, hr9]
        decide
      · rfl

end Frame

/-- A cleared machine whose stack lies far from the context. -/
def stacked : State := State.cleared.setReg rsp 0x10000#64

theorem stackClear_stacked : StackClear stacked 0#64 := by
  intro i hi
  have hw : CPUContext.words = 104 := rfl
  have he : (stacked.reg rsp - 8#64 + BitVec.ofNat 64 i - 0#64).toNat = 0xFFF8 + i := by
    rw [BitVec.sub_zero, show stacked.reg rsp - 8#64 = 0xFFF8#64 from rfl, BitVec.toNat_add,
      BitVec.toNat_ofNat, BitVec.toNat_ofNat]
    omega
  omega

theorem stackClear_holding (ctx : CPUContext) : StackClear (holding ctx) ((holding ctx).reg rdi) :=
  stackClear_stacked

/-- 1 and 2 in `v[14]`, and 3 in the lower half of `v[15]`. -/
def saved_ctx : CPUContext := ((CPUContext.zero.set 64 1#64).set 65 2#64).set 66 3#64

/-- The same in RAX, RCX and RDX. -/
def saving : State := (((holding saved_ctx).setReg rax 1#64).setReg rcx 2#64).setReg rdx 3#64

theorem savesInPlace_iff_saving : SavesInPlace 0x8000#64 (fun _ => 0#8) saving := by
  have hctx : CtxAt saving.mem (saving.reg r12) saved_ctx := ctxAt_holding _
  have hstack : StackClear saving (saving.reg r12) := stackClear_stacked
  exact (savesInPlace_iff (by decide) _ hctx hstack).mpr ⟨by decide, by decide, by decide, by decide⟩

/-- With 1 in R9 and in RAX, the code leaves 0 in R9 and 1 in `v[14]`. -/
theorem not_savesInPlace :
    ¬ SavesInPlace 0x8000#64 (fun _ => 0#8) ((stacked.setReg r9 1#64).setReg rax 1#64) := by
  intro h
  obtain ⟨s', hs, -, hreg⟩ := h
  rw [save_code_eq (by decide)] at hs
  obtain rfl := (steps_list_iff saveNzcv_straight _ s').mp hs
  have hr9 := hreg r9
  have hstack : StackClear ((stacked.setReg r9 1#64).setReg rax 1#64) 0#64 := stackClear_stacked
  rw [saveNzcv_reg rfl hstack, if_pos rfl] at hr9
  exact absurd hr9 (by decide)

end ExecEngine

end Bbarm64
