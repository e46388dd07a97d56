import Bbarm64.Backend.BlockRun
import Bbarm64.Core.CPUContext
import Bbarm64.Decoder.DecodeFacts

/-!
# Backend.BlockState — what a lowered block does to R12, RSP and the context

R12 holds the context pointer behind the prologue and nothing writes it; `pushfq` and `pop` cancel
out in RSP.  A store through R12 goes to the context word of its offset, and a store elsewhere that
is `Clear` of the context leaves every word of it alone.
-/

namespace Bbarm64

open X86 ARM64Decoder

/-! ## Context addresses -/

theorem ea_ctx {s : State} {c : Word} (hc : s.reg r12 = c) {d : BitVec 32} (hd : d.toNat < 2 ^ 31) :
    s.ea r12 d = off c d.toNat := by
  have hmsb : d.msb = false := by
    rw [BitVec.msb_eq_false_iff_two_mul_lt]
    omega
  rw [State.ea, hc, BitVec.signExtend_eq_setWidth_of_msb_false hmsb, off]
  congr 1
  apply BitVec.eq_of_toNat_eq
  simp

section Context

variable {s : State} {c : Word}

theorem exec_store_ctx (hc : s.reg r12 = c) {d : BitVec 32} (hd : d.toNat < 2 ^ 31) (x : Reg) :
    exec (.store r12 d x) s = s.setMem (writeN 8 s.mem (off c d.toNat) (s.reg x)) := by
  simp only [exec, ea_ctx hc hd]

theorem exec_load_ctx (hc : s.reg r12 = c) {d : BitVec 32} (hd : d.toNat < 2 ^ 31) (x : Reg) :
    exec (.load x r12 d) s = s.setReg x (X86.word s.mem c d.toNat) := by
  simp only [exec, ea_ctx hc hd, X86.word]

end Context

namespace IRLowering

theorem reg_offset_toNat : ∀ r : Byte, IsArm r → (reg_offset r).toNat = 8 * r.toNat := by decide

theorem ea_arm {s : State} {c : Word} (hc : s.reg r12 = c) {r : Byte} (hr : IsArm r) :
    s.ea r12 (reg_offset r) = off c (8 * r.toNat) := by
  have h := reg_offset_toNat r hr
  have hr' : r.toNat < 32 := hr
  rw [ea_ctx hc (by omega), h]

theorem exec_stArm_mem {s : State} {c : Word} (hc : s.reg r12 = c) {r : Byte} (hr : IsArm r) (x : Reg) :
    (exec (stArm x r) s).mem = writeN 8 s.mem (off c (8 * r.toNat)) (s.reg x) := by
  simp only [stArm, exec, setMem_mem, ea_arm hc hr]

theorem exec_ldArm {s : State} {c : Word} (hc : s.reg r12 = c) {r : Byte} (hr : IsArm r) (x : Reg) :
    exec (ldArm r x) s = s.setReg x (X86.word s.mem c (8 * r.toNat)) := by
  simp only [ldArm, exec, ea_arm hc hr, X86.word]

/-! ## Guest stores -/

/-- The `k` bytes from `a` on lie outside the context at `c`. -/
def Clear (c a : Word) (k : ℕ) : Prop :=
  ∀ i < k, 8 * CPUContext.words ≤ (a + BitVec.ofNat 64 i - c).toNat

theorem Clear.writeN {c a : Word} {k : ℕ} (h : Clear c a k) (m : Mem) {n : ℕ} (v : BitVec n) {o : ℕ}
    (ho : o < 8 * CPUContext.words) : X86.writeN k m a v (off c o) = m (off c o) := by
  have hw : 8 * CPUContext.words = 832 := rfl
  refine writeN_of_le (Nat.le_of_not_lt fun hlt => ?_)
  have h' := h _ hlt
  rw [add_sub_toNat] at h'
  have ho' : (off c o - c).toNat = o := by
    simp only [off, BitVec.toNat_sub, BitVec.toNat_add, BitVec.toNat_ofNat]
    have := c.isLt
    omega
  omega

/-- A clear store keeps every word of the context. -/
theorem Clear.word {c a : Word} {k : ℕ} (h : Clear c a k) (m : Mem) {n : ℕ} (v : BitVec n) {o : ℕ}
    (ho : o + 8 ≤ 8 * CPUContext.words) :
    X86.word (X86.writeN k m a v) c o = X86.word m c o := by
  refine read64_congr fun i hi => ?_
  rw [off_add]
  exact h.writeN m v (by omega)

/-! ## The return value -/

theorem setPc_reg_ne (pc : Word) (s : State) {q : Reg} (hq : q ≠ rax) :
    (setPc pc s).reg q = s.reg q := by
  simp [setPc, exec, hq]

theorem setPc_mem {s : State} {c : Word} (hc : s.reg r12 = c) (pc : Word) :
    (setPc pc s).mem = writeN 8 s.mem (off c (8 * 32)) pc := by
  have h : (s.setReg rax pc).reg r12 = c := by rwa [setReg_reg, if_neg (by decide)]
  have he : (s.setReg rax pc).ea r12 256#32 = off c (8 * 32) := ea_ctx h (by decide)
  simp only [setPc, execAll_cons, execAll_nil, exec, setMem_mem, he]
  simp

theorem setPc_pc {s : State} {c : Word} (hc : s.reg r12 = c) (pc : Word) :
    X86.word (setPc pc s).mem c 256 = pc := by
  rw [setPc_mem hc]
  exact word_write_same _ _ _ _

theorem setPc_word {s : State} {c : Word} (hc : s.reg r12 = c) (pc : Word) {o : ℕ}
    (ho : o + 8 ≤ 256 ∨ 264 ≤ o) (ho' : o < 2 ^ 63) :
    X86.word (setPc pc s).mem c o = X86.word s.mem c o := by
  rw [setPc_mem hc]
  exact word_write_ne (by omega) ho' (by omega)

/-- RET leaves the block for the address in `lr`, not for the one in `x30`. -/
theorem exitIr_ret {ir : IRInst} (h : ir.op = .RET) (ft : Word) {s : State} {c : Word}
    (hc : s.reg r12 = c) : exitIr ft ir s = setPc (X86.word s.mem c 264) s := by
  have he : s.ea r12 264#32 = off c 264 := ea_ctx hc (by decide)
  simp only [exitIr, if_pos h, setPc, execAll_cons, exec, he, X86.word]

theorem exitIr_jump {ir : IRInst} (h : ir.op = .JMP ∨ ir.op = .CALL) (ft : Word) (s : State) :
    exitIr ft ir s = setPc ir.imm s := by
  rcases h with h | h <;> simp [exitIr, h]

theorem exitIr_cond {ir : IRInst} (h : ir.op = .JMP_COND) (ft : Word) (s : State) :
    exitIr ft ir s = setPc (if s.flags.cond (invCc ir.cond) then ft else ir.imm) s := by
  simp [exitIr, h]

/-! ## R12 and RSP -/

theorem lowerAsm_r12 (ft : Word) {ir : IRInst} (h : ¬ Returning ir.op) (s : State) :
    (execAll (lowerAsm ft ir) s).reg r12 = s.reg r12 :=
  execAll_reg_of_notMem (fun i hi =>
    (lowerAsm_form ft h hi).elim (fun hf => hf.writes.1) (saveNzcv_r12 i)) s

/-- `pushfq` and `pop rax` bring RSP back. -/
theorem saveNzcv_rsp (s : State) : (execAll saveNzcv s).reg rsp = s.reg rsp := by
  let tail := saveNzcv.drop 5
  have hsplit : saveNzcv = saveNzcv.take 3 ++ ([.pushfq, .pop rax] ++ tail) := rfl
  have hhead : rsp ∉ (saveNzcv.take 3).flatMap Instr.writes := by decide
  have htail : rsp ∉ tail.flatMap Instr.writes := by decide
  have hmid : ∀ s, (execAll [.pushfq, .pop rax] s).reg rsp = s.reg rsp := by
    intro s
    have hne : rsp ≠ rax := by decide
    simp only [execAll_cons, execAll_nil, exec, setReg_reg, if_neg hne, ↓reduceIte]
    exact BitVec.sub_add_cancel _ _
  rw [hsplit, execAll_append, execAll_append,
    execAll_reg_of_notMem (fun i hi hm => htail (List.mem_flatMap.mpr ⟨i, hi, hm⟩)), hmid,
    execAll_reg_of_notMem (fun i hi hm => hhead (List.mem_flatMap.mpr ⟨i, hi, hm⟩))]

theorem lowerAsm_rsp (ft : Word) {ir : IRInst} (h : ¬ Returning ir.op) (s : State) :
    (execAll (lowerAsm ft ir) s).reg rsp = s.reg rsp := by
  obtain ⟨before, after, set, he, hb, ha⟩ := lowerAsm_split ft h
  have hset : ∀ s, (execAll (saveNzcvIf set) s).reg rsp = s.reg rsp := by
    intro s
    unfold saveNzcvIf
    split_ifs
    · exact saveNzcv_rsp s
    · rfl
  rw [he, execAll_append, execAll_append, execAll_reg_of_notMem (fun i hi => (ha i hi).writes.2),
    hset, execAll_reg_of_notMem fun i hi => (hb i hi).writes.2]

theorem exitIr_reg (ft : Word) (ir : IRInst) (s : State) {q : Reg} (hq : q ≠ rax) :
    (exitIr ft ir s).reg q = s.reg q := by
  unfold exitIr
  split_ifs
  · simp [exec, hq]
  · exact setPc_reg_ne _ s hq
  · exact setPc_reg_ne _ s hq
  · exact setPc_reg_ne _ s hq

theorem runIr_reg (ft : Word) (irs : List IRInst) (s : State) :
    (runIr ft irs s).reg r12 = s.reg r12 ∧ (runIr ft irs s).reg rsp = s.reg rsp := by
  induction irs generalizing s with
  | nil => exact ⟨setPc_reg_ne ft s (by decide), setPc_reg_ne ft s (by decide)⟩
  | cons ir rest ih =>
    unfold runIr
    split_ifs with h
    · exact ⟨exitIr_reg ft ir s (by decide), exitIr_reg ft ir s (by decide)⟩
    · rw [(ih _).1, (ih _).2, lowerAsm_r12 ft h, lowerAsm_rsp ft h]
      exact ⟨rfl, rfl⟩

@[simp] theorem enter_r12 (s : State) : (enter s).reg r12 = s.reg rdi := by simp [enter]

@[simp] theorem enter_rsp (s : State) : (enter s).reg rsp = s.reg rsp :=
  exec_reg_of_notMem (i := .movRR r12 rdi) (by decide) s

@[simp] theorem enter_mem (s : State) : (enter s).mem = s.mem := rfl

@[simp] theorem enter_flags (s : State) : (enter s).flags = s.flags := rfl

@[simp] theorem popRet_mem (s : State) : s.popRet.mem = s.mem := rfl

end IRLowering

end Bbarm64
