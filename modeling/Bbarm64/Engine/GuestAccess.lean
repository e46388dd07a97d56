import Bbarm64.Engine.Interp
import Bbarm64.Engine.BlockCode

/-!
# Engine.GuestAccess — the guest accesses of a block

`HoldsGuest` ties host memory to a guest state, and leaves nothing of that memory open.  The
lowerings of the loads and stores are the same for all sizes: they move eight bytes, from or to the
base register plus the low half of the IR's immediate.
-/

namespace Bbarm64

open X86 ARM64Decoder IRBuilder IRLowering

namespace ExecEngine

/-! ## Guest states in host memory -/

/-- The context at `c` holds the registers of `g`, and the memory outside of it is that of `g`. -/
def HoldsGuest (c : Word) (m : Mem) (g : Guest) : Prop :=
  CtxAt m c g.1 ∧ ∀ a, 8 * CPUContext.words ≤ (a - c).toNat → m a = g.2.host a

section Holds

variable {c a : Word} {m m' : Mem} {g : Guest}

/-- One memory holds the guest state. -/
theorem HoldsGuest.unique (h : HoldsGuest c m g) (h' : HoldsGuest c m' g) : m = m' := by
  funext b
  rcases Nat.lt_or_ge (b - c).toNat (8 * CPUContext.words) with hb | hb
  · exact h.1.byte_eq h'.1 hb
  · rw [h.2 b hb, h'.2 b hb]

theorem holdsGuest_iff (h : HoldsGuest c m' g) : HoldsGuest c m g ↔ m = m' :=
  ⟨fun h' => h'.unique h, fun he => he ▸ h⟩

/-- Host memory is guest memory, with the context in it. -/
theorem holdsGuest_host (h : CtxAt g.2.host c g.1) : HoldsGuest c g.2.host g := ⟨h, fun _ _ => rfl⟩

/-- A store to a register. -/
theorem HoldsGuest.set (h : HoldsGuest c m g) {k : ℕ} (hk : k < CPUContext.words) (v : Word) :
    HoldsGuest c (writeN 8 m (off c (8 * k)) v) (g.1.set k v, g.2) :=
  ⟨h.1.write hk v, fun a ha => (ctxOutside_write m c hk v a ha).trans (h.2 a ha)⟩

/-- A store of `k` bytes clear of the context. -/
theorem HoldsGuest.store (h : HoldsGuest c m g) {k n : ℕ} (ha : Clear c a k) (v : BitVec n) :
    HoldsGuest c (writeN k m a v) (g.1, { g.2 with host := writeN k g.2.host a v }) := by
  refine ⟨fun i hi => ?_, fun b hb => ?_⟩
  · rw [ha.word m v (by omega), h.1 i hi]
  · show writeN k m a v b = writeN k g.2.host a v b
    unfold writeN
    rw [h.2 b hb]

/-- A load clear of the context. -/
theorem HoldsGuest.read64 (h : HoldsGuest c m g) (ha : Clear c a 8) :
    X86.read64 m a = X86.read64 g.2.host a := read64_congr fun i hi => h.2 _ (ha i hi)

end Holds

/-! ## Loads and stores -/

def loadIr (op : IROpcode) (d : DecodedInstr) : IRInst where
  op := op
  dest := reg d.rt
  src1 := reg d.rn
  imm := d.imm
  size := if d.size ≠ 0#8 then 8#8 else 4#8

def storeIr (op : IROpcode) (d : DecodedInstr) : IRInst where
  op := op
  src1 := reg d.rn
  src2 := reg d.rt
  imm := d.imm
  size := if d.size ≠ 0#8 then 8#8 else 4#8

/-- The address the block accesses: the displacement is the low half of the immediate. -/
def host_addr (ctx : CPUContext) (d : DecodedInstr) : Word :=
  ctx.x d.rn.toNat + (d.imm.setWidth 32).signExtend 64

section Access

variable {op : IROpcode} {d : DecodedInstr} {ctx : CPUContext} {c : Word} {s : State}

theorem lowerAsm_load (hop : op = .LOAD64 ∨ op = .LOAD32) (d : DecodedInstr) (ft : Word) :
    lowerAsm ft (loadIr op d) =
      [ldArm d.rn rax, .load rax rax (d.imm.setWidth 32), stArm rax d.rt] := by
  rcases hop with rfl | rfl <;> simp [lowerAsm, loadIr]

theorem lowerAsm_store (hop : op = .STORE64 ∨ op = .STORE32) (d : DecodedInstr) (ft : Word) :
    lowerAsm ft (storeIr op d) =
      [ldArm d.rn rax, ldArm d.rt rcx, .store rax (d.imm.setWidth 32) rcx] := by
  rcases hop with rfl | rfl <;> simp [lowerAsm, storeIr]

theorem exec_ldArm_x (hc : s.reg r12 = c) (hctx : CtxAt s.mem c ctx) {r : Byte} (hr : IsArm r)
    (x : Reg) : exec (ldArm r x) s = s.setReg x (ctx.x r.toNat) := by
  rw [exec_ldArm hc hr, hctx _ (Nat.lt_of_lt_of_le hr (by decide))]
  rfl

/-- A load of either size loads eight bytes. -/
theorem run_load (hop : op = .LOAD64 ∨ op = .LOAD32) (hrn : IsArm d.rn) (hrt : IsArm d.rt)
    (hc : s.reg r12 = c) (hctx : CtxAt s.mem c ctx) (ft : Word) :
    (execAll (lowerAsm ft (loadIr op d)) s).mem =
      writeN 8 s.mem (off c (8 * d.rt.toNat)) (read64 s.mem (host_addr ctx d)) := by
  let s₁ := s.setReg rax (ctx.x d.rn.toNat)
  let s₂ := s₁.setReg rax (read64 s.mem (host_addr ctx d))
  have h₁ : exec (ldArm d.rn rax) s = s₁ := exec_ldArm_x hc hctx hrn rax
  have h₂ : exec (.load rax rax (d.imm.setWidth 32)) s₁ = s₂ := rfl
  have hc₂ : s₂.reg r12 = c := hc
  rw [lowerAsm_load hop, execAll_cons, h₁, execAll_cons, h₂, execAll_cons, execAll_nil,
    exec_stArm_mem hc₂ hrt]
  rfl

/-- A store of either size stores eight bytes. -/
theorem run_store (hop : op = .STORE64 ∨ op = .STORE32) (hrn : IsArm d.rn) (hrt : IsArm d.rt)
    (hc : s.reg r12 = c) (hctx : CtxAt s.mem c ctx) (ft : Word) :
    (execAll (lowerAsm ft (storeIr op d)) s).mem =
      writeN 8 s.mem (host_addr ctx d) (ctx.x d.rt.toNat) := by
  let s₁ := s.setReg rax (ctx.x d.rn.toNat)
  let s₂ := s₁.setReg rcx (ctx.x d.rt.toNat)
  have h₁ : exec (ldArm d.rn rax) s = s₁ := exec_ldArm_x hc hctx hrn rax
  have h₂ : exec (ldArm d.rt rcx) s₁ = s₂ := exec_ldArm_x (s := s₁) hc hctx hrt rcx
  rw [lowerAsm_store hop, execAll_cons, h₁, execAll_cons, h₂]
  rfl

/-! ## Blocks of one access -/

variable {pc host_code : Word}

/-- The block of a lone load. -/
theorem returns_load (hop : op = .LOAD64 ∨ op = .LOAD32) (hi : instrIr d pc = [loadIr op d])
    (hrn : IsArm d.rn) (hrt : IsArm d.rt) (hb : host_code ≠ 0#64) (host : Mem)
    (hctx : CtxAt s.mem (s.reg rdi) ctx) :
    ∃ s', (∀ s₁, Returns (block_code [d] pc host_code host) s s₁ ↔ s₁ = s') ∧ s'.mem =
      writeN 8 (writeN 8 s.mem (off (s.reg rdi) (8 * d.rt.toNat)) (read64 s.mem (host_addr ctx d)))
        (off (s.reg rdi) (8 * 32)) (pc + 4#64) := by
  have hl : Lowerable (loadIr op d) := by rcases hop with rfl | rfl <;> trivial
  have hr : ¬ Returning (loadIr op d).op := by rcases hop with rfl | rfl <;> simp [loadIr, Returning]
  refine ⟨_, fun s₁ => returns_lone hi hl hr hb host, ?_⟩
  rw [lone_mem hr, run_load hop hrn hrt (enter_r12 s) hctx, enter_mem]

/-- The block of a lone store. -/
theorem returns_store (hop : op = .STORE64 ∨ op = .STORE32) (hi : instrIr d pc = [storeIr op d])
    (hrn : IsArm d.rn) (hrt : IsArm d.rt) (hb : host_code ≠ 0#64) (host : Mem)
    (hctx : CtxAt s.mem (s.reg rdi) ctx) :
    ∃ s', (∀ s₁, Returns (block_code [d] pc host_code host) s s₁ ↔ s₁ = s') ∧ s'.mem =
      writeN 8 (writeN 8 s.mem (host_addr ctx d) (ctx.x d.rt.toNat))
        (off (s.reg rdi) (8 * 32)) (pc + 4#64) := by
  have hl : Lowerable (storeIr op d) := by rcases hop with rfl | rfl <;> trivial
  have hr : ¬ Returning (storeIr op d).op := by
    rcases hop with rfl | rfl <;> simp [storeIr, Returning]
  refine ⟨_, fun s₁ => returns_lone hi hl hr hb host, ?_⟩
  rw [lone_mem hr, run_store hop hrn hrt (enter_r12 s) hctx, enter_mem]

/-- The guest address an instruction loads from; what R12 points to is the context. -/
def guestLoad : Instr → State → Option Word
  | .load _ base d, t => if base = r12 then none else some (t.ea base d)
  | _, _ => none

/-- The block of a lone load loads from one guest address. -/
theorem observes_load (hop : op = .LOAD64 ∨ op = .LOAD32) (hi : instrIr d pc = [loadIr op d])
    (hrn : IsArm d.rn) (hb : host_code ≠ 0#64) (host : Mem) (hctx : CtxAt s.mem (s.reg rdi) ctx)
    (a : Word) : Observes guestLoad (block_code [d] pc host_code host) s a ↔
      host_addr ctx d = a := by
  let pre := [.movRR r12 rdi, ldArm d.rn rax]
  let j : Instr := .load rax rax (d.imm.setWidth 32)
  let suf := [stArm rax d.rt, .movRI rax (pc + 4#64), .store r12 256#32 rax]
  have hl : Lowerable (loadIr op d) := by rcases hop with rfl | rfl <;> trivial
  have hr : ¬ Returning (loadIr op d).op := by rcases hop with rfl | rfl <;> simp [loadIr, Returning]
  have hbody : loneBody pc (loadIr op d) = pre ++ j :: suf := by
    simp [loneBody, lowerAsm_load hop, pre, j, suf]
  have hrun : ∀ i t, i ≠ .ret → (Performs (block_code [d] pc host_code host) s i t ↔
      (i, t) ∈ trace (pre ++ j :: suf) s) := by
    intro i t hne
    rw [performs_lone hi hl hr hb host hne, hbody]
  have hpre : ∀ i ∈ pre, ∀ t, guestLoad i t = none := by simp [pre, guestLoad, ldArm]
  have hsuf : ∀ i ∈ suf, ∀ t, guestLoad i t = none := by simp [suf, guestLoad, stArm]
  have hat : guestLoad j (execAll pre s) = some (host_addr ctx d) := by
    have h₁ : execAll pre s = (enter s).setReg rax (ctx.x d.rn.toNat) :=
      exec_ldArm_x (enter_r12 s) hctx hrn rax
    rw [h₁]
    rfl
  exact observes_iff hrun (fun _ => rfl) hpre hsuf (by simp [j]) hat

end Access

end ExecEngine

end Bbarm64
