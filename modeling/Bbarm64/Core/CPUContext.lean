import Bbarm64.X86.Memory

/-!
# Core.CPUContext — the guest register file and its layout in host memory

The object is the array of its 64-bit words in layout order: `x[0..30]` (bytes `0..247`), `sp`
(248), `pc` (256), `lr` (264), `nzcv` (272), eight bytes of padding, the 16-aligned `v[32][16]`
(288..799), `fpcr`/`fpsr` (800), `tpidr_el0` (808), `tid` (816), `state_flags`/`exit_status` (824);
832 bytes in all.  `std::array::operator[]` does not check its index, so `x[31]` is the word behind
`x[30]`, which is `sp`.  `CtxAt m c ctx` says that host memory `m` holds the object `ctx` at `c`.
-/

namespace Bbarm64

open X86

structure CPUContext where
  /-- The 64-bit word at byte offset `8 * i`. -/
  word : ℕ → Word

namespace CPUContext

/-- `sizeof(CPUContext) / 8`. -/
def words : ℕ := 104

/-- `CPUContext()` clears every field. -/
def zero : CPUContext := ⟨fun _ => 0#64⟩

def set (ctx : CPUContext) (i : ℕ) (v : Word) : CPUContext :=
  ⟨fun j => if j = i then v else ctx.word j⟩

def x (ctx : CPUContext) (i : ℕ) : Word := ctx.word i
def sp (ctx : CPUContext) : Word := ctx.word 31
def pc (ctx : CPUContext) : Word := ctx.word 32
def lr (ctx : CPUContext) : Word := ctx.word 33
def nzcv (ctx : CPUContext) : Word := ctx.word 34

def tpidr_el0 (ctx : CPUContext) : Word := ctx.word 101

/-- Half `h` (0 low, 1 high) of the vector register `v[k]`. -/
def v (ctx : CPUContext) (k h : ℕ) : Word := ctx.word (36 + 2 * k + h)

def state_flags (ctx : CPUContext) : BitVec 32 := (ctx.word 103).extractLsb' 0 32

def set_x (ctx : CPUContext) (i : ℕ) (v : Word) : CPUContext := ctx.set i v
def set_pc (ctx : CPUContext) (v : Word) : CPUContext := ctx.set 32 v

def set_state_flags (ctx : CPUContext) (f : BitVec 32) : CPUContext :=
  ctx.set 103 ((ctx.word 103).extractLsb' 32 32 ++ f)

def exit_status (ctx : CPUContext) : BitVec 32 := (ctx.word 103).extractLsb' 32 32

def set_exit_status (ctx : CPUContext) (status : BitVec 32) : CPUContext :=
  ctx.set 103 (status ++ (ctx.word 103).extractLsb' 0 32)

def STATE_CRASHED : BitVec 32 := 1#32 <<< 2
def STATE_EXITED : BitVec 32 := 1#32 <<< 3

def crashed (ctx : CPUContext) : Bool := ctx.state_flags &&& STATE_CRASHED != 0#32
def exited (ctx : CPUContext) : Bool := ctx.state_flags &&& STATE_EXITED != 0#32

/-- `set_nzcv`: N, Z, C, V go to bits 31, 30, 29, 28. -/
def nzcv_of (n z c v : Bool) : Word :=
  (BitVec.ofBool n).setWidth 64 <<< 31 ||| (BitVec.ofBool z).setWidth 64 <<< 30 |||
    (BitVec.ofBool c).setWidth 64 <<< 29 ||| (BitVec.ofBool v).setWidth 64 <<< 28

def set_nzcv (ctx : CPUContext) (n z c v : Bool) : CPUContext := ctx.set 34 (nzcv_of n z c v)

@[simp] theorem set_word (ctx : CPUContext) (i j : ℕ) (v : Word) :
    (ctx.set i v).word j = if j = i then v else ctx.word j := rfl

/-! ### The halves of the last word -/

@[simp] theorem set_state_flags_state_flags (ctx : CPUContext) (f : BitVec 32) :
    (ctx.set_state_flags f).state_flags = f := BitVec.extractLsb'_append_eq_right

@[simp] theorem set_state_flags_exit_status (ctx : CPUContext) (f : BitVec 32) :
    (ctx.set_state_flags f).exit_status = ctx.exit_status := BitVec.extractLsb'_append_eq_left

@[simp] theorem set_exit_status_exit_status (ctx : CPUContext) (status : BitVec 32) :
    (ctx.set_exit_status status).exit_status = status := BitVec.extractLsb'_append_eq_left

@[simp] theorem set_exit_status_state_flags (ctx : CPUContext) (status : BitVec 32) :
    (ctx.set_exit_status status).state_flags = ctx.state_flags := BitVec.extractLsb'_append_eq_right

@[ext] theorem ext {a b : CPUContext} (h : ∀ i, a.word i = b.word i) : a = b := by
  cases a
  cases b
  congr
  funext i
  exact h i

end CPUContext

/-- Host memory `m` holds the context `ctx` at address `c`. -/
def CtxAt (m : Mem) (c : Word) (ctx : CPUContext) : Prop :=
  ∀ i < CPUContext.words, X86.word m c (8 * i) = ctx.word i

/-- The context object: the bytes at `c` and up. -/
def CtxOutside (c : Word) (m m' : Mem) : Prop := Outside c (8 * CPUContext.words) m m'

theorem CtxAt.write {m : Mem} {c : Word} {ctx : CPUContext} (h : CtxAt m c ctx) {k : ℕ}
    (hk : k < CPUContext.words) (v : Word) :
    CtxAt (writeN 8 m (off c (8 * k)) v) c (ctx.set k v) := by
  intro i hi
  unfold CPUContext.words at hi hk
  by_cases e : i = k
  · subst e
    simp
  · rw [word_write_ne (by omega) (by omega) (by omega), h i hi, CPUContext.set_word, if_neg e]

/-- Memories that hold the same context have the same bytes there. -/
theorem CtxAt.byte_eq {m m' : Mem} {c : Word} {ctx : CPUContext} (h : CtxAt m c ctx)
    (h' : CtxAt m' c ctx) {b : Word} (hb : (b - c).toNat < 8 * CPUContext.words) : m b = m' b := by
  have hi : (b - c).toNat / 8 < CPUContext.words := by omega
  have hw := read64_eq_iff.mp ((h _ hi).trans (h' _ hi).symm) ((b - c).toNat % 8) (by omega)
  have hoff : off c (b - c).toNat = b := add_sub_toNat c b
  rw [off_add, Nat.div_add_mod, hoff] at hw
  exact hw

theorem ctxOutside_write {k : ℕ} (m : Mem) (c : Word) (hk : k < CPUContext.words) (v : Word) :
    CtxOutside c m (writeN 8 m (off c (8 * k)) v) := by
  unfold CPUContext.words at hk
  exact outside_write m v (by unfold CPUContext.words; omega) (by decide)

/-- A memory that holds `ctx` at 0. -/
def ctx_mem (ctx : CPUContext) : Mem := fun b => byteAt (ctx.word (b.toNat / 8)) (b.toNat % 8)

theorem ctxAt_ctx_mem (ctx : CPUContext) : CtxAt (ctx_mem ctx) 0#64 ctx := by
  intro i hi
  unfold CPUContext.words at hi
  have hread := read64_writeN (ctx_mem ctx) (off 0#64 (8 * i)) (ctx.word i)
  refine Eq.trans (read64_congr fun j hj => ?_) hread
  have hb : (off 0#64 (8 * i) + BitVec.ofNat 64 j).toNat = 8 * i + j := by
    simp only [off, BitVec.toNat_add, BitVec.toNat_ofNat]
    omega
  have hdiv : (8 * i + j) / 8 = i := by omega
  have hmod : (8 * i + j) % 8 = j := by omega
  rw [writeN_self _ _ _ hj (Nat.le_refl 8), ctx_mem, hb, hdiv, hmod]

/-- A cleared memory holds the cleared context everywhere. -/
theorem ctxAt_zero (c : Word) : CtxAt (fun _ => 0#8) c .zero := by
  have h : (0#8 ++ 0#8 ++ 0#8 ++ 0#8) ++ (0#8 ++ 0#8 ++ 0#8 ++ 0#8) = 0#64 := by decide
  exact fun _ _ => h

/-- So does a memory that is cleared at the object. -/
theorem ctxAt_zero_of {m : Mem} {c : Word}
    (h : ∀ a, (a - c).toNat < 8 * CPUContext.words → m a = 0#8) : CtxAt m c .zero := by
  intro i hi
  rw [← ctxAt_zero c i hi]
  refine read64_congr fun j hj => h _ ?_
  have h0 : off c 0 = c := BitVec.add_zero c
  have hsub := off_sub_toNat (c := c) (o := 8 * i + j) (p := 0) (Nat.zero_le _)
    (by unfold CPUContext.words at hi; omega)
  rw [h0] at hsub
  rw [off_add, hsub]
  omega

end Bbarm64
