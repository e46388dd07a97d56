import Bbarm64.A64.Isa
import Mathlib.Data.List.Forall2

/-!
# A64.Program — programs of the subset and their runs

A program is a row of words: instructions of the subset and SVC, with nothing to run into behind the
last one.  A run executes the words one by one.  At an SVC the environment answers: it puts a value in
`x0` and may change the memory, and the run records the registers and the memory it was called with and
what it answered.  The memory is of any type, as no instruction of the subset accesses it.
-/

namespace A64

/-- SVC: bits 31 to 21 and 4 to 0 are fixed, the rest is the immediate. -/
def isSvc (w : BitVec 32) : Prop :=
  w.extractLsb' 21 11 = 0b11010100000#11 ∧ w.extractLsb' 0 5 = 0b00001#5

instance (w : BitVec 32) : Decidable (isSvc w) := inferInstanceAs (Decidable (_ ∧ _))

/-! ## Programs -/

structure Program where
  base : Word
  words : List (BitVec 32)
  fits : base.toNat + 4 * words.length < 2 ^ 64
  known : ∀ w ∈ words, isSvc w ∨ (Insn.ofWord? w).isSome
  /-- The last word is an SVC or a branch. -/
  ends : ∀ w ∈ words.getLast?, isSvc w ∨ (Insn.ofWord? w).any Insn.isBranch

namespace Program

variable (p : Program)

/-- The address of word `k`. -/
def addr (k : ℕ) : Word := p.base + BitVec.ofNat 64 (4 * k)

/-- The word at `pc`. -/
def word (pc : Word) : Option (BitVec 32) :=
  if (pc - p.base).toNat % 4 = 0 then p.words[(pc - p.base).toNat / 4]? else none

variable {p} {k : ℕ} {w : BitVec 32}

theorem addr_sub (h : k < p.words.length) : (p.addr k - p.base).toNat = 4 * k := by
  have := p.fits
  have := p.base.isLt
  rw [addr, BitVec.toNat_sub, BitVec.toNat_add, BitVec.toNat_ofNat]
  omega

theorem addr_succ (p : Program) (k : ℕ) : p.addr (k + 1) = p.addr k + 4#64 := by
  rw [addr, addr, BitVec.add_assoc, Nat.mul_succ, BitVec.ofNat_add]

theorem word_addr (h : k < p.words.length) : p.word (p.addr k) = p.words[k]? := by
  have hmod : 4 * k % 4 = 0 := Nat.mul_mod_right 4 k
  rw [word, addr_sub h, if_pos hmod, Nat.mul_div_cancel_left k (by decide)]

/-- The addresses of the program are those of its words. -/
theorem word_eq_some_iff {pc : Word} :
    p.word pc = some w ↔ ∃ k, p.words[k]? = some w ∧ pc = p.addr k := by
  constructor
  · intro h
    unfold word at h
    split_ifs at h with hmod
    refine ⟨_, h, ?_⟩
    rw [addr, Nat.mul_div_cancel' (Nat.dvd_of_mod_eq_zero hmod), BitVec.ofNat_toNat,
      BitVec.setWidth_eq, BitVec.add_comm, BitVec.sub_add_cancel]
  · rintro ⟨k, hk, rfl⟩
    rw [word_addr (List.getElem?_eq_some_iff.mp hk).1, hk]

variable (p) in
/-- The words from word `k` on are the instructions `is`. -/
def InsnsAt (k : ℕ) (is : List Insn) : Prop :=
  ∀ j i, is[j]? = some i → ∃ w, p.words[k + j]? = some w ∧ ¬ isSvc w ∧ Insn.ofWord? w = some i

theorem insnsAt_nil : p.InsnsAt k [] := by
  intro j i h
  cases h

theorem InsnsAt.cons {i : Insn} {is : List Insn} (hw : p.words[k]? = some w) (hs : ¬ isSvc w)
    (hi : Insn.ofWord? w = some i) (h : p.InsnsAt (k + 1) is) : p.InsnsAt k (i :: is) := by
  intro j i' hj
  cases j with
  | zero =>
    obtain rfl := Option.some.inj hj
    exact ⟨w, hw, hs, hi⟩
  | succ j =>
    have he : k + (j + 1) = k + 1 + j := by omega
    rw [he]
    exact h j i' hj

theorem InsnsAt.tail {i : Insn} {is : List Insn} (h : p.InsnsAt k (i :: is)) :
    p.InsnsAt (k + 1) is := by
  intro j i' hj
  have he : k + 1 + j = k + (j + 1) := by omega
  rw [he]
  exact h (j + 1) i' hj

/-- A word that is no SVC is an instruction. -/
theorem exists_insn (hk : p.words[k]? = some w) (hs : ¬ isSvc w) : ∃ i, Insn.ofWord? w = some i :=
  Option.isSome_iff_exists.mp ((p.known w (List.mem_of_getElem? hk)).resolve_left hs)

/-- Behind a word that is neither an SVC nor a branch there is another. -/
theorem succ_lt {i : Insn} (hk : p.words[k]? = some w) (hs : ¬ isSvc w)
    (hi : Insn.ofWord? w = some i) (hb : i.isBranch = false) : k + 1 < p.words.length := by
  obtain ⟨hlt, hw⟩ := List.getElem?_eq_some_iff.mp hk
  by_contra hge
  have hlast : p.words.getLast? = some w := by
    have he : p.words.length - 1 = k := by omega
    rw [List.getLast?_eq_getElem?, he, hk]
  rcases p.ends w hlast with h | h
  · exact hs h
  · rw [hi, Option.any_some, hb] at h
    cases h

end Program

/-! ## Runs -/

/-- A system call: the registers and the memory at the SVC, the value for `x0`, and the memory behind
the call. -/
structure Call (μ : Type*) where
  reg : BitVec 5 → Word
  mem : μ
  result : Word
  mem' : μ

/-- Behind an SVC that was answered with `v`. -/
def State.answer (s : State) (v : Word) : State := (s.setReg 0#5 v).next

/-- The runs of the program with the words `code` from `s` and memory `m`: `n` words are executed, and
`l` are the calls. -/
inductive Runs {μ : Type*} (code : Word → Option (BitVec 32)) (s : State) (m : μ) :
    ℕ → List (Call μ) → State → μ → Prop where
  | refl : Runs code s m 0 [] s m
  | insn {n : ℕ} {l : List (Call μ)} {t : State} {m' : μ} {w : BitVec 32} {i : Insn}
    (h : Runs code s m n l t m') (hw : code t.pc = some w) (hs : ¬ isSvc w)
    (hi : Insn.ofWord? w = some i) : Runs code s m (n + 1) l (i.exec t) m'
  | svc {n : ℕ} {l : List (Call μ)} {t : State} {m' : μ} {w : BitVec 32}
    (h : Runs code s m n l t m') (hw : code t.pc = some w) (hs : isSvc w) (v : Word) (m'' : μ) :
    Runs code s m (n + 1) (l ++ [⟨t.reg, m', v, m''⟩]) (t.answer v) m''

section Runs

variable {μ : Type*} {p : Program} {s t : State} {m m' : μ} {n : ℕ} {l : List (Call μ)}

/-- **Instructions in a row** are executed one by one. -/
theorem Runs.insns {is : List Insn} {k : ℕ} (h : Runs p.word s m n l t m') (hpc : t.pc = p.addr k)
    (his : p.InsnsAt k is) (hbr : ∀ i ∈ is.dropLast, i.isBranch = false) :
    Runs p.word s m (n + is.length) l (run is t) m' := by
  induction is generalizing k t n with
  | nil => exact h
  | cons i is ih =>
    obtain ⟨w, hw, hs, hi⟩ := his 0 i rfl
    have hlt : k < p.words.length := (List.getElem?_eq_some_iff.mp hw).1
    have hword : p.word t.pc = some w := by rw [hpc, Program.word_addr hlt, ← hw, Nat.add_zero]
    have h' := h.insn hword hs hi
    cases is with
    | nil => exact h'
    | cons i' is =>
      have hb : i.isBranch = false := hbr i (by simp)
      have hpc' : (i.exec t).pc = p.addr (k + 1) := by rw [exec_pc hb, hpc, p.addr_succ]
      have hlen : n + (i :: i' :: is).length = n + 1 + (i' :: is).length := by
        simp only [List.length_cons]
        omega
      rw [run_cons, hlen]
      exact ih h' hpc' his.tail fun i hmem => hbr i (by simp [hmem])

/-- **A run is determined** by its length and its calls. -/
theorem Runs.unique {code : Word → Option (BitVec 32)} {l' L : List (Call μ)} {t' : State} {m'' : μ}
    (h : Runs code s m n l t m') (h' : Runs code s m n l' t' m'') (hl : l <+: L) (hl' : l' <+: L) :
    l = l' ∧ t = t' ∧ m' = m'' := by
  induction h generalizing l' t' m'' with
  | refl =>
    cases h'
    exact ⟨rfl, rfl, rfl⟩
  | insn _ hw hs hi ih =>
    cases h' with
    | insn h' hw' _ hi' =>
      obtain ⟨rfl, rfl, rfl⟩ := ih h' hl hl'
      obtain rfl := Option.some.inj (hw.symm.trans hw')
      obtain rfl := Option.some.inj (hi.symm.trans hi')
      exact ⟨rfl, rfl, rfl⟩
    | svc h' hw' hs' =>
      obtain ⟨-, rfl, -⟩ := ih h' hl ((List.prefix_append _ _).trans hl')
      obtain rfl := Option.some.inj (hw.symm.trans hw')
      exact absurd hs' hs
  | svc _ hw hs _ _ ih =>
    cases h' with
    | insn h' hw' hs' _ =>
      obtain ⟨-, rfl, -⟩ := ih h' ((List.prefix_append _ _).trans hl) hl'
      obtain rfl := Option.some.inj (hw.symm.trans hw')
      exact absurd hs hs'
    | svc h' =>
      obtain ⟨rfl, rfl, rfl⟩ := ih h' ((List.prefix_append _ _).trans hl)
        ((List.prefix_append _ _).trans hl')
      -- the last call is the one that follows in `L`
      have he := (List.prefix_of_prefix_length_le hl hl' (by simp)).eq_of_length (by simp)
      obtain ⟨-, hcall⟩ := List.append_inj' he rfl
      obtain ⟨-, -, rfl, rfl⟩ := (Call.mk.injEq ..).mp (List.singleton_inj.mp hcall)
      exact ⟨rfl, rfl, rfl⟩

end Runs

end A64
