import Bbarm64.X86.Machine

/-!
# X86.Process — execution of code that lies in memory

`cycle` fetches the next instruction from the memory the program runs in, so that code may store
into code.  `Stores` collects the bytes that a run stores to; everything else stays as it was
(`cycles_mem`).
-/

namespace X86

/-- A machine state with the address of the next instruction. -/
structure Cpu where
  ip : Word
  st : State

/-- The bytes at `ip`, as many as an instruction can have. -/
def fetch (m : Mem) (ip : Word) : List Byte := (List.range 15).map fun i => m (off ip i)

def Cpu.next (c : Cpu) : Option (Instr × ℕ) := decode (fetch c.st.mem c.ip)

/-- One instruction; the run stops at `ret`, `int3` and undecodable bytes. -/
def cycle (c : Cpu) : Option Cpu :=
  match c.next with
  | none => none
  | some (i, n) =>
    match i with
    | .ret | .int3 => none
    | .jcc cc rel =>
      some ⟨off c.ip n + if c.st.flags.cond cc then rel.signExtend 64 else 0#64, c.st⟩
    | i => some ⟨off c.ip n, exec i c.st⟩

/-- Zero or more instructions. -/
def Cycles : Cpu → Cpu → Prop := Relation.ReflTransGen fun a b => cycle a = some b

/-! ## Footprints -/

/-- Where the instruction stores a word. -/
def Instr.storeAddr (i : Instr) (s : State) : Option Word :=
  match i with
  | .store b disp _ => some (s.ea b disp)
  | .pushfq => some (s.reg rsp - 8#64)
  | .movRI _ _ | .movRR _ _ | .load _ _ _ | .alu _ _ _ | .aluI _ _ _ | .test _ _ | .shift _ _ _
  | .pop _ | .jcc _ _ | .nop | .ret | .int3 => none

/-- Address `a` is one of the bytes the instruction stores to. -/
def Instr.StoresAt (i : Instr) (s : State) (a : Word) : Prop :=
  ∃ addr, i.storeAddr s = some addr ∧ (a - addr).toNat < 8

/-- A run from `c` reaches an instruction that stores to `a`. -/
def Stores (c : Cpu) (a : Word) : Prop :=
  ∃ b i n, Cycles c b ∧ b.next = some (i, n) ∧ i.StoresAt b.st a

theorem exec_mem_of_not_storesAt {i : Instr} {s : State} {a : Word} (h : ¬ i.StoresAt s a) :
    (exec i s).mem a = s.mem a := by
  cases i with
  | store b disp r => exact writeN_of_le (Nat.le_of_not_lt fun ha => h ⟨_, rfl, ha⟩)
  | pushfq => exact writeN_of_le (Nat.le_of_not_lt fun ha => h ⟨_, rfl, ha⟩)
  | _ => rw [exec_mem rfl]

theorem cycle_mem {c d : Cpu} (h : cycle c = some d) {a : Word} (ha : ¬ Stores c a) :
    d.st.mem a = c.st.mem a := by
  unfold cycle at h
  split at h
  · cases h
  · rename_i i n hn
    have hi : ¬ i.StoresAt c.st a := fun hs => ha ⟨c, i, n, .refl, hn, hs⟩
    have hx := exec_mem_of_not_storesAt hi
    split at h
    · cases h
    · cases h
    · cases h
      rfl
    · cases h
      exact hx

/-- **Frame rule**: a run changes only bytes it stores to. -/
theorem cycles_mem {c d : Cpu} (h : Cycles c d) {a : Word} (ha : ¬ Stores c a) :
    d.st.mem a = c.st.mem a := by
  induction h using Relation.ReflTransGen.head_induction_on with
  | refl => rfl
  | head hcb _ ih =>
    rw [ih fun ⟨b, i, n, hb, hn, hs⟩ => ha ⟨b, i, n, .head hcb hb, hn, hs⟩, cycle_mem hcb ha]

/-! ## Running for a number of cycles -/

def cyclesN : ℕ → Cpu → Option Cpu
  | 0, c => some c
  | n + 1, c => (cycle c).bind (cyclesN n)

theorem cycles_of_cyclesN {n : ℕ} {c d : Cpu} (h : cyclesN n c = some d) : Cycles c d := by
  induction n generalizing c with
  | zero => exact Option.some.inj h ▸ .refl
  | succ n ih =>
    obtain ⟨b, hb, hd⟩ := Option.bind_eq_some_iff.mp h
    exact .head hb (ih hd)

theorem cyclesN_of_cycles {c d : Cpu} (h : Cycles c d) : ∃ n, cyclesN n c = some d := by
  induction h using Relation.ReflTransGen.head_induction_on with
  | refl => exact ⟨0, rfl⟩
  | head hcb _ ih =>
    obtain ⟨n, hn⟩ := ih
    exact ⟨n + 1, by rw [cyclesN, hcb, Option.bind_some, hn]⟩

theorem cyclesN_eq_none_of_le {n m : ℕ} (hnm : n ≤ m) {c : Cpu} (h : cyclesN n c = none) :
    cyclesN m c = none := by
  induction n generalizing m c with
  | zero => cases h
  | succ n ih =>
    obtain ⟨m, rfl⟩ : ∃ k, m = k + 1 := ⟨m - 1, by omega⟩
    rw [cyclesN] at h ⊢
    cases hc : cycle c with
    | none => rfl
    | some d =>
      rw [hc, Option.bind_some] at h
      exact ih (by omega) h

/-- Where cycle `n` stores. -/
def storeAddrN (n : ℕ) (c : Cpu) : Option Word :=
  (cyclesN n c).bind fun b => b.next.bind fun i => i.1.storeAddr b.st

/-- A run that ends before cycle `n` has stored in one of the cycles before. -/
theorem storeAddrN_of_stores {n : ℕ} {c : Cpu} (hn : cyclesN n c = none) {a : Word}
    (h : Stores c a) : ∃ k < n, ∃ addr, storeAddrN k c = some addr ∧ (a - addr).toNat < 8 := by
  obtain ⟨b, i, l, hcb, hnext, addr, haddr, ha⟩ := h
  obtain ⟨k, hk⟩ := cyclesN_of_cycles hcb
  have hkn : k < n := by
    refine Nat.lt_of_not_le fun hle => ?_
    rw [cyclesN_eq_none_of_le hle hn] at hk
    cases hk
  exact ⟨k, hkn, addr, by rw [storeAddrN, hk, Option.bind_some, hnext, Option.bind_some, haddr], ha⟩

end X86
