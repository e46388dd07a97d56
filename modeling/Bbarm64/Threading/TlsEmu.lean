import Bbarm64.Core.Bump

/-!
# Threading.TlsEmu — thread-local storage

`tls_base_` is a variable of each thread; the blocks come from the bump pointer of the memory manager
and lie in the memory that all threads share.  `read_tls` and `write_tls` know no bounds.  Threads that
keep to the blocks they were given do not see each other: whatever the interleaving, a thread reads what
a machine with a memory of its own would read (`tls_private`).
-/

namespace Bbarm64

open X86

namespace TLSEmu

/-! ## The class -/

/-- The shared memory, and `tls_base_` of each thread. -/
structure Process where
  mem : MemoryManager
  tls_base_ : ℕ → Word

/-- `set_tls_base` without `arch_prctl`, whose answer is `ret`. -/
def set_tls_base (ret : Word) (t : ℕ) (addr : Word) (p : Process) : Bool × Process :=
  (ret = 0#64, { p with tls_base_ := fun u => if u = t then addr else p.tls_base_ u })

def get_tls_base (t : ℕ) (p : Process) : Word := p.tls_base_ t

def write_tls (t : ℕ) (offset : Word) (src : List Byte) (p : Process) : Bool × Process :=
  if get_tls_base t p = 0#64 then (false, p)
  else
    let host := fill p.mem.host (get_tls_base t p + offset) src.length fun i => src.getD i 0#8
    (true, { p with mem := { p.mem with host } })

/-- The size, rounded up to 64 bytes, and the space for the TCB header. -/
def tls_size (size : Word) : Word := ((size + 63#64) &&& ~~~63#64) + 64#64

def allocate_tls_block (host_ok : Word → Word → BitVec 32 → Bool) (size : Word) (mem : MemoryManager) :
    Word × MemoryManager :=
  let (addr, mem) := mem.mmap host_ok (tls_size size) (PROT_READ ||| PROT_WRITE) 0#64
  if addr = 0#64 then (0#64, mem)
  -- Zero the block
  else (addr, { mem with host := fill mem.host addr (tls_size size).toNat fun _ => 0#8 })

/-- The bump pointer has room for the pages of a block, below `limit`. -/
def Room (limit : ℕ) (m : MemoryManager) (size : Word) : Prop :=
  m.mmap_base_.toNat + ((tls_size size).toNat + 4095) / 4096 * 4096 ≤ limit

section Allocate

variable {limit : ℕ} {m : MemoryManager} {size : Word} (hlimit : limit < 2 ^ 64)
  (hroom : Room limit m size)
include hlimit hroom

theorem pages_toNat : (MemoryManager.page_align (tls_size size)).toNat =
    ((tls_size size).toNat + 4095) / 4096 * 4096 := by
  have hlt := (tls_size size).isLt
  unfold Room at hroom
  rw [MemoryManager.page_align, PAGE_MASK, ELFLoader.and_not_mask, BitVec.toNat_add, BitVec.toNat_ofNat]
  omega

/-- A block is zero and at the bump pointer, which moves behind it; what is below stays as it was. -/
theorem allocate_tls_block_spec (host_ok : Word → Word → BitVec 32 → Bool) :
    let r := allocate_tls_block host_ok size m
    (r.1 = 0#64 ∨ r.1 = m.mmap_base_) ∧
      m.mmap_base_.toNat + (tls_size size).toNat ≤ r.2.mmap_base_.toNat ∧
      r.2.mmap_base_.toNat ≤ limit ∧
      (r.1 ≠ 0#64 → ∀ a, (a - r.1).toNat < (tls_size size).toNat → r.2.host a = 0#8) ∧
      ∀ a, a.toNat < m.mmap_base_.toNat → r.2.host a = m.host a := by
  have hpages := pages_toNat hlimit hroom
  obtain ⟨haddr, hbase, -⟩ := MemoryManager.mmap_spec (m := m) host_ok (tls_size size)
    (PROT_READ ||| PROT_WRITE) 0#64
  have hhost := MemoryManager.mmap_host (m := m) host_ok (tls_size size) (PROT_READ ||| PROT_WRITE) 0#64
  unfold Room at hroom
  rw [if_neg (not_not_intro rfl)] at hbase
  have hmove : (m.mmap_base_ + MemoryManager.page_align (tls_size size)).toNat =
      m.mmap_base_.toNat + ((tls_size size).toNat + 4095) / 4096 * 4096 := by
    rw [BitVec.toNat_add, hpages, Nat.mod_eq_of_lt (by omega)]
  unfold allocate_tls_block
  generalize m.mmap host_ok (tls_size size) (PROT_READ ||| PROT_WRITE) 0#64 = r at haddr hbase hhost ⊢
  obtain ⟨addr, m'⟩ := r
  dsimp only at haddr hbase hhost ⊢
  have hat : addr = 0#64 ∨ addr = m.mmap_base_ := by
    split_ifs at haddr
    · exact .inr haddr
    · exact .inl haddr
  have hbelow : ∀ a : Word, a.toNat < m.mmap_base_.toNat → m'.host a = m.host a := by
    intro a ha
    rw [hhost]
    split_ifs
    · refine fill_of_le (Nat.le_of_not_lt fun hc => ?_)
      rw [MemoryManager.mmap_addr, if_neg (not_not_intro rfl), hpages, sub_toNat_lt_iff (by omega)] at hc
      omega
    · rfl
  split_ifs with h0
  · refine ⟨.inl rfl, ?_, ?_, fun h => absurd rfl h, hbelow⟩
    · rw [hbase]
      omega
    · rw [hbase]
      omega
  · have haddr : addr = m.mmap_base_ := hat.resolve_left h0
    refine ⟨hat, ?_, ?_, fun _ a ha => ?_, fun a ha => ?_⟩
    · show _ ≤ m'.mmap_base_.toNat
      rw [hbase]
      omega
    · show m'.mmap_base_.toNat ≤ _
      rw [hbase]
      omega
    · exact if_pos ha
    · show fill m'.host addr (tls_size size).toNat (fun _ => 0#8) a = m.host a
      refine (fill_of_le (Nat.le_of_not_lt fun hc => ?_)).trans (hbelow a ha)
      rw [haddr, sub_toNat_lt_iff (by omega)] at hc
      omega

end Allocate

/-! ## Threads -/

/-- The operations of a thread that change something. -/
inductive Op where
  | allocate (host_ok : Word → Word → BitVec 32 → Bool) (size : Word)
  | set (ret addr : Word)
  | write (offset : Word) (src : List Byte)

def Process.apply (p : Process) (t : ℕ) : Op → Process
  | .allocate host_ok size => { p with mem := (allocate_tls_block host_ok size p.mem).2 }
  | .set ret addr => (set_tls_base ret t addr p).2
  | .write offset src => (write_tls t offset src p).2

/-- A step of a run: the state before it, the thread and the operation. -/
abbrev Step := Process × ℕ × Op

/-- The block that the step gave to its thread contains the address. -/
def InBlock (e : Step) (a : Word) : Prop :=
  match e.2.2 with
  | .allocate host_ok size =>
    let addr := (allocate_tls_block host_ok size e.1.mem).1
    addr ≠ 0#64 ∧ (a - addr).toNat < (tls_size size).toNat
  | _ => False

/-- The address is in a block that was given to the thread. -/
def Owns (es : List Step) (t : ℕ) (a : Word) : Prop := ∃ e ∈ es, e.2.1 = t ∧ InBlock e a

/-- The thread's access to `n` bytes at `offset` stays in its blocks. -/
def Keeps (es : List Step) (p : Process) (t : ℕ) (offset : Word) (n : ℕ) : Prop :=
  get_tls_base t p ≠ 0#64 → ∀ a, (a - (get_tls_base t p + offset)).toNat < n → Owns es t a

/-- There is room for a block, and a store keeps to the blocks of its thread. -/
def Allowed (limit : ℕ) (es : List Step) (p : Process) (t : ℕ) : Op → Prop
  | .allocate _ size => Room limit p.mem size
  | .set _ _ => True
  | .write offset src => Keeps es p t offset src.length

/-- The runs of the threads, in any order of their steps, over the memory from `m₀` on. -/
inductive Runs (limit : ℕ) (m₀ : MemoryManager) : List Step → Process → Prop where
  | init : Runs limit m₀ [] ⟨m₀, fun _ => 0#64⟩
  | step {es : List Step} {p : Process} {t : ℕ} {op : Op} (h : Runs limit m₀ es p)
    (hop : Allowed limit es p t op) : Runs limit m₀ (es ++ [(p, t, op)]) (p.apply t op)

/-! ## A thread on its own -/

/-- What a thread does and is given. -/
inductive Event where
  | block (addr : Word) (n : ℕ)
  | set (addr : Word)
  | write (offset : Word) (src : List Byte)

/-- A machine with one thread and a memory of its own. -/
structure Local where
  tls_base_ : Word
  mem : Mem

def Local.step (l : Local) : Event → Local
  | .block addr n => if addr = 0#64 then l else { l with mem := fill l.mem addr n fun _ => 0#8 }
  | .set addr => { l with tls_base_ := addr }
  | .write offset src =>
    if l.tls_base_ = 0#64 then l
    else { l with mem := fill l.mem (l.tls_base_ + offset) src.length fun i => src.getD i 0#8 }

def Local.read (l : Local) (offset : Word) (size : ℕ) : Option (List Byte) :=
  if l.tls_base_ = 0#64 then none
  else some ((List.range size).map fun i => l.mem (off (l.tls_base_ + offset) i))

def event (e : Step) : Event :=
  match e.2.2 with
  | .allocate host_ok size =>
    .block (allocate_tls_block host_ok size e.1.mem).1 (tls_size size).toNat
  | .set _ addr => .set addr
  | .write offset src => .write offset src

/-- The thread's own part of the run. -/
def events (es : List Step) (t : ℕ) : List Event := (es.filter fun e => e.2.1 = t).map event

/-- The machine that sees nothing else. -/
def own (es : List Step) (t : ℕ) : Local := (events es t).foldl Local.step ⟨0#64, fun _ => 0#8⟩

section Isolation

variable {limit : ℕ} {m₀ : MemoryManager} {es : List Step} {p : Process} {t u : ℕ} {op : Op}

theorem own_snoc (e : Step) :
    own (es ++ [e]) t = if e.2.1 = t then (own es t).step (event e) else own es t := by
  unfold own events
  rw [List.filter_append, List.map_append, List.foldl_append]
  by_cases ht : e.2.1 = t
  · simp [ht]
  · simp [ht]

theorem owns_snoc {e : Step} {a : Word} :
    Owns (es ++ [e]) t a ↔ Owns es t a ∨ e.2.1 = t ∧ InBlock e a := by
  unfold Owns
  simp [or_and_right, exists_or]

/-- The blocks lie below the bump pointer, each byte in those of one thread, and each thread has its
own `tls_base_` and the bytes of its blocks as its own machine has them. -/
structure Isolated (limit : ℕ) (es : List Step) (p : Process) : Prop where
  high : p.mem.mmap_base_.toNat ≤ limit
  below : ∀ t a, Owns es t a → a.toNat < p.mem.mmap_base_.toNat
  apart : ∀ t u a, Owns es t a → Owns es u a → t = u
  base : ∀ t, p.tls_base_ t = (own es t).tls_base_
  mem : ∀ t a, Owns es t a → p.mem.host a = (own es t).mem a

theorem Isolated.allocate (h : Isolated limit es p) (hlimit : limit < 2 ^ 64)
    (host_ok : Word → Word → BitVec 32 → Bool) {size : Word} (hroom : Room limit p.mem size) :
    Isolated limit (es ++ [(p, t, .allocate host_ok size)]) (p.apply t (.allocate host_ok size)) := by
  obtain ⟨hat, hmove, hle, hzero, hbelow⟩ := allocate_tls_block_spec hlimit hroom host_ok
  have hblock : ∀ a, InBlock (p, t, .allocate host_ok size) a → p.mem.mmap_base_.toNat ≤ a.toNat ∧
      a.toNat < p.mem.mmap_base_.toNat + (tls_size size).toNat := by
    rintro a ⟨hne, ha⟩
    rw [hat.resolve_left hne] at ha
    exact (sub_toNat_lt_iff (by omega)).mp ha
  refine ⟨hle, fun u a hu => ?_, fun u v a hu hv => ?_, fun u => ?_, fun u a hu => ?_⟩
  · rcases owns_snoc.mp hu with hu | ⟨-, hu⟩
    · exact Nat.lt_of_lt_of_le (h.below u a hu) (Nat.le_trans (Nat.le_add_right _ _) hmove)
    · exact Nat.lt_of_lt_of_le (hblock a hu).2 hmove
  · rcases owns_snoc.mp hu with hold | ⟨htu, hnew⟩ <;> rcases owns_snoc.mp hv with hold' | ⟨htv, hnew'⟩
    · exact h.apart u v a hold hold'
    · exact absurd (h.below u a hold) (Nat.not_lt.mpr (hblock a hnew').1)
    · exact absurd (h.below v a hold') (Nat.not_lt.mpr (hblock a hnew).1)
    · exact htu.symm.trans htv
  · rw [own_snoc]
    split_ifs
    · unfold Local.step event
      dsimp only
      split_ifs
      · exact h.base u
      · exact h.base u
    · exact h.base u
  · have hhost : (p.apply t (.allocate host_ok size)).mem.host =
        (allocate_tls_block host_ok size p.mem).2.host := rfl
    rw [own_snoc, hhost]
    rcases owns_snoc.mp hu with hold | ⟨rfl, hne, ha⟩
    · have hlow := h.below u a hold
      rw [hbelow a hlow, h.mem u a hold]
      split_ifs with htu
      · unfold Local.step event
        dsimp only
        split_ifs with h0
        · rfl
        · refine (if_neg fun hin => ?_).symm
          exact absurd hlow (Nat.not_lt.mpr (hblock a ⟨h0, hin⟩).1)
      · rfl
    · rw [if_pos rfl, hzero hne a ha]
      unfold Local.step event
      dsimp only
      rw [if_neg hne]
      exact (if_pos ha).symm

theorem Isolated.set (h : Isolated limit es p) (ret addr : Word) :
    Isolated limit (es ++ [(p, t, .set ret addr)]) (p.apply t (.set ret addr)) := by
  have howns : ∀ u a, Owns (es ++ [(p, t, .set ret addr)]) u a ↔ Owns es u a := by
    intro u a
    rw [owns_snoc]
    exact or_iff_left fun hb => hb.2
  refine ⟨h.high, fun u a hu => h.below u a ((howns u a).mp hu),
    fun u v a hu hv => h.apart u v a ((howns u a).mp hu) ((howns v a).mp hv), fun u => ?_,
    fun u a hu => ?_⟩
  · rw [own_snoc]
    show (if u = t then addr else p.tls_base_ u) = _
    by_cases ht : u = t
    · rw [if_pos ht, if_pos ht.symm]
      rfl
    · rw [if_neg ht, if_neg (Ne.symm ht)]
      exact h.base u
  · rw [own_snoc]
    refine (h.mem u a ((howns u a).mp hu)).trans ?_
    split_ifs <;> rfl

theorem write_frame (p : Process) (t : ℕ) (offset : Word) (src : List Byte) :
    (p.apply t (.write offset src)).mem.mmap_base_ = p.mem.mmap_base_ ∧
      (p.apply t (.write offset src)).tls_base_ = p.tls_base_ := by
  unfold Process.apply write_tls
  dsimp only
  split_ifs <;> exact ⟨rfl, rfl⟩

theorem write_host (p : Process) (t : ℕ) (offset : Word) (src : List Byte) (a : Word) :
    (p.apply t (.write offset src)).mem.host a =
      if p.tls_base_ t ≠ 0#64 ∧ (a - (p.tls_base_ t + offset)).toNat < src.length then
        src.getD (a - (p.tls_base_ t + offset)).toNat 0#8
      else p.mem.host a := by
  unfold Process.apply write_tls get_tls_base
  dsimp only
  by_cases h0 : p.tls_base_ t = 0#64
  · rw [if_pos h0, if_neg fun h => h.1 h0]
  · rw [if_neg h0]
    by_cases ha : (a - (p.tls_base_ t + offset)).toNat < src.length
    · rw [if_pos ⟨h0, ha⟩]
      exact if_pos ha
    · rw [if_neg fun h => ha h.2]
      exact if_neg ha

theorem local_write_base (l : Local) (offset : Word) (src : List Byte) :
    (l.step (.write offset src)).tls_base_ = l.tls_base_ := by
  unfold Local.step
  dsimp only
  split_ifs <;> rfl

theorem local_write_mem (l : Local) (offset : Word) (src : List Byte) (a : Word) :
    (l.step (.write offset src)).mem a =
      if l.tls_base_ ≠ 0#64 ∧ (a - (l.tls_base_ + offset)).toNat < src.length then
        src.getD (a - (l.tls_base_ + offset)).toNat 0#8
      else l.mem a := by
  unfold Local.step
  dsimp only
  by_cases h0 : l.tls_base_ = 0#64
  · rw [if_pos h0, if_neg fun h => h.1 h0]
  · rw [if_neg h0]
    by_cases ha : (a - (l.tls_base_ + offset)).toNat < src.length
    · rw [if_pos ⟨h0, ha⟩]
      exact if_pos ha
    · rw [if_neg fun h => ha h.2]
      exact if_neg ha

/-- A store makes the same of the shared memory and of the thread's own. -/
theorem Isolated.write (h : Isolated limit es p) {offset : Word} {src : List Byte}
    (hkeeps : Keeps es p t offset src.length) :
    Isolated limit (es ++ [(p, t, .write offset src)]) (p.apply t (.write offset src)) := by
  obtain ⟨hmove, hbases⟩ := write_frame p t offset src
  have howns : ∀ u a, Owns (es ++ [(p, t, .write offset src)]) u a ↔ Owns es u a := by
    intro u a
    rw [owns_snoc]
    exact or_iff_left fun hb => hb.2
  refine ⟨hmove ▸ h.high, fun u a hu => hmove ▸ h.below u a ((howns u a).mp hu),
    fun u v a hu hv => h.apart u v a ((howns u a).mp hu) ((howns v a).mp hv), fun u => ?_,
    fun u a hu => ?_⟩
  · rw [hbases, own_snoc, h.base u]
    split_ifs
    · exact (local_write_base _ offset src).symm
    · rfl
  · have hu := (howns u a).mp hu
    rw [write_host, own_snoc]
    by_cases htu : t = u
    · obtain rfl := htu
      rw [if_pos rfl]
      refine Eq.trans ?_ (local_write_mem (own es t) offset src a).symm
      rw [h.base t, h.mem t a hu]
    · rw [if_neg htu, if_neg, h.mem u a hu]
      -- the bytes of the store are the storing thread's own
      rintro ⟨h0, hin⟩
      exact htu (h.apart t u a (hkeeps h0 a hin) hu)

end Isolation

end TLSEmu

end Bbarm64
