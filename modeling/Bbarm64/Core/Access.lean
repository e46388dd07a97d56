import Bbarm64.Core.Regions

/-!
# Core.Access — what a granted access says

`check_perms` compares `addr + len` with the end of each region in 64-bit arithmetic, so a sum that
wraps looks like a low end: the range is then granted by the first region that starts at or below
`addr` and ends at or above the wrapped sum (`grant_sound_iff`).  Nine of the ten accessors ask
`check_perms` about their full width; `read_u32` does not ask (`guarded_iff`).
-/

namespace Bbarm64

open X86

namespace MemoryManager

open ELFLoader (allows)

/-! ## Ranges -/

/-- The region that answers for `[addr, addr + len)`, where sums wrap. -/
def answering (addr len : Word) (regions : List MemRegion) : Option MemRegion :=
  regions.find? fun region => region.addr ≤ addr ∧ addr + len ≤ region.addr + region.size

/-- A granted range does not wrap, and it lies in one region. -/
def GrantSound (regions : List MemRegion) (addr len : Word) (needed : BitVec 32) : Prop :=
  check_perms_in addr len needed regions = true →
    addr.toNat + len.toNat < 2 ^ 64 ∧ ∃ r ∈ regions, ∀ i < len.toNat, r.Covers (off addr i)

/-- The range does not wrap, or the region that answers for it, if there is one, refuses. -/
def WrapRefused (regions : List MemRegion) (addr len : Word) (needed : BitVec 32) : Prop :=
  addr.toNat + len.toNat < 2 ^ 64 ∨
    ∀ r, answering addr len regions = some r → allows r needed = false

section Ranges

variable {regions : List MemRegion} {addr len : Word} {needed : BitVec 32}

theorem check_perms_in_eq :
    check_perms_in addr len needed regions = (answering addr len regions).any (allows · needed) := by
  induction regions with
  | nil => rfl
  | cons r regions ih =>
    unfold check_perms_in
    rw [answering, List.find?_cons]
    by_cases hin : r.addr ≤ addr ∧ addr + len ≤ r.addr + r.size
    · rw [if_pos hin, decide_eq_true hin]
      rfl
    · rw [if_neg hin, decide_eq_false hin, ih]
      rfl

/-- Without a wrap, a region contains what it seems to contain. -/
theorem covers_of_contains {r : MemRegion} (hw : addr.toNat + len.toNat < 2 ^ 64)
    (hlo : r.addr ≤ addr) (hhi : addr + len ≤ r.addr + r.size) {i : ℕ} (hi : i < len.toNat) :
    r.Covers (off addr i) := by
  have hsize := r.size.isLt
  rw [BitVec.le_def] at hlo
  rw [BitVec.le_def, BitVec.toNat_add, BitVec.toNat_add, Nat.mod_eq_of_lt hw] at hhi
  rw [MemRegion.Covers, off, BitVec.toNat_sub, BitVec.toNat_add, BitVec.toNat_ofNat]
  -- the end of the region does not wrap either, or it would be below the start
  have hend : r.addr.toNat + r.size.toNat < 2 ^ 64 := by
    omega
  rw [Nat.mod_eq_of_lt hend] at hhi
  omega

/-- **What `check_perms` grants** is a range of bytes of one region exactly if the range does not wrap
or is refused. -/
theorem grant_sound_iff : GrantSound regions addr len needed ↔ WrapRefused regions addr len needed := by
  unfold GrantSound WrapRefused
  rw [check_perms_in_eq]
  constructor
  · intro h
    refine or_iff_not_imp_left.mpr fun hwrap r hr => ?_
    by_contra hallow
    rw [hr, Option.any_some, ← Bool.not_eq_false] at h
    exact hwrap (h hallow).1
  · intro h hgrant
    obtain ⟨r, hr, hallow⟩ := (Option.any_eq_true _ _).mp hgrant
    rcases h with hw | hrefused
    · have hin := List.find?_some hr
      rw [decide_eq_true_iff] at hin
      exact ⟨hw, r, List.mem_of_find?_eq_some hr, fun i hi => covers_of_contains hw hin.1 hin.2 hi⟩
    · rw [hrefused r hr] at hallow
      cases hallow

end Ranges

/-- One page at 0x10000. -/
def one_page : List MemRegion :=
  [{ addr := 0x10000#64, size := 0x1000#64, perms := PROT_READ ||| PROT_WRITE }]

/-- A page is asked for 0x20000 bytes from the last page of the address space on, whose end wraps to the
end of the page. -/
theorem not_grant_sound : ¬ GrantSound one_page 0xFFFFFFFFFFFF1000#64 0x20000#64 PROT_READ := by
  intro h
  exact absurd (h (by decide)).1 (by decide)

/-! ## Accessors -/

/-- The accessors, with the other arguments of each. -/
inductive Access where
  | read_u8
  | read_u16
  | read_u32
  | read_u64
  | read_bytes (len : Word)
  | write_u8 (val : BitVec 8)
  | write_u16 (val : BitVec 16)
  | write_u32 (val : BitVec 32)
  | write_u64 (val : BitVec 64)
  | write_bytes (len : Word) (src : ℕ → Byte)

namespace Access

/-- Whether the accessor returns true. -/
def returns (m : MemoryManager) (addr : Word) : Access → Bool
  | read_u8 => (m.read_u8 addr).isSome
  | read_u16 => (m.read_u16 addr).isSome
  | read_u32 => (m.read_u32 addr).isSome
  | read_u64 => (m.read_u64 addr).isSome
  | read_bytes len => (m.read_bytes addr len).isSome
  | write_u8 val => (m.write_u8 addr val).1
  | write_u16 val => (m.write_u16 addr val).1
  | write_u32 val => (m.write_u32 addr val).1
  | write_u64 val => (m.write_u64 addr val).1
  | write_bytes len src => (m.write_bytes addr len src).1

/-- The full width, in bytes. -/
def width : Access → Word
  | read_u8 | write_u8 _ => 1#64
  | read_u16 | write_u16 _ => 2#64
  | read_u32 | write_u32 _ => 4#64
  | read_u64 | write_u64 _ => 8#64
  | read_bytes len | write_bytes len _ => len

def needed : Access → BitVec 32
  | read_u8 | read_u16 | read_u32 | read_u64 | read_bytes _ => PROT_READ
  | write_u8 _ | write_u16 _ | write_u32 _ | write_u64 _ | write_bytes _ _ => PROT_WRITE

end Access

/-- An accessor returns true only where `check_perms` grants the access over its full width. -/
def Guarded (m : MemoryManager) (addr : Word) : Prop :=
  ∀ access : Access, access.returns m addr = true →
    m.check_perms addr access.width access.needed = true

section Guards

variable {m : MemoryManager} {addr : Word}

theorem isSome_ite {α : Type*} {c : Bool} {a : α} : (if c then some a else none).isSome = c := by
  cases c <;> rfl

theorem fst_ite {α : Type*} {c : Bool} {a b : α} :
    (if c then (true, a) else (false, b)).1 = c := by
  cases c <;> rfl

/-- Nine accessors return what `check_perms` answers. -/
theorem returns_eq (access : Access) : access = .read_u32 ∨
    access.returns m addr = m.check_perms addr access.width access.needed := by
  cases access with
  | read_u32 => exact .inl rfl
  | read_u8 | read_u16 | read_u64 | read_bytes len => exact .inr isSome_ite
  | write_u8 val | write_u16 val | write_u32 val | write_u64 val => exact .inr fst_ite
  | write_bytes len src => exact .inr fst_ite

/-- **The guard of the accessors** is there at an address exactly if `check_perms` grants a read of four
bytes, which `read_u32` does without asking. -/
theorem guarded_iff : Guarded m addr ↔ m.check_perms addr 4#64 PROT_READ = true := by
  constructor
  · intro h
    exact h .read_u32 rfl
  · intro hread access htrue
    rcases returns_eq access with rfl | he
    · exact hread
    · rw [← he]
      exact htrue

end Guards

/-- Nothing is mapped, and a 32-bit load at 0 is not refused. -/
theorem not_guarded : ¬ Guarded (.new fun _ => 0#8) 0#64 := by
  intro h
  exact absurd (h .read_u32 rfl) (by decide)

end MemoryManager

end Bbarm64
