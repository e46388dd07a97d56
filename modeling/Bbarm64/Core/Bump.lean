import Bbarm64.Core.Regions

/-!
# Core.Bump — the bump pointer behind `mmap`

Without a hint, `mmap` takes the address at `mmap_base_` and moves the pointer by the rounded size, in
64-bit arithmetic, before it asks the host; the end of the reservation is not looked at.  A failed call
leaves the manager alone exactly if it had a hint or a rounded size of 0 (`failed_mmap_iff`), and the
ranges of a run are apart and in the reservation as long as each size asked for, refused or not, fits
behind the pointer (`requests_reserved`).
-/

namespace Bbarm64

open X86

namespace MemoryManager

/-! ## One call -/

section Call

variable {m : MemoryManager} (host_ok : Word → Word → BitVec 32 → Bool) (size : Word)
  (prot : BitVec 32) (hint_addr : Word)

/-- What `mmap` returns, and what it leaves in the pointers. -/
theorem mmap_spec : (m.mmap host_ok size prot hint_addr).1 =
      (if m.Maps host_ok size prot hint_addr then m.mmap_addr hint_addr else 0#64) ∧
    (m.mmap host_ok size prot hint_addr).2.mmap_base_ =
      (if hint_addr ≠ 0#64 then m.mmap_base_ else m.mmap_base_ + page_align size) ∧
    (m.mmap host_ok size prot hint_addr).2.brk_ = m.brk_ := by
  rw [mmap_eq]
  by_cases hmaps : m.Maps host_ok size prot hint_addr
  · simp only [if_pos hmaps, and_self]
  · simp only [if_neg hmaps, and_self]

/-- The pages of a mapping are zero. -/
theorem mmap_host : (m.mmap host_ok size prot hint_addr).2.host =
    if m.Maps host_ok size prot hint_addr then
      fill m.host (m.mmap_addr hint_addr) (page_align size).toNat fun _ => 0#8
    else m.host := by
  rw [mmap_eq]
  by_cases hmaps : m.Maps host_ok size prot hint_addr
  · simp only [if_pos hmaps]
  · simp only [if_neg hmaps]

variable {host_ok size prot hint_addr}

theorem mmap_eq_zero_iff :
    (m.mmap host_ok size prot hint_addr).1 = 0#64 ↔ ¬ m.Maps host_ok size prot hint_addr := by
  rw [(mmap_spec host_ok size prot hint_addr).1]
  split_ifs with hmaps
  · exact iff_of_false hmaps.1 (not_not_intro hmaps)
  · exact iff_of_true rfl hmaps

/-- The result depends on the bump pointer only. -/
theorem mmap_congr {m' : MemoryManager} (h : m'.mmap_base_ = m.mmap_base_) :
    (m'.mmap host_ok size prot hint_addr).1 = (m.mmap host_ok size prot hint_addr).1 := by
  have haddr : m'.mmap_addr hint_addr = m.mmap_addr hint_addr := by
    rw [mmap_addr, mmap_addr, h]
  have hmaps : m'.Maps host_ok size prot hint_addr ↔ m.Maps host_ok size prot hint_addr := by
    rw [Maps, Maps, haddr]
  rw [(mmap_spec host_ok size prot hint_addr).1, (mmap_spec host_ok size prot hint_addr).1, haddr]
  exact if_congr hmaps rfl rfl

end Call

/-! ## Failed calls -/

/-- A call that left the regions and the pointers as they were, and later calls without a hint with
their results. -/
structure LeftAlone (m m' : MemoryManager) : Prop where
  regions : m'.regions_ = m.regions_
  mmap_base : m'.mmap_base_ = m.mmap_base_
  brk : m'.brk_ = m.brk_
  later : ∀ host_ok size prot,
    (m'.mmap host_ok size prot 0#64).1 = (m.mmap host_ok size prot 0#64).1

/-- **A failed `mmap`** leaves the manager alone exactly if it had a hint, or the rounded size is 0 and
the bump pointer moved by nothing. -/
theorem failed_mmap_iff {m : MemoryManager} {host_ok : Word → Word → BitVec 32 → Bool} {size : Word}
    {prot : BitVec 32} {hint_addr : Word} (h : (m.mmap host_ok size prot hint_addr).1 = 0#64) :
    LeftAlone m (m.mmap host_ok size prot hint_addr).2 ↔ hint_addr ≠ 0#64 ∨ page_align size = 0#64 := by
  obtain ⟨-, hbase, hbrk⟩ := @mmap_spec m host_ok size prot hint_addr
  have hregions := @mmap_regions m host_ok size prot hint_addr
  rw [if_neg (mmap_eq_zero_iff.mp h)] at hregions
  have hsame : (if hint_addr ≠ 0#64 then m.mmap_base_ else m.mmap_base_ + page_align size) =
      m.mmap_base_ ↔ hint_addr ≠ 0#64 ∨ page_align size = 0#64 := by
    split_ifs with hhint
    · exact iff_of_true rfl (.inl hhint)
    · rw [or_iff_right hhint, BitVec.add_right_eq_self]
  rw [← hbase] at hsame
  constructor
  · intro hleft
    exact hsame.mp hleft.mmap_base
  · intro hcond
    exact ⟨hregions, hsame.mpr hcond, hbrk, fun _ _ _ => mmap_congr (hsame.mpr hcond)⟩

/-- A host without memory. -/
def maps_nothing (_ _ : Word) (_ : BitVec 32) : Bool := false

/-- At a hint. -/
theorem failed_mmap_iff_hint : LeftAlone fresh (fresh.mmap maps_nothing 4096#64 PROT_READ 0x10000#64).2 ↔
    0x10000#64 ≠ 0#64 ∨ page_align 4096#64 = 0#64 := failed_mmap_iff (by decide)

/-- Without one, the pointer has moved by the page. -/
theorem not_left_alone : (fresh.mmap maps_nothing 4096#64 PROT_READ 0#64).1 = 0#64 ∧
    ¬ LeftAlone fresh (fresh.mmap maps_nothing 4096#64 PROT_READ 0#64).2 := by
  refine ⟨by decide, fun h => ?_⟩
  exact absurd h.mmap_base (by decide)

/-! ## Runs of requests -/

/-- A call of `mmap` without a hint. -/
structure Request where
  host_ok : Word → Word → BitVec 32 → Bool
  size : Word
  prot : BitVec 32

def Request.op (q : Request) : MapOp := .mmap q.host_ok q.size q.prot 0#64

/-- The runs of requests behind `init`. -/
def Requests (host : Mem) (base total_size : Word) :
    List (MemoryManager × Request) → MemoryManager → Prop :=
  Trace (· = init host base total_size) fun m q m' => m' = m.apply q.op

/-- What a call of the run returned. -/
def returned (e : MemoryManager × Request) : Word :=
  (e.1.mmap e.2.host_ok e.2.size e.2.prot 0#64).1

/-- The address lies in the range that the call returned. -/
def InReturned (e : MemoryManager × Request) (a : Word) : Prop :=
  returned e ≠ 0#64 ∧ (a - returned e).toNat < (page_align e.2.size).toNat

/-- Each call returned 0 or a range in `[base, base + total_size)`, and no two ranges share a byte. -/
structure InReservation (base total_size : Word) (es : List (MemoryManager × Request)) : Prop where
  inside : ∀ e ∈ es, returned e = 0#64 ∨ base.toNat ≤ (returned e).toNat ∧
    (returned e).toNat + (page_align e.2.size).toNat ≤ base.toNat + total_size.toNat
  apart : es.Pairwise fun e e' => ∀ a, ¬ (InReturned e a ∧ InReturned e' a)

/-- The rounded size fits between the bump pointer and the end of the reservation. -/
def HasRoom (base total_size : Word) (m : MemoryManager) (q : Request) : Prop :=
  m.mmap_base_.toNat + (page_align q.size).toNat ≤ base.toNat + total_size.toNat

/-- The ranges lie one behind the other below the bump pointer. -/
structure Bumped (base total_size : Word) (es : List (MemoryManager × Request)) (m : MemoryManager) :
    Prop where
  low : base.toNat ≤ m.mmap_base_.toNat
  high : m.mmap_base_.toNat ≤ base.toNat + total_size.toNat
  below : ∀ e ∈ es, returned e = 0#64 ∨ base.toNat ≤ (returned e).toNat ∧
    (returned e).toNat + (page_align e.2.size).toNat ≤ m.mmap_base_.toNat
  apart : es.Pairwise fun e e' => ∀ a, ¬ (InReturned e a ∧ InReturned e' a)

section Run

variable {host : Mem} {base total_size : Word} {es : List (MemoryManager × Request)}
  {m : MemoryManager} {q : Request}

theorem returned_eq (m : MemoryManager) (q : Request) : returned (m, q) =
    if m.Maps q.host_ok q.size q.prot 0#64 then m.mmap_base_ else 0#64 :=
  (mmap_spec q.host_ok q.size q.prot 0#64).1

theorem returned_eq_zero_iff (m : MemoryManager) (q : Request) :
    returned (m, q) = 0#64 ↔ ¬ m.Maps q.host_ok q.size q.prot 0#64 := mmap_eq_zero_iff

theorem request_mmap_base (m : MemoryManager) (q : Request) :
    (m.apply q.op).mmap_base_ = m.mmap_base_ + page_align q.size :=
  (mmap_spec q.host_ok q.size q.prot 0#64).2.1

theorem InReservation.of_bumped (h : Bumped base total_size es m) :
    InReservation base total_size es := by
  refine ⟨fun e he => (h.below e he).imp_right fun ⟨hlo, hhi⟩ => ⟨hlo, ?_⟩, h.apart⟩
  exact Nat.le_trans hhi h.high

variable (hend : base.toNat + total_size.toNat < 2 ^ 64)
include hend

theorem bumped_init : Bumped base total_size [] (init host base total_size) := by
  have hbase : (init host base total_size).mmap_base_.toNat =
      base.toNat + total_size.toNat / 2 := by
    have htwo : (2#64).toNat = 2 := rfl
    show (base + total_size / 2#64).toNat = _
    rw [BitVec.toNat_add, BitVec.toNat_udiv, htwo]
    omega
  refine ⟨?_, ?_, List.forall_mem_nil _, List.Pairwise.nil⟩
  · omega
  · omega

/-- **One request** with room gives a range behind the others. -/
theorem bumped_snoc (h : Bumped base total_size es m) (hroom : HasRoom base total_size m q) :
    Bumped base total_size (es ++ [(m, q)]) (m.apply q.op) := by
  obtain ⟨hlow, hhigh, hbelow, hapart⟩ := h
  unfold HasRoom at hroom
  have hbase : (m.apply q.op).mmap_base_.toNat = m.mmap_base_.toNat + (page_align q.size).toNat := by
    rw [request_mmap_base, BitVec.toNat_add, Nat.mod_eq_of_lt (by omega)]
  have hret := returned_eq m q
  refine ⟨by omega, by omega, List.forall_mem_append.mpr ⟨fun e he => ?_, ?_⟩,
    List.pairwise_append.mpr ⟨hapart, List.pairwise_singleton _ _, fun e he e' he' a => ?_⟩⟩
  · exact (hbelow e he).imp_right fun hin => ⟨hin.1, by omega⟩
  · refine List.forall_mem_singleton.mpr ?_
    split_ifs at hret with hmaps
    · rw [hret]
      exact .inr ⟨hlow, Nat.le_of_eq hbase.symm⟩
    · exact .inl hret
  · obtain rfl := List.mem_singleton.mp he'
    rintro ⟨⟨hne, ha⟩, hne', ha'⟩
    obtain ⟨-, hbefore⟩ := (hbelow e he).resolve_left hne
    split_ifs at hret with hmaps
    · change (a - returned (m, q)).toNat < (page_align q.size).toNat at ha'
      rw [sub_toNat_lt_iff (by omega)] at ha
      rw [hret, sub_toNat_lt_iff (by omega)] at ha'
      omega
    · exact hne' hret

theorem bumped_of_requests (h : Requests host base total_size es m)
    (hroom : ∀ e ∈ es, HasRoom base total_size e.1 e.2) : Bumped base total_size es m := by
  induction h with
  | nil h =>
    obtain rfl := h
    exact bumped_init hend
  | @snoc es m m' q h hstep ih =>
    obtain rfl := hstep
    have hbefore := ih fun e he => hroom e (List.mem_append_left _ he)
    exact bumped_snoc hend hbefore (hroom _ (List.mem_append_right _ (List.mem_singleton_self _)))

/-- **Requests stay in the reservation**: in a run of requests that each have room, refused or not, every
range lies in the reservation and no two share a byte; and a next request keeps this up exactly if it is
refused or has room. -/
theorem requests_reserved (h : Requests host base total_size es m)
    (hroom : ∀ e ∈ es, HasRoom base total_size e.1 e.2) : InReservation base total_size es ∧
    ∀ q : Request, InReservation base total_size (es ++ [(m, q)]) ↔
      (m.Maps q.host_ok q.size q.prot 0#64 → HasRoom base total_size m q) := by
  have hb := bumped_of_requests hend h hroom
  refine ⟨.of_bumped hb, fun q => ⟨fun hres hmaps => ?_, fun hq => ?_⟩⟩
  · have hlast := hres.inside (m, q) (List.mem_append_right _ (List.mem_singleton_self _))
    have hret := returned_eq m q
    rw [if_pos hmaps] at hret
    have hne : returned (m, q) ≠ 0#64 := fun h0 => (returned_eq_zero_iff m q).mp h0 hmaps
    have hin := (hlast.resolve_left hne).2
    rw [hret] at hin
    exact hin
  · by_cases hmaps : m.Maps q.host_ok q.size q.prot 0#64
    · exact .of_bumped (bumped_snoc hend hb (hq hmaps))
    · have hnone := (returned_eq_zero_iff m q).mpr hmaps
      refine ⟨List.forall_mem_append.mpr ⟨(InReservation.of_bumped hb).inside, ?_⟩,
        List.pairwise_append.mpr ⟨hb.apart, List.pairwise_singleton _ _, fun e _ e' he' a => ?_⟩⟩
      · exact List.forall_mem_singleton.mpr (.inl hnone)
      · obtain rfl := List.mem_singleton.mp he'
        rintro ⟨-, hne, -⟩
        exact hne hnone

end Run

/-- A request for `size` read-write bytes. -/
def request (size : Word) : Request := ⟨maps_user, size, PROT_READ ||| PROT_WRITE⟩

/-- The first half of what `init` leaves for `mmap`. -/
theorem requests_reserved_half :
    let q := request 0x40000000#64
    InReservation 0x100000000#64 0x100000000#64 [(fresh, q)] ∧
    ∀ q' : Request, InReservation 0x100000000#64 0x100000000#64
        ([(fresh, q)] ++ [(fresh.apply q.op, q')]) ↔
      ((fresh.apply q.op).Maps q'.host_ok q'.size q'.prot 0#64 →
        HasRoom 0x100000000#64 0x100000000#64 (fresh.apply q.op) q') := by
  intro q
  have h : Requests (fun _ => 0#8) 0x100000000#64 0x100000000#64 ([] ++ [(fresh, q)]) (fresh.apply q.op) :=
    .snoc (.nil rfl) rfl
  exact requests_reserved (by decide) h (List.forall_mem_singleton.mpr (by unfold HasRoom; decide))

/-- One page more than there is gives a range over the end of the reservation. -/
theorem not_in_reservation : ∃ es m, Requests (fun _ => 0#8) 0x100000000#64 0x100000000#64 es m ∧
    es.map (·.2) = [request 0x80001000#64] ∧
    ¬ InReservation 0x100000000#64 0x100000000#64 es := by
  refine ⟨_, _, .snoc (.nil rfl) rfl, rfl, fun h => ?_⟩
  have hin := h.inside _ (List.mem_singleton_self _)
  revert hin
  decide

end MemoryManager

end Bbarm64
