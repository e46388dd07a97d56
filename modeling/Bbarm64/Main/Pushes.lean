import Mathlib.Data.List.Forall2
import Bbarm64.Main.Stack

/-!
# Main.Pushes — the memory behind a sequence of pushes

Regions are made of whole pages, so that pushes within one page are all stored or all refused
(`runs_in_page`).  Stored pushes to disjoint ranges are all there in the end (`storedIn_of_mem`), and
ranges are disjoint where their slots, offsets and sizes from one address, are (`pairwise_of_slots`).
-/

namespace Bbarm64

open X86

namespace Main

open MemoryManager (check_in_page OnPages)

/-! ## The memory behind the pushes -/

namespace Push

/-- The memory behind the stores of a push. -/
def store (host : Mem) (p : Push) : Mem := fill host p.addr p.bytes.length fun i => p.bytes.getD i 0#8

theorem bytes_length_pos (p : Push) : 0 < p.bytes.length := by
  cases p with
  | u64 addr val => exact Nat.zero_lt_succ 7
  | ptr addr val => exact Nat.zero_lt_succ 7
  | str addr s =>
    rw [bytes, copied, List.length_take, List.length_append, List.length_singleton]
    omega

theorem bytes_length_le (p : Push) : p.bytes.length ≤ 64 := by
  cases p with
  | u64 addr val => exact Nat.le_add_right 8 56
  | ptr addr val => exact Nat.le_add_right 8 56
  | str addr s => exact List.length_take_le _ _

end Push

section Run

variable {m : MemoryManager} {page : Word} (hr : ∀ r ∈ m.regions_, OnPages r.addr r.size)
  (hpage : 4096 ∣ page.toNat) (hend : page.toNat + 4096 < 2 ^ 64)
include hr hpage hend

/-- A store within the page. -/
theorem write_u_in_page {w k : ℕ} {a : Word} (hk : 0 < k) (ha : page.toNat ≤ a.toNat)
    (hak : a.toNat + k ≤ page.toNat + 4096) (val : BitVec w) : (m.write_u k a val).2 =
      if m.check_perms page 4096#64 PROT_WRITE then { m with host := writeN k m.host a val }
      else m := by
  have hcheck := check_in_page hr hpage hend hk ha hak PROT_WRITE
  unfold MemoryManager.write_u MemoryManager.check_perms
  rw [hcheck]
  split_ifs <;> rfl

/-- The loop of a string. -/
theorem copy_in_page {a : Word} {n : ℕ} (ha : page.toNat ≤ a.toNat)
    (han : a.toNat + n ≤ page.toNat + 4096) (f : ℕ → Byte) :
    (List.range n).foldl (fun m i => (m.write_u8 (off a i) (f i)).2) m =
      if m.check_perms page 4096#64 PROT_WRITE then { m with host := fill m.host a n f } else m := by
  induction n with
  | zero => 
    have hnone : fill m.host a 0 f = m.host := rfl
    rw [hnone]
    split_ifs <;> rfl
  | succ n ih =>
    have hn : n < 2 ^ 64 := by omega
    have hoff : (off a n).toNat = a.toNat + n := by
      rw [off, BitVec.toNat_add, BitVec.toNat_ofNat]
      omega
    rw [List.range_succ, List.foldl_append, ih (by omega), List.foldl_cons, List.foldl_nil]
    by_cases hcheck : m.check_perms page 4096#64 PROT_WRITE = true
    · rw [if_pos hcheck, if_pos hcheck, MemoryManager.write_u8]
      refine (write_u_in_page (m := { m with host := fill m.host a n f }) hr hpage hend Nat.one_pos
        (by omega) (by omega) (f n)).trans ((if_pos hcheck).trans ?_)
      rw [fill_succ m.host a hn]
    · rw [if_neg hcheck, if_neg hcheck, MemoryManager.write_u8,
        write_u_in_page hr hpage hend Nat.one_pos (by omega) (by omega), if_neg hcheck]

/-- A push within the page. -/
theorem run_in_page {p : Push} (ha : page.toNat ≤ p.addr.toNat)
    (hak : p.addr.toNat + p.bytes.length ≤ page.toNat + 4096) : p.run m =
      if m.check_perms page 4096#64 PROT_WRITE then { m with host := p.store m.host } else m := by
  cases p with
  | u64 addr val =>
    rw [Push.store, Push.addr, Push.bytes, le64_length, ← writeN_le64]
    exact write_u_in_page hr hpage hend (Nat.zero_lt_succ 7) ha hak val
  | ptr addr val =>
    rw [Push.store, Push.addr, Push.bytes, le64_length, ← writeN_le64]
    exact write_u_in_page hr hpage hend (Nat.zero_lt_succ 7) ha hak val
  | str addr s => exact copy_in_page hr hpage hend ha hak _

/-- **The pushes within a page** are all stored or all refused. -/
theorem runs_in_page {pushes : List Push} (h : ∀ p ∈ pushes, page.toNat ≤ p.addr.toNat ∧
    p.addr.toNat + p.bytes.length ≤ page.toNat + 4096) : pushes.foldl Push.run m =
      if m.check_perms page 4096#64 PROT_WRITE then { m with host := pushes.foldl Push.store m.host }
      else m := by
  induction pushes generalizing m with
  | nil => split_ifs <;> rfl
  | cons p pushes ih =>
    obtain ⟨⟨ha, hak⟩, hrest⟩ := List.forall_mem_cons.mp h
    rw [List.foldl_cons, run_in_page hr hpage hend ha hak]
    by_cases hcheck : m.check_perms page 4096#64 PROT_WRITE = true
    · rw [if_pos hcheck, if_pos hcheck]
      exact (ih (m := { m with host := p.store m.host }) hr hrest).trans (if_pos hcheck)
    · rw [if_neg hcheck, if_neg hcheck, ih hr hrest, if_neg hcheck]

end Run

/-! ## Disjoint pushes -/

namespace Push

def patch (p : Push) : Patch Word Byte := ⟨p.dom, fun a => p.bytes.getD (a - p.addr).toNat 0#8⟩

theorem store_eq (host : Mem) (p : Push) : p.store host = p.patch.apply host := by
  funext b
  by_cases hb : b ∈ p.patch.dom
  · rw [Patch.apply_of_mem hb]
    exact if_pos hb
  · rw [Patch.apply_of_notMem hb]
    exact if_neg hb

theorem stores_eq (host : Mem) (pushes : List Push) :
    pushes.foldl store host = Patch.applyAll (pushes.map patch) host := by
  induction pushes generalizing host with
  | nil => rfl
  | cons p pushes ih => rw [List.foldl_cons, ih, List.map_cons, Patch.applyAll_cons, store_eq]

/-- The memory holds the bytes of the push. -/
def StoredIn (p : Push) (host : Mem) : Prop :=
  ∀ i < p.bytes.length, host (off p.addr i) = p.bytes.getD i 0#8

theorem mem_dom {p : Push} {i : ℕ} (hi : i < p.bytes.length) : off p.addr i ∈ p.dom := by
  have hlen := p.bytes_length_le
  show (off p.addr i - p.addr).toNat < p.bytes.length
  rw [off_sub_self (by omega)]
  exact hi

theorem patch_val {p : Push} {i : ℕ} (hi : i < p.bytes.length) :
    p.patch.val (off p.addr i) = p.bytes.getD i 0#8 := by
  have hlen := p.bytes_length_le
  show p.bytes.getD (off p.addr i - p.addr).toNat 0#8 = _
  rw [off_sub_self (by omega)]

/-- **Disjoint pushes** are all there in the end. -/
theorem storedIn_of_mem {pushes : List Push} (hd : pushes.Pairwise fun p q => Disjoint p.dom q.dom)
    {p : Push} (hp : p ∈ pushes) (host : Mem) : p.StoredIn (pushes.foldl store host) := by
  intro i hi
  have hmem : off p.addr i ∈ p.patch.dom := mem_dom hi
  rw [stores_eq, Patch.applyAll_of_mem (List.pairwise_map.mpr hd) (List.mem_map_of_mem hp) hmem,
    patch_val hi]

/-- The last push is there in the end. -/
theorem storedIn_last (pushes : List Push) (p : Push) (host : Mem) :
    p.StoredIn ((pushes ++ [p]).foldl store host) := by
  intro i hi
  have hmem : off p.addr i ∈ p.patch.dom := mem_dom hi
  rw [List.foldl_append, List.foldl_cons, List.foldl_nil, store_eq, Patch.apply_of_mem hmem,
    patch_val hi]

/-- A push is there in the end if no later one goes to its bytes. -/
theorem storedIn_getElem {pushes : List Push} {i : ℕ} (hi : i < pushes.length)
    (h : ∀ j (hj : j < pushes.length), i < j → Disjoint pushes[i].dom pushes[j].dom) (host : Mem) :
    pushes[i].StoredIn (pushes.foldl store host) := by
  intro k hk
  have hfold : pushes.foldl store host =
      (pushes.drop (i + 1)).foldl store ((pushes.take (i + 1)).foldl store host) := by
    rw [← List.foldl_append, List.take_append_drop]
  have htake : pushes.take (i + 1) = pushes.take i ++ [pushes[i]] := List.take_succ_eq_append_getElem hi
  have hlater : ∀ p ∈ (pushes.drop (i + 1)).map patch, off pushes[i].addr k ∉ p.dom := by
    intro p hp hmem
    obtain ⟨q, hq, rfl⟩ := List.mem_map.mp hp
    obtain ⟨j, hj, rfl⟩ := List.getElem_of_mem hq
    rw [List.length_drop] at hj
    have hd := h (i + 1 + j) (by omega) (by omega)
    rw [List.getElem_drop] at hmem
    exact Set.disjoint_left.mp hd (mem_dom hk) hmem
  have hlast := storedIn_last (pushes.take i) pushes[i] host k hk
  rw [← htake] at hlast
  rw [hfold, stores_eq, Patch.applyAll_of_notMem hlater, hlast]

theorem read64_of_storedIn {host : Mem} {p : Push} {val : Word} (hbytes : p.bytes = le64 val)
    (h : p.StoredIn host) : read64 host p.addr = val := by
  have hcongr : read64 host p.addr = read64 (writeN 8 host p.addr val) p.addr := by
    refine read64_congr fun i hi => ?_
    rw [writeN_self host p.addr val hi (Nat.le_refl 8)]
    have hi' : i < p.bytes.length := by rwa [hbytes]
    refine (h i hi').trans ?_
    rw [hbytes, List.getD_eq_getElem?_getD, le64_getElem? val hi, Option.getD_some]
  rw [hcongr, read64_writeN]

theorem read64_of_u64 {host : Mem} {addr val : Word} (h : (u64 addr val).StoredIn host) :
    read64 host addr = val := read64_of_storedIn (p := .u64 addr val) rfl h

theorem read64_of_ptr {host : Mem} {addr val : Word} (h : (ptr addr val).StoredIn host) :
    read64 host addr = val := read64_of_storedIn (p := .ptr addr val) rfl h

theorem copyAt_of_storedIn {host : Mem} {addr : Word} {s : CString} (hs : s.val.length < 64)
    (h : (str addr s).StoredIn host) : CopyAt host addr s := by
  have hbytes : (str addr s).bytes = s.val ++ [0#8] := by
    refine List.take_of_length_le ?_
    rw [List.length_append, List.length_singleton]
    exact hs
  have hlen : (str addr s).bytes.length = s.val.length + 1 := by
    rw [hbytes, List.length_append, List.length_singleton]
  constructor
  · intro i hi
    refine (h i (by omega)).trans ?_
    rw [hbytes, List.getD_eq_getElem?_getD, List.getElem?_append_left hi, List.getElem?_eq_getElem hi,
      Option.getD_some]
  · refine (h s.val.length (by omega)).trans ?_
    rw [hbytes, List.getD_eq_getElem?_getD, List.getElem?_concat_length, Option.getD_some]

/-- The push goes to a slot of the given offset and size. -/
structure In (c : Word) (slot : ℕ × ℕ) (p : Push) : Prop where
  addr : p.addr = off c slot.1
  size : p.bytes.length ≤ slot.2

theorem dom_subset {c : Word} {slot : ℕ × ℕ} {p : Push} (h : In c slot p) {a : Word} (ha : a ∈ p.dom) :
    (a - off c slot.1).toNat < slot.2 := by
  rw [← h.addr]
  exact Nat.lt_of_lt_of_le ha h.size

end Push

/-- One slot ends before the other. -/
def Apart (s t : ℕ × ℕ) : Prop := s.1 + s.2 ≤ t.1 ∨ t.1 + t.2 ≤ s.1

instance : DecidableRel Apart := fun _ _ => inferInstanceAs (Decidable (_ ∨ _))

theorem disjoint_of_apart {c : Word} {s t : ℕ × ℕ} {p q : Push} (hp : p.In c s) (hq : q.In c t)
    (hs : s.1 + s.2 ≤ 256) (ht : t.1 + t.2 ≤ 256) (h : Apart s t) : Disjoint p.dom q.dom := by
  rw [Set.disjoint_left]
  intro a hap haq
  have hap := Push.dom_subset hp hap
  have haq := Push.dom_subset hq haq
  have hc := c.isLt
  have ha := a.isLt
  simp only [off, BitVec.toNat_sub, BitVec.toNat_add, BitVec.toNat_ofNat] at hap haq
  unfold Apart at h
  omega

theorem pairwise_of_slots {c : Word} {slots : List (ℕ × ℕ)} {pushes : List Push}
    (h : List.Forall₂ (Push.In c) slots pushes) (hslots : slots.Pairwise Apart)
    (hend : ∀ s ∈ slots, s.1 + s.2 ≤ 256) : pushes.Pairwise fun p q => Disjoint p.dom q.dom := by
  obtain ⟨hlen, hin⟩ := List.forall₂_iff_get.mp h
  rw [List.pairwise_iff_getElem] at hslots ⊢
  intro i j hi hj hij
  have hi' : i < slots.length := hlen ▸ hi
  have hj' : j < slots.length := hlen ▸ hj
  exact disjoint_of_apart (hin i hi' hi) (hin j hj' hj) (hend _ (List.getElem_mem hi'))
    (hend _ (List.getElem_mem hj')) (hslots i j hi' hj' hij)

end Main

end Bbarm64
