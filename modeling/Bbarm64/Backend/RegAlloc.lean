import Bbarm64.Backend.Lower
import Bbarm64.Lib.FirstFit

/-!
# Backend.RegAlloc — `X86_64RegAlloc`

`alloc_vreg` gives a virtual register the lowest free host register at its first request.  The two maps
and the mask describe one list, the virtual registers that have a host register in the order of their
first requests: `Holds` says so, and `Holds.run` that every sequence of calls keeps to it.  All sixteen
host registers are given out, so the fifth virtual register is in RSP (`alloc_vregs_safe_iff`).
-/

namespace Bbarm64

/-- `enum class X86Reg` -/
inductive X86Reg where
  | RAX | RCX | RDX | RBX | RSP | RBP | RSI | RDI
  | R8 | R9 | R10 | R11 | R12 | R13 | R14 | R15
  | NONE
  deriving DecidableEq, Repr

/-- `static_cast<X86Reg>(i)` -/
def X86Reg.cast (i : ℕ) : X86Reg :=
  [RAX, RCX, RDX, RBX, RSP, RBP, RSI, RDI, R8, R9, R10, R11, R12, R13, R14, R15].getD i NONE

structure X86_64RegAlloc where
  vreg_map_ : Fin 256 → X86Reg
  xreg_map_ : Fin 16 → BitVec 16
  dirty_vregs_ : List (BitVec 16)
  free_regs_ : BitVec 16

namespace X86_64RegAlloc

open FirstFit

def ALL_FREE : BitVec 16 := 0xFFFF#16

/-- The constructor. -/
def new : X86_64RegAlloc where
  vreg_map_ _ := .NONE
  xreg_map_ _ := 0#16
  dirty_vregs_ := []
  free_regs_ := ALL_FREE

def reset (_ : X86_64RegAlloc) : X86_64RegAlloc where
  vreg_map_ _ := .NONE
  xreg_map_ _ := 0#16
  dirty_vregs_ := []
  free_regs_ := ALL_FREE

/-- The lowest set bit of `free_regs_`. -/
def find_free (s : X86_64RegAlloc) : Option (Fin 16) :=
  (List.finRange 16).find? fun i => s.free_regs_ &&& 1#16 <<< i.val ≠ 0#16

def get_vreg (s : X86_64RegAlloc) (vreg : BitVec 16) : X86Reg :=
  if h : vreg.toNat < 256 then s.vreg_map_ ⟨vreg.toNat, h⟩ else .NONE

/-- The result and the allocator behind the call; `none` for a write past the end of `vreg_map_`. -/
def alloc_vreg (s : X86_64RegAlloc) (vreg : BitVec 16) : Option (X86Reg × X86_64RegAlloc) :=
  -- `vreg < 256 && vreg_map_[vreg] != X86Reg::NONE`
  if s.get_vreg vreg ≠ .NONE then some (s.get_vreg vreg, s)
  else
    match s.find_free with
    | some i =>
      let reg := X86Reg.cast i
      if h : vreg.toNat < 256 then
        some (reg, { s with
          free_regs_ := s.free_regs_ &&& ~~~(1#16 <<< i.val)
          vreg_map_ := Function.update s.vreg_map_ ⟨vreg.toNat, h⟩ reg
          xreg_map_ := Function.update s.xreg_map_ i vreg })
      else none
    -- No free registers
    | none => some (.RAX, s)

/-- A call from outside. -/
inductive Call where
  | alloc_vreg (vreg : BitVec 16)
  | reset
  deriving DecidableEq, Repr

def Call.InRange : Call → Prop
  | .alloc_vreg vreg => vreg.toNat < 256
  | .reset => True

instance : DecidablePred Call.InRange
  | .alloc_vreg vreg => inferInstanceAs (Decidable (vreg.toNat < 256))
  | .reset => inferInstanceAs (Decidable True)

def call (s : X86_64RegAlloc) : Call → Option X86_64RegAlloc
  | .alloc_vreg vreg => (s.alloc_vreg vreg).map (·.2)
  | .reset => some s.reset

def run (s : X86_64RegAlloc) (cs : List Call) : Option X86_64RegAlloc := cs.foldlM call s

/-! ## The list behind the maps -/

/-- The virtual registers `l` have the first `l.length` host registers, in this order. -/
structure Holds (s : X86_64RegAlloc) (l : List (BitVec 16)) : Prop where
  nodup : l.Nodup
  length_le : l.length ≤ 16
  get_vreg : ∀ v, s.get_vreg v = if v ∈ l then X86Reg.cast (l.idxOf v) else .NONE
  xreg : ∀ i : Fin 16, ∀ v, l[i.val]? = some v → s.xreg_map_ i = v
  free : ∀ i : Fin 16, s.free_regs_.getLsbD i = decide (l.length ≤ i)

/-- What a call does to the list. -/
def held (l : List (BitVec 16)) : Call → List (BitVec 16)
  | .alloc_vreg vreg => request 16 l vreg
  | .reset => []

section Calls

variable {s t : X86_64RegAlloc} {l : List (BitVec 16)} {vreg : BitVec 16}

theorem cast_ne_none : ∀ i : Fin 16, X86Reg.cast i ≠ .NONE := by decide

theorem cast_inj : ∀ i j : Fin 16, X86Reg.cast i = X86Reg.cast j → i = j := by decide

theorem holds_reset (s : X86_64RegAlloc) : Holds s.reset [] := by
  refine ⟨List.nodup_nil, Nat.zero_le 16, ?_, ?_, ?_⟩
  · intro v
    rw [if_neg List.not_mem_nil]
    unfold X86_64RegAlloc.get_vreg
    split_ifs <;> rfl
  · intro i v h
    cases h
  · show ∀ i : Fin 16, ALL_FREE.getLsbD i = true
    decide

theorem holds_new : Holds new [] := holds_reset new

theorem and_bit_ne_zero_iff (f : BitVec 16) (i : Fin 16) :
    f &&& 1#16 <<< i.val ≠ 0#16 ↔ f.getLsbD i = true := by
  rw [← BitVec.twoPow_eq, BitVec.and_twoPow]
  have hpow : ∀ i : Fin 16, BitVec.twoPow 16 i.val ≠ 0#16 := by decide
  split_ifs with h
  · exact iff_of_true (hpow i) h
  · exact iff_of_false (fun h0 => h0 rfl) h

theorem Holds.get_ne_none_iff (h : Holds s l) (v : BitVec 16) : s.get_vreg v ≠ .NONE ↔ v ∈ l := by
  rw [h.get_vreg]
  split_ifs with hv
  · have hlt := Nat.lt_of_lt_of_le (List.idxOf_lt_length_of_mem hv) h.length_le
    exact iff_of_true (cast_ne_none ⟨_, hlt⟩) hv
  · exact iff_of_false (fun hne => hne rfl) hv

/-- The lowest free register is the next one. -/
theorem Holds.find_free (h : Holds s l) :
    s.find_free = if hlt : l.length < 16 then some ⟨l.length, hlt⟩ else none := by
  have hp : ∀ i : Fin 16, s.free_regs_ &&& 1#16 <<< i.val ≠ 0#16 ↔ l.length ≤ i := by
    intro i
    rw [and_bit_ne_zero_iff, h.free, decide_eq_true_iff]
  unfold X86_64RegAlloc.find_free
  split_ifs with hlt
  · refine List.find?_eq_some_iff_getElem.mpr ⟨decide_eq_true ((hp _).mpr (Nat.le_refl _)), ?_⟩
    refine ⟨l.length, by simpa using hlt, by simp, ?_⟩
    intro j hj
    rw [Bool.not_eq_true', decide_eq_false_iff_not, hp]
    simpa using hj
  · apply List.find?_eq_none.mpr
    intro i _
    rw [decide_eq_true_iff, hp]
    have := i.isLt
    omega

/-- The host register of its place, or RAX. -/
def place (l : List (BitVec 16)) (vreg : BitVec 16) : X86Reg :=
  if vreg ∈ l then X86Reg.cast (l.idxOf vreg) else .RAX

theorem get_vreg_of_map (hv : vreg.toNat < 256) {reg : X86Reg}
    (h : t.vreg_map_ = Function.update s.vreg_map_ ⟨vreg.toNat, hv⟩ reg) (w : BitVec 16) :
    t.get_vreg w = if w = vreg then reg else s.get_vreg w := by
  unfold X86_64RegAlloc.get_vreg
  rw [h]
  split_ifs with hw heq heq
  · subst heq
    exact Function.update_self ..
  · refine Function.update_of_ne (fun hne => heq ?_) _ _
    exact BitVec.eq_of_toNat_eq (Fin.mk.inj hne)
  · exact absurd (heq ▸ hv) hw
  · rfl

theorem alloc_vreg_of_free {i : Fin 16} (hnone : ¬s.get_vreg vreg ≠ .NONE)
    (hfree : s.find_free = some i) (hv : vreg.toNat < 256) :
    s.alloc_vreg vreg = some (X86Reg.cast i, { s with
      free_regs_ := s.free_regs_ &&& ~~~(1#16 <<< i.val)
      vreg_map_ := Function.update s.vreg_map_ ⟨vreg.toNat, hv⟩ (X86Reg.cast i)
      xreg_map_ := Function.update s.xreg_map_ i vreg }) := by
  unfold X86_64RegAlloc.alloc_vreg
  rw [if_neg hnone, hfree]
  exact dif_pos hv

/-- A new virtual register gets the next host register. -/
theorem Holds.append (h : Holds s l) (hnew : vreg ∉ l) (hlt : l.length < 16)
    (hv : vreg.toNat < 256)
    (hmap : t.vreg_map_ = Function.update s.vreg_map_ ⟨vreg.toNat, hv⟩ (X86Reg.cast l.length))
    (hxreg : t.xreg_map_ = Function.update s.xreg_map_ ⟨l.length, hlt⟩ vreg)
    (hfree : t.free_regs_ = s.free_regs_ &&& ~~~(1#16 <<< l.length)) : Holds t (l ++ [vreg]) where
  nodup := by
    rw [← List.concat_eq_append]
    exact h.nodup.concat hnew
  length_le := by
    rw [List.length_append]
    exact hlt
  get_vreg w := by
    rw [get_vreg_of_map hv hmap, h.get_vreg]
    by_cases heq : w = vreg
    · subst heq
      rw [if_pos rfl, if_pos (List.mem_append_right l (List.mem_singleton_self w)),
        List.idxOf_append_of_notMem hnew, List.idxOf_cons_self]
      rfl
    · rw [if_neg heq]
      by_cases hw : w ∈ l
      · rw [if_pos hw, if_pos (List.mem_append_left _ hw), List.idxOf_append_of_mem hw]
      · have hw' : w ∉ l ++ [vreg] := by
          rw [List.mem_append, List.mem_singleton]
          exact not_or.mpr ⟨hw, heq⟩
        rw [if_neg hw, if_neg hw']
  xreg i w hi := by
    rw [hxreg]
    rcases Nat.lt_trichotomy i.val l.length with hlt' | heq | hgt
    · rw [Function.update_of_ne (Fin.ne_of_val_ne (Nat.ne_of_lt hlt'))]
      rw [List.getElem?_append_left hlt'] at hi
      exact h.xreg i w hi
    · rw [heq, List.getElem?_concat_length] at hi
      obtain rfl : i = ⟨l.length, hlt⟩ := Fin.ext heq
      rw [Function.update_self]
      exact Option.some.inj hi
    · rw [List.getElem?_eq_none (by rwa [List.length_append])] at hi
      cases hi
  free i := by
    have hi := i.isLt
    rw [hfree, BitVec.getLsbD_and, BitVec.getLsbD_not, h.free, ← BitVec.twoPow_eq,
      BitVec.getLsbD_twoPow, List.length_append, List.length_singleton, Bool.eq_iff_iff]
    simp only [Bool.and_eq_true, decide_eq_true_eq, Bool.not_eq_true', Bool.and_eq_false_iff,
      decide_eq_false_iff_not]
    omega

/-- `alloc_vreg` is a request for one of sixteen places. -/
theorem Holds.alloc_vreg (h : Holds s l) (hv : vreg.toNat < 256) :
    ∃ t, s.alloc_vreg vreg = some (place (request 16 l vreg) vreg, t) ∧
      Holds t (request 16 l vreg) := by
  have hget := h.get_ne_none_iff vreg
  unfold place
  rcases request_cases 16 l vreg with ⟨hmem, he⟩ | ⟨hmem, hlt, he⟩ | ⟨hmem, hge, he⟩
  · refine ⟨s, ?_, by rwa [he]⟩
    unfold X86_64RegAlloc.alloc_vreg
    rw [if_pos (hget.mpr hmem), he, if_pos hmem, h.get_vreg, if_pos hmem]
  · have hfree : s.find_free = some ⟨l.length, hlt⟩ := by
      rw [h.find_free, dif_pos hlt]
    rw [alloc_vreg_of_free (hget.not.mpr hmem) hfree hv, he,
      if_pos (List.mem_append_right l (List.mem_singleton_self vreg)),
      List.idxOf_append_of_notMem hmem, List.idxOf_cons_self]
    exact ⟨_, rfl, h.append hmem hlt hv rfl rfl rfl⟩
  · refine ⟨s, ?_, by rwa [he]⟩
    unfold X86_64RegAlloc.alloc_vreg
    rw [if_neg (hget.not.mpr hmem), h.find_free, dif_neg (Nat.not_lt.mpr hge), he, if_neg hmem]

theorem Holds.call (h : Holds s l) {c : Call} (hc : c.InRange) :
    ∃ t, s.call c = some t ∧ Holds t (held l c) := by
  cases c with
  | alloc_vreg vreg =>
    obtain ⟨t, hs, ht⟩ := h.alloc_vreg hc
    refine ⟨t, ?_, ht⟩
    show (s.alloc_vreg vreg).map _ = some t
    rw [hs]
    rfl
  | reset => exact ⟨s.reset, rfl, holds_reset s⟩

/-- Every sequence of calls keeps to a list. -/
theorem Holds.run (h : Holds s l) {cs : List Call} (hcs : ∀ c ∈ cs, c.InRange) :
    ∃ t, s.run cs = some t ∧ Holds t (cs.foldl held l) := by
  induction cs generalizing s l with
  | nil => exact ⟨s, rfl, h⟩
  | cons c cs ih =>
    obtain ⟨u, hu, hcall⟩ := h.call (hcs c List.mem_cons_self)
    obtain ⟨t, ht, hrun⟩ := ih hcall fun c' hc' => hcs c' (List.mem_cons_of_mem c hc')
    refine ⟨t, ?_, hrun⟩
    show (s.call c).bind _ = some t
    rw [hu]
    exact ht

/-! ## What the maps and the mask say of each other -/

theorem vreg_map_eq (s : X86_64RegAlloc) (v : Fin 256) :
    s.vreg_map_ v = s.get_vreg (BitVec.ofNat 16 v) := by
  have hv : (BitVec.ofNat 16 v).toNat = v := by
    rw [BitVec.toNat_ofNat]
    omega
  have hlt : (BitVec.ofNat 16 v).toNat < 256 := by
    rw [hv]
    exact v.isLt
  unfold X86_64RegAlloc.get_vreg
  rw [dif_pos hlt]
  congr 1
  exact Fin.ext hv.symm

theorem lt_of_get_vreg (h : s.get_vreg vreg ≠ .NONE) : vreg.toNat < 256 := by
  by_contra hge
  exact h (dif_neg hge)

theorem Holds.get_vreg_eq_cast_iff (h : Holds s l) (i : Fin 16) (v : BitVec 16) :
    s.get_vreg v = X86Reg.cast i ↔ l[i.val]? = some v := by
  rw [h.get_vreg]
  constructor
  · intro heq
    split_ifs at heq with hv
    · have hlt := Nat.lt_of_lt_of_le (List.idxOf_lt_length_of_mem hv) h.length_le
      have hi : (⟨l.idxOf v, hlt⟩ : Fin 16) = i := cast_inj _ _ heq
      rw [← hi]
      exact List.getElem?_idxOf hv
    · exact absurd heq.symm (cast_ne_none i)
  · intro hi
    obtain ⟨hlt, rfl⟩ := List.getElem?_eq_some_iff.mp hi
    rw [if_pos (List.getElem_mem hlt), h.nodup.idxOf_getElem]

/-- The two maps and the mask are one partial bijection. -/
structure Consistent (s : X86_64RegAlloc) : Prop where
  injective : ∀ v w, s.vreg_map_ v ≠ .NONE → s.vreg_map_ v = s.vreg_map_ w → v = w
  clear_iff : ∀ i : Fin 16, s.free_regs_.getLsbD i = false ↔ ∃ v, s.vreg_map_ v = X86Reg.cast i
  xreg : ∀ (i : Fin 16) v, s.vreg_map_ v = X86Reg.cast i → (s.xreg_map_ i).toNat = v

theorem Holds.consistent (h : Holds s l) : Consistent s where
  injective v w hne heq := by
    rw [vreg_map_eq, vreg_map_eq] at heq
    rw [vreg_map_eq, h.get_ne_none_iff] at hne
    have hlt := Nat.lt_of_lt_of_le (List.idxOf_lt_length_of_mem hne) h.length_le
    have hv := h.get_vreg_eq_cast_iff ⟨_, hlt⟩ (BitVec.ofNat 16 v)
    have hw := h.get_vreg_eq_cast_iff ⟨_, hlt⟩ (BitVec.ofNat 16 w)
    have hidx : l[l.idxOf (BitVec.ofNat 16 v)]? = some (BitVec.ofNat 16 v) :=
      List.getElem?_idxOf hne
    have hvw := Option.some.inj (hidx.symm.trans (hw.mp (heq ▸ hv.mpr hidx)))
    have hnat := congrArg BitVec.toNat hvw
    simp only [BitVec.toNat_ofNat] at hnat
    omega
  clear_iff i := by
    rw [h.free, decide_eq_false_iff_not]
    constructor
    · intro hlt
      have hlt' : i.val < l.length := Nat.not_le.mp hlt
      have hget : l[i.val]? = some l[i.val] := List.getElem?_eq_getElem hlt'
      have hcast := (h.get_vreg_eq_cast_iff i _).mpr hget
      have hv := lt_of_get_vreg (hcast ▸ cast_ne_none i)
      exact ⟨⟨_, hv⟩, (dif_pos hv).symm.trans hcast⟩
    · rintro ⟨v, hv⟩
      rw [vreg_map_eq, h.get_vreg_eq_cast_iff] at hv
      exact Nat.not_le.mpr (List.getElem?_eq_some_iff.mp hv).1
  xreg i v hv := by
    rw [vreg_map_eq, h.get_vreg_eq_cast_iff] at hv
    rw [h.xreg i _ hv, BitVec.toNat_ofNat]
    omega

/-- Without a reset the list only grows. -/
theorem prefix_held {cs : List Call} (h : Call.reset ∉ cs) (l : List (BitVec 16)) :
    l <+: cs.foldl held l := by
  induction cs generalizing l with
  | nil => exact List.prefix_rfl
  | cons c cs ih =>
    rw [List.mem_cons, not_or] at h
    cases c with
    | alloc_vreg vreg => exact (prefix_request l vreg).trans (ih h.2 _)
    | reset => exact absurd rfl h.1

theorem Holds.get_vreg_of_prefix {l' : List (BitVec 16)} (h : Holds s l) (ht : Holds t l')
    (hpre : l <+: l') (hv : s.get_vreg vreg ≠ .NONE) : t.get_vreg vreg = s.get_vreg vreg := by
  have hmem := (h.get_ne_none_iff vreg).mp hv
  rw [h.get_vreg, ht.get_vreg, if_pos hmem, if_pos (hpre.subset hmem),
    hpre.idxOf_eq_of_mem hmem]

/-- Behind every sequence of calls the two maps and the mask agree, and what was mapped since the last
reset is mapped as it was. -/
theorem run_consistent (cs : List Call) (h : ∀ c ∈ cs, c.InRange) :
    ∃ s, new.run cs = some s ∧ Consistent s ∧
      ∀ cs₁ cs₂, cs = cs₁ ++ cs₂ → Call.reset ∉ cs₂ →
        ∃ u, new.run cs₁ = some u ∧
          ∀ v, u.vreg_map_ v ≠ .NONE → s.vreg_map_ v = u.vreg_map_ v := by
  obtain ⟨s, hs, hh⟩ := holds_new.run h
  refine ⟨s, hs, hh.consistent, ?_⟩
  intro cs₁ cs₂ heq hreset
  subst heq
  obtain ⟨u, hu, hu'⟩ := holds_new.run fun c hc => h c (List.mem_append_left cs₂ hc)
  refine ⟨u, hu, ?_⟩
  intro v hv
  rw [List.foldl_append] at hh
  rw [vreg_map_eq] at hv ⊢
  rw [vreg_map_eq, hu'.get_vreg_of_prefix hh (prefix_held hreset _) hv]

theorem run_consistent_reset : ∃ s,
    new.run [.alloc_vreg 7, .reset, .alloc_vreg 9, .alloc_vreg 7, .alloc_vreg 9] = some s ∧
      Consistent s ∧ s.get_vreg 9 = .RAX ∧ s.get_vreg 7 = .RCX := by
  obtain ⟨s, hs, hc, -⟩ := run_consistent
    [.alloc_vreg 7, .reset, .alloc_vreg 9, .alloc_vreg 7, .alloc_vreg 9] (by decide)
  refine ⟨s, hs, hc, ?_⟩
  obtain rfl := Option.some.inj hs
  decide

/-! ## A block's requests -/

theorem place_requests (hfull : vreg ∈ l ∨ 16 ≤ l.length) (vs : List (BitVec 16)) :
    place (requests 16 l vs) vreg = place l vreg := by
  rcases Nat.lt_or_ge l.length 16 with hlt | hge
  · have hmem := hfull.resolve_right (Nat.not_le.mpr hlt)
    unfold place
    rw [if_pos hmem, if_pos ((prefix_requests l vs).subset hmem), idxOf_requests hmem]
  · rw [requests_of_full hge]

theorem mem_request_or_full (l : List (BitVec 16)) (v : BitVec 16) :
    v ∈ request 16 l v ∨ 16 ≤ (request 16 l v).length := by
  rcases Nat.lt_or_ge (request 16 l v).length 16 with hlt | hge
  · exact .inl (mem_request hlt)
  · exact .inr hge

/-- The result of each call, in order. -/
def alloc_vregs (s : X86_64RegAlloc) : List (BitVec 16) → Option (List X86Reg × X86_64RegAlloc)
  | [] => some ([], s)
  | vreg :: vs => do
    let (reg, t) ← s.alloc_vreg vreg
    let (regs, u) ← t.alloc_vregs vs
    return (reg :: regs, u)

theorem Holds.alloc_vregs (h : Holds s l) {vs : List (BitVec 16)} (hvs : ∀ v ∈ vs, v.toNat < 256) :
    ∃ t, s.alloc_vregs vs = some (vs.map (place (requests 16 l vs)), t) ∧
      Holds t (requests 16 l vs) := by
  induction vs generalizing s l with
  | nil => exact ⟨s, rfl, h⟩
  | cons v vs ih =>
    obtain ⟨u, hu, hcall⟩ := h.alloc_vreg (hvs v List.mem_cons_self)
    obtain ⟨t, ht, hrun⟩ := ih hcall fun w hw => hvs w (List.mem_cons_of_mem v hw)
    refine ⟨t, ?_, hrun⟩
    rw [X86_64RegAlloc.alloc_vregs, hu]
    show (u.alloc_vregs vs).bind _ = _
    rw [ht, requests_cons, List.map_cons, place_requests (mem_request_or_full l v)]
    rfl

/-- Neither the host stack pointer nor the context pointer. -/
def NoReserved (regs : List X86Reg) : Prop := ∀ reg ∈ regs, reg ≠ .RSP ∧ reg ≠ .R12

/-- Two virtual registers, two host registers. -/
def Apart (vs : List (BitVec 16)) (regs : List X86Reg) : Prop :=
  ∀ p ∈ vs.zip regs, ∀ q ∈ vs.zip regs, p.1 ≠ q.1 → p.2 ≠ q.2

section Requests

variable {vs : List (BitVec 16)}

theorem place_of_mem (h : vreg ∈ l) : place l vreg = X86Reg.cast (l.idxOf vreg) := if_pos h

theorem exists_place (vs : List (BitVec 16)) {i : ℕ} (hi : i < (requests 16 [] vs).length) :
    ∃ v ∈ vs, v ∈ requests 16 [] vs ∧ place (requests 16 [] vs) v = X86Reg.cast i := by
  have hmem : (requests 16 [] vs)[i] ∈ requests 16 [] vs := List.getElem_mem hi
  refine ⟨_, (mem_of_mem_requests hmem).resolve_left List.not_mem_nil, hmem, ?_⟩
  rw [place_of_mem hmem, (nodup_requests List.nodup_nil vs).idxOf_getElem]

/-- The fifth virtual register is given RSP. -/
theorem noReserved_iff :
    NoReserved (vs.map (place (requests 16 [] vs))) ↔ vs.toFinset.card ≤ 4 := by
  have hlen := length_requests 16 vs
  constructor
  · intro h
    by_contra hgt
    obtain ⟨v, hv, -, hplace⟩ := exists_place vs (i := 4) (by omega)
    exact (h _ (List.mem_map_of_mem hv)).1 hplace
  · intro hle reg hreg
    obtain ⟨v, hv, rfl⟩ := List.mem_map.mp hreg
    have hmem : v ∈ requests 16 [] vs := mem_requests_of_card_le (by omega) hv
    have hidx : (requests 16 [] vs).idxOf v < 4 := by
      have := List.idxOf_lt_length_of_mem hmem
      omega
    have hfirst : ∀ i : Fin 4, X86Reg.cast i ≠ .RSP ∧ X86Reg.cast i ≠ .R12 := by decide
    rw [place_of_mem hmem]
    exact hfirst ⟨_, hidx⟩

theorem apart_map_iff (f : BitVec 16 → X86Reg) :
    Apart vs (vs.map f) ↔ ∀ v ∈ vs, ∀ w ∈ vs, v ≠ w → f v ≠ f w := by
  unfold Apart
  rw [← List.map_prod_left_eq_zip]
  simp only [List.forall_mem_map]

/-- The seventeenth virtual register shares RAX with the first. -/
theorem apart_iff :
    Apart vs (vs.map (place (requests 16 [] vs))) ↔ vs.toFinset.card ≤ 16 := by
  have hlen := length_requests 16 vs
  rw [apart_map_iff]
  constructor
  · intro h
    by_contra hgt
    have hmore : 16 < vs.toFinset.card := Nat.not_le.mp hgt
    obtain ⟨v, hv, hlate⟩ := exists_notMem_requests hmore
    obtain ⟨w, hw, hmem, hplace⟩ := exists_place vs (i := 0) (by omega)
    refine h v hv w hw (fun heq => hlate (heq ▸ hmem)) ?_
    rw [hplace]
    exact if_neg hlate
  · intro hle v hv w hw hne heq
    have hvm := mem_requests_of_card_le hle hv
    have hwm := mem_requests_of_card_le hle hw
    have hidx : ∀ u ∈ requests 16 [] vs, (requests 16 [] vs).idxOf u < 16 := by
      intro u hu
      have := List.idxOf_lt_length_of_mem hu
      omega
    rw [place_of_mem hvm, place_of_mem hwm] at heq
    have hfin := cast_inj ⟨_, hidx v hvm⟩ ⟨_, hidx w hwm⟩ heq
    exact hne (List.idxOf_inj hvm |>.mp (Fin.mk.inj hfin))

/-- Behind a reset the allocator keeps clear of RSP and R12, and apart, exactly for four virtual
registers. -/
theorem alloc_vregs_safe_iff (s : X86_64RegAlloc) (vs : List (BitVec 16))
    (h : ∀ v ∈ vs, v.toNat < 256) :
    ∃ regs t, s.reset.alloc_vregs vs = some (regs, t) ∧
      (NoReserved regs ∧ Apart vs regs ↔ vs.toFinset.card ≤ 4) := by
  obtain ⟨t, hs, -⟩ := (holds_reset s).alloc_vregs h
  refine ⟨_, t, hs, ?_⟩
  rw [noReserved_iff, apart_iff]
  constructor
  · intro hle
    exact hle.1
  · intro hle
    exact ⟨hle, Nat.le_trans hle (by decide)⟩

theorem alloc_vregs_safe_four : ∃ regs t, new.reset.alloc_vregs [0, 1, 2, 3] = some (regs, t) ∧
    NoReserved regs ∧ Apart [0, 1, 2, 3] regs := by
  obtain ⟨regs, t, hs, hiff⟩ := alloc_vregs_safe_iff new [0, 1, 2, 3] (by simp)
  exact ⟨regs, t, hs, hiff.mpr (by decide)⟩

theorem alloc_vregs_unsafe_five : ∃ t,
    new.reset.alloc_vregs [0, 1, 2, 3, 4] = some ([.RAX, .RCX, .RDX, .RBX, .RSP], t) ∧
      ¬NoReserved [.RAX, .RCX, .RDX, .RBX, .RSP] := by
  have hrange : ∀ v ∈ ([0, 1, 2, 3, 4] : List (BitVec 16)), v.toNat < 256 := by simp
  obtain ⟨t, ht, -⟩ := (holds_reset new).alloc_vregs hrange
  refine ⟨t, ht, ?_⟩
  intro h
  exact (h .RSP (by decide)).1 rfl

end Requests

end Calls

end X86_64RegAlloc

end Bbarm64
