import Mathlib.Data.List.Pairwise
import Mathlib.Tactic.Common

/-!
# Lib.Pieces — a partial map kept as a list of disjoint pieces

A piece `i` gives the value `val i` to the points of `dom i`.  A list of disjoint pieces is a partial
map, and most lists stay one under the operations that change the map on a set of points only under a
condition: `represents_concat_iff`, `represents_filter_iff` and `represents_replace_iff` say which.
-/

namespace Pieces

variable {ι α P : Type*} {dom : ι → α → Prop} {val : ι → P} {l : List ι} {f : α → Option P}
  {S : α → Prop} [DecidablePred S]

/-! ## Maps -/

/-- The points of `S` get the value `p`. -/
def overlay (S : α → Prop) [DecidablePred S] (p : P) (f : α → Option P) : α → Option P :=
  fun a => if S a then some p else f a

/-- The points of `S` lose their values. -/
def without (S : α → Prop) [DecidablePred S] (f : α → Option P) : α → Option P :=
  fun a => if S a then none else f a

/-- The points of `S` that have a value get the value `p`. -/
def revalue (S : α → Prop) [DecidablePred S] (p : P) (f : α → Option P) : α → Option P :=
  fun a => if S a then (f a).map fun _ => p else f a

/-! ## Pieces -/

/-- No point is in two pieces. -/
def Apart (dom : ι → α → Prop) (l : List ι) : Prop :=
  l.Pairwise fun i j => ∀ a, ¬ (dom i a ∧ dom j a)

/-- The pieces are apart, and together they are the map. -/
structure Represents (dom : ι → α → Prop) (val : ι → P) (l : List ι) (f : α → Option P) : Prop where
  apart : Apart dom l
  inside : ∀ i ∈ l, ∀ a, dom i a → f a = some (val i)
  outside : ∀ a, (∀ i ∈ l, ¬ dom i a) → f a = none

theorem represents_nil : Represents dom val [] fun _ => none :=
  ⟨List.Pairwise.nil, List.forall_mem_nil _, fun _ _ => rfl⟩

/-- A point is in one piece at most. -/
theorem Apart.eq (h : Apart dom l) {i j : ι} (hi : i ∈ l) (hj : j ∈ l) {a : α} (hia : dom i a)
    (hja : dom j a) : i = j := by
  have hsymm : Std.Symm fun i j => ∀ a, ¬ (dom i a ∧ dom j a) := ⟨fun _ _ h a ha => h a ha.symm⟩
  by_contra hne
  exact List.Pairwise.forall h hi hj hne a ⟨hia, hja⟩

/-- A piece with a point in it is in the list once. -/
theorem Apart.not_mem_rest {l₁ l₂ : List ι} {i : ι} (h : Apart dom (l₁ ++ i :: l₂)) {a : α}
    (ha : dom i a) : i ∉ l₁ ++ l₂ := by
  obtain ⟨-, hr, hl⟩ := List.pairwise_append.mp h
  intro hi
  rcases List.mem_append.mp hi with hi | hi
  · exact hl i hi i List.mem_cons_self a ⟨ha, ha⟩
  · exact (List.pairwise_cons.mp hr).1 i hi a ⟨ha, ha⟩

theorem mem_replace {l₁ l₂ : List ι} {i j : ι} : j ∈ l₁ ++ i :: l₂ ↔ j = i ∨ j ∈ l₁ ++ l₂ := by
  rw [List.mem_append, List.mem_cons, List.mem_append]
  exact or_left_comm

/-- What the map is at a point, by the first piece there. -/
theorem Represents.eq_find? (h : Represents dom val l f) {a : α} [DecidablePred (dom · a)] :
    f a = (l.find? (dom · a)).map val := by
  cases hfind : l.find? (dom · a) with
  | none =>
    refine h.outside a fun i hi hia => ?_
    exact absurd (decide_eq_true hia) (List.find?_eq_none.mp hfind i hi)
  | some i =>
    have hia : dom i a := by simpa using List.find?_some hfind
    exact h.inside i (List.mem_of_find?_eq_some hfind) a hia

/-! ## Operations -/

/-- **A new piece** at the end of the list. -/
theorem represents_concat_iff (h : Represents dom val l f) (i : ι) [DecidablePred (dom i)] :
    Represents dom val (l ++ [i]) (overlay (dom i) (val i) f) ↔
      ∀ j ∈ l, ∀ a, ¬ (dom j a ∧ dom i a) := by
  constructor
  · intro h' j hj
    exact (List.pairwise_append.mp h'.apart).2.2 j hj i (List.mem_singleton_self i)
  · intro hfree
    refine ⟨?_, fun j hj a ha => ?_, fun a hno => ?_⟩
    · refine List.pairwise_append.mpr ⟨h.apart, List.pairwise_singleton _ i, fun j hj k hk => ?_⟩
      rw [List.mem_singleton.mp hk]
      exact hfree j hj
    · unfold overlay
      rcases List.mem_append.mp hj with hj | hj
      · rw [if_neg fun hi => hfree j hj a ⟨ha, hi⟩]
        exact h.inside j hj a ha
      · obtain rfl := List.mem_singleton.mp hj
        exact if_pos ha
    · unfold overlay
      rw [if_neg (hno i (List.mem_append_right l (List.mem_singleton_self i)))]
      exact h.outside a fun j hj => hno j (List.mem_append_left [i] hj)

/-- **Pieces taken away**: the others have no point of `S`, and those taken away no other. -/
theorem represents_filter_iff (h : Represents dom val l f) (drop : ι → Bool) :
    Represents dom val (l.filter fun i => !drop i) (without S f) ↔
      ∀ i ∈ l, ∀ a, dom i a → (drop i = true ↔ S a) := by
  constructor
  · intro h' i hi a ha
    have hf := h.inside i hi a ha
    cases hd : drop i with
    | false =>
      -- it is still there, and so is the value
      have hmem : i ∈ l.filter fun i => !drop i := List.mem_filter.mpr ⟨hi, by rw [hd]; rfl⟩
      have hkept := h'.inside i hmem a ha
      refine iff_of_false Bool.false_ne_true fun hS => ?_
      rw [without, if_pos hS] at hkept
      cases hkept
    | true =>
      -- no other piece has the point
      have hgone : without S f a = none := by
        refine h'.outside a fun j hj hja => ?_
        obtain ⟨hj, hkeep⟩ := List.mem_filter.mp hj
        obtain rfl := h.apart.eq hi hj ha hja
        rw [hd] at hkeep
        cases hkeep
      refine iff_of_true rfl ?_
      by_contra hS
      rw [without, if_neg hS, hf] at hgone
      cases hgone
  · intro hcut
    refine ⟨List.Pairwise.filter _ h.apart, fun i hi a ha => ?_, fun a hno => ?_⟩
    · obtain ⟨hi, hkeep⟩ := List.mem_filter.mp hi
      have hS : ¬ S a := by
        intro hS
        rw [(hcut i hi a ha).mpr hS] at hkeep
        cases hkeep
      rw [without, if_neg hS]
      exact h.inside i hi a ha
    · unfold without
      split_ifs with hS
      · rfl
      · refine h.outside a fun i hi ha => hno i (List.mem_filter.mpr ⟨hi, ?_⟩) ha
        rw [Bool.not_eq_true', ← Bool.not_eq_true]
        exact fun hd => hS ((hcut i hi a ha).mp hd)

/-- **A new value** for the points of `S`, with the same pieces. -/
theorem represents_revalue_iff (h : Represents dom val l f) (p : P) :
    Represents dom val l (revalue S p f) ↔ ∀ i ∈ l, ∀ a, dom i a → S a → val i = p := by
  constructor
  · intro h' i hi a ha hS
    have hnew := h'.inside i hi a ha
    rw [revalue, if_pos hS, h.inside i hi a ha] at hnew
    exact (Option.some.inj hnew).symm
  · intro hsame
    refine ⟨h.apart, fun i hi a ha => ?_, fun a hno => ?_⟩
    · unfold revalue
      rw [h.inside i hi a ha]
      split_ifs with hS
      · rw [hsame i hi a ha hS]
        rfl
      · rfl
    · unfold revalue
      rw [h.outside a hno]
      split_ifs <;> rfl

/-- **A piece with a new value**: the other pieces have no point of `S` and it has no other, unless the
value is the one they have. -/
theorem represents_replace_iff {l₁ l₂ : List ι} {i r : ι} (h : Represents dom val (l₁ ++ i :: l₂) f)
    (hdom : dom r = dom i) :
    Represents dom val (l₁ ++ r :: l₂) (revalue S (val r) f) ↔
      (∀ a, dom i a → S a ∨ val i = val r) ∧
        ∀ j ∈ l₁ ++ l₂, ∀ a, dom j a → S a → val j = val r := by
  have hmid : i ∈ l₁ ++ i :: l₂ := mem_replace.mpr (.inl rfl)
  have hmid' : r ∈ l₁ ++ r :: l₂ := mem_replace.mpr (.inl rfl)
  constructor
  · intro h'
    constructor
    · intro a ha
      have hnew := h'.inside r hmid' a (hdom ▸ ha)
      refine or_iff_not_imp_left.mpr fun hS => ?_
      rw [revalue, if_neg hS, h.inside i hmid a ha] at hnew
      exact Option.some.inj hnew
    · intro j hj a ha hS
      have hnew := h'.inside j (mem_replace.mpr (.inr hj)) a ha
      rw [revalue, if_pos hS, h.inside j (mem_replace.mpr (.inr hj)) a ha] at hnew
      exact (Option.some.inj hnew).symm
  · rintro ⟨hthis, hothers⟩
    refine ⟨?_, fun j hj a ha => ?_, fun a hno => ?_⟩
    · have hap := h.apart
      rw [Apart, List.pairwise_append, List.pairwise_cons] at hap ⊢
      rw [hdom]
      obtain ⟨hap₁, ⟨hapi, hap₂⟩, hap⟩ := hap
      refine ⟨hap₁, ⟨hapi, hap₂⟩, fun j hj k hk => ?_⟩
      rcases List.mem_cons.mp hk with rfl | hk
      · rw [hdom]
        exact hap j hj i List.mem_cons_self
      · exact hap j hj k (List.mem_cons_of_mem i hk)
    · unfold revalue
      rcases mem_replace.mp hj with rfl | hj
      · have ha : dom i a := hdom ▸ ha
        rw [h.inside i hmid a ha]
        split_ifs with hS
        · rfl
        · rw [(hthis a ha).resolve_left hS]
      · rw [h.inside j (mem_replace.mpr (.inr hj)) a ha]
        split_ifs with hS
        · rw [hothers j hj a ha hS]
          rfl
        · rfl
    · have hnone : f a = none := by
        refine h.outside a fun j hj ha => ?_
        rcases mem_replace.mp hj with rfl | hj
        · exact hno r hmid' (hdom ▸ ha)
        · exact hno j (mem_replace.mpr (.inr hj)) ha
      unfold revalue
      rw [hnone]
      split_ifs <;> rfl

end Pieces
