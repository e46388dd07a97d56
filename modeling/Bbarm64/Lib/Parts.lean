import Mathlib.Tactic.Common

/-!
# Lib.Parts — lists written part by part

Where a part of a list is: `PartAt l o xs` says that `xs` stands in `l` from position `o` on.  A list
that is the concatenation of its parts has each of them behind those in front of it (`PartAt.part`).
-/

variable {α : Type*}

/-- The list `l` has `xs` from position `o` on. -/
def PartAt (l : List α) (o : ℕ) (xs : List α) : Prop := ∀ i x, xs[i]? = some x → l[o + i]? = some x

section PartAt

variable {l xs ys : List α} {o : ℕ}

theorem partAt_append (l xs r : List α) : PartAt (l ++ xs ++ r) l.length xs := by
  intro i x hx
  have hlt := (List.getElem?_eq_some_iff.mp hx).1
  rw [List.append_assoc, List.getElem?_append_right (Nat.le_add_right _ _), Nat.add_sub_cancel_left,
    List.getElem?_append_left hlt, hx]

theorem PartAt.left (h : PartAt l o (xs ++ ys)) : PartAt l o xs := by
  intro i x hx
  have hlt := (List.getElem?_eq_some_iff.mp hx).1
  exact h i x (by rw [List.getElem?_append_left hlt, hx])

theorem PartAt.right (h : PartAt l o (xs ++ ys)) : PartAt l (o + xs.length) ys := by
  intro i x hx
  rw [Nat.add_assoc]
  refine h _ x ?_
  rw [List.getElem?_append_right (Nat.le_add_right _ _), Nat.add_sub_cancel_left, hx]

/-- **The parts** of a concatenation. -/
theorem PartAt.part {parts : List (List α)} (h : PartAt l o parts.flatten) {i : ℕ} {p : List α}
    (hi : parts[i]? = some p) : PartAt l (o + (parts.take i).flatten.length) p := by
  induction parts generalizing o i with
  | nil => cases hi
  | cons q parts ih =>
    rw [List.flatten_cons] at h
    cases i with
    | zero =>
      obtain rfl := Option.some.inj hi
      exact h.left
    | succ i =>
      rw [List.take_succ_cons, List.flatten_cons, List.length_append, ← Nat.add_assoc]
      exact ih h.right hi

theorem PartAt.le (h : PartAt l o xs) (hne : xs ≠ []) : o + xs.length ≤ l.length := by
  have hpos := List.length_pos_iff.mpr hne
  have hlast := List.getElem?_eq_getElem (Nat.sub_lt hpos Nat.one_pos)
  have hlt := (List.getElem?_eq_some_iff.mp (h _ _ hlast)).1
  omega

end PartAt
