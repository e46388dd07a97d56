import Mathlib.Logic.Relation

/-!
# Lib.Halting — runs of a partial step function

A step function `f : α → Option α` has at most one step from each state, so all its runs from a state
lie on one line, and that line has at most one halted state on it.
-/

namespace Halting

variable {α : Type*} {f : α → Option α} {a b c : α}

/-- Zero or more steps. -/
def Run (f : α → Option α) : α → α → Prop := Relation.ReflTransGen fun a b => f a = some b

theorem step_rightUnique (f : α → Option α) : Relator.RightUnique fun a b => f a = some b :=
  fun _ _ _ hb hc => Option.some.inj (hb.symm.trans hc)

/-- There is no way on from a halted state. -/
theorem Run.eq_of_halted (h : Run f a b) (ha : f a = none) : b = a := by
  rcases Relation.ReflTransGen.cases_head h with rfl | ⟨c, hc, -⟩
  · rfl
  · rw [ha] at hc
    cases hc

/-- Every state of a run is on the way to where it halts. -/
theorem Run.reached (h : Run f a b) (hb : f b = none) (hc : Run f a c) : Run f c b := by
  rcases Relation.ReflTransGen.total_of_right_unique (step_rightUnique f) h hc with hbc | hcb
  · obtain rfl := Run.eq_of_halted hbc hb
    exact hbc
  · exact hcb

/-- **A run halts in one state.** -/
theorem Run.unique (h : Run f a b) (hb : f b = none) (h' : Run f a c) (hc : f c = none) : b = c :=
  (h.reached hb h').eq_of_halted hc

theorem Run.iff_eq (h : Run f a b) (hb : f b = none) (hc : f c = none) : Run f a c ↔ c = b :=
  ⟨fun h' => h'.unique hc h hb, fun he => he ▸ h⟩

theorem Run.of_step (h : f a = some b) : Run f a b := Relation.ReflTransGen.single h

/-- The first step taken. -/
theorem Run.step_iff (hab : f a = some b) (hc : f c = none) : Run f a c ↔ Run f b c := by
  constructor
  · intro h
    exact h.reached hc (.of_step hab)
  · intro h
    exact Relation.ReflTransGen.head hab h

end Halting
