import Bbarm64.X86.Extension

/-!
# X86.Completion — machines that know more instructions

A completion takes the steps of `stepInsn`, and steps of its own where that one has none inside the
code.  What holds of the runs of every completion does not depend on the instructions left out.
-/

namespace X86

structure Completion where
  step : List Byte → Config → Option Config
  step_of_insn : ∀ {code c d}, stepInsn code c = some d → step code c = some d
  halts : ∀ {code : List Byte} {c : Config}, code.length ≤ c.ip → step code c = none

namespace Completion

/-- No further instructions. -/
def insn : Completion where
  step := stepInsn
  step_of_insn h := h
  halts := stepInsn_of_length_le

variable (m : Completion) {code : List Byte} {c d : Config}

/-- Zero or more steps. -/
def Steps (code : List Byte) : Config → Config → Prop := Halting.Run (m.step code)

/-- Code that one step leads through has one run to its end. -/
theorem steps_iff_of_step {t : State} (h : m.step code c = some ⟨code.length, t⟩) (s' : State) :
    m.Steps code c ⟨code.length, s'⟩ ↔ s' = t := by
  have hhalts : ∀ t, m.step code ⟨code.length, t⟩ = none := fun _ => m.halts (Nat.le_refl _)
  refine ((Halting.Run.of_step h).iff_eq (hhalts t) (hhalts s')).trans ⟨?_, ?_⟩
  · intro he
    exact congrArg Config.st he
  · intro he
    rw [he]

theorem steps_one_iff {i : Insn} (hi : i.straight = true) (s s' : State) :
    m.Steps (encodeInsn i) ⟨0, s⟩ ⟨(encodeInsn i).length, s'⟩ ↔ s' = execInsn i s :=
  m.steps_iff_of_step (m.step_of_insn (stepInsn_straight hi s)) s'

/-- Where the first instruction does the same to both states, the runs end in one state. -/
theorem steps_unique {i : Insn} (hi : i.straight = true) {rest : List Byte} {s₁ s₂ t₁ t₂ : State}
    (hs : execInsn i s₁ = execInsn i s₂)
    (h₁ : m.Steps (encodeInsn i ++ rest) ⟨0, s₁⟩ ⟨(encodeInsn i ++ rest).length, t₁⟩)
    (h₂ : m.Steps (encodeInsn i ++ rest) ⟨0, s₂⟩ ⟨(encodeInsn i ++ rest).length, t₂⟩) : t₁ = t₂ := by
  have hhalts : ∀ t, m.step (encodeInsn i ++ rest) ⟨(encodeInsn i ++ rest).length, t⟩ = none :=
    fun _ => m.halts (Nat.le_refl _)
  have hstep₁ := m.step_of_insn (stepInsn_append hi rest s₁)
  have hstep₂ := m.step_of_insn (stepInsn_append hi rest s₂)
  rw [hs] at hstep₁
  have hrest₁ := (Halting.Run.step_iff hstep₁ (hhalts t₁)).mp h₁
  have hrest₂ := (Halting.Run.step_iff hstep₂ (hhalts t₂)).mp h₂
  exact congrArg Config.st (hrest₁.unique (hhalts t₁) hrest₂ (hhalts t₂))

end Completion

theorem stepsInsn_one_iff {i : Insn} (hi : i.straight = true) (s s' : State) :
    StepsInsn (encodeInsn i) ⟨0, s⟩ ⟨(encodeInsn i).length, s'⟩ ↔ s' = execInsn i s :=
  Completion.insn.steps_one_iff hi s s'

end X86
