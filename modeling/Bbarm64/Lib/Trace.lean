import Mathlib.Tactic.Common

/-!
# Lib.Trace — runs with their history, and safety up to a step condition

A trace is a run of a transition system together with the steps it took, each with the state before
it.  `Trace.inv` is the invariant rule.  `Trace.safe_iff` is its refinement for a safety property that
some steps break: if from a safe state a step leads to a safe state exactly under a condition, then a
run is safe throughout exactly if each of its steps met the condition.
-/

variable {σ α : Type*}

/-- The runs from `init` by `step`, with the states and actions of their steps. -/
inductive Trace (init : σ → Prop) (step : σ → α → σ → Prop) : List (σ × α) → σ → Prop where
  | nil {s : σ} (h : init s) : Trace init step [] s
  | snoc {es : List (σ × α)} {s t : σ} {a : α} (h : Trace init step es s) (ht : step s a t) :
    Trace init step (es ++ [(s, a)]) t

namespace Trace

variable {init : σ → Prop} {step : σ → α → σ → Prop} {es : List (σ × α)} {s : σ}

/-- Every state of the run satisfies `P`. -/
def Throughout (P : σ → Prop) (es : List (σ × α)) (s : σ) : Prop := (∀ e ∈ es, P e.1) ∧ P s

theorem throughout_snoc {P : σ → Prop} {t : σ} {a : α} :
    Throughout P (es ++ [(s, a)]) t ↔ Throughout P es s ∧ P t := by
  simp [Throughout, or_imp, forall_and, and_assoc]

/-- An entry of the history is a step. -/
theorem exists_step (h : Trace init step es s) {e : σ × α} (he : e ∈ es) : ∃ t, step e.1 e.2 t := by
  induction h with
  | nil h => cases he
  | snoc _ ht ih =>
    rcases List.mem_append.mp he with he | he
    · exact ih he
    · obtain rfl := List.mem_singleton.mp he
      exact ⟨_, ht⟩

/-- What holds initially and is kept by good steps holds throughout a run of good steps. -/
theorem inv_of_good {I : σ → Prop} {G : σ → α → Prop} (h0 : ∀ s, init s → I s)
    (hstep : ∀ s a t, I s → G s a → step s a t → I t) (h : Trace init step es s)
    (hg : ∀ e ∈ es, G e.1 e.2) : Throughout I es s := by
  induction h with
  | nil h => exact ⟨List.forall_mem_nil _, h0 _ h⟩
  | snoc _ ht ih =>
    have hs := ih fun e he => hg e (List.mem_append_left _ he)
    have hlast := hg _ (List.mem_append_right _ (List.mem_singleton_self _))
    exact throughout_snoc.mpr ⟨hs, hstep _ _ _ hs.2 hlast ht⟩

/-- **Invariants**: what holds initially and is kept by the steps holds throughout. -/
theorem inv {I : σ → Prop} (h0 : ∀ s, init s → I s) (hstep : ∀ s a t, I s → step s a t → I t)
    (h : Trace init step es s) : Throughout I es s :=
  inv_of_good (G := fun _ _ => True) h0 (fun s a t hs _ => hstep s a t hs) h fun _ _ => trivial

/-- **Safety up to a condition**: with an invariant `I`, a run is safe throughout exactly if its steps
meet the condition under which a step keeps a safe state safe. -/
theorem safe_iff {I Safe : σ → Prop} {G : σ → α → Prop} (h0 : ∀ s, init s → I s ∧ Safe s)
    (hI : ∀ s a t, I s → step s a t → I t)
    (hstep : ∀ s a t, I s → Safe s → step s a t → (Safe t ↔ G s a))
    (h : Trace init step es s) : Throughout Safe es s ↔ ∀ e ∈ es, G e.1 e.2 := by
  have hinv : Throughout I es s := h.inv (fun s hs => (h0 s hs).1) hI
  induction h with
  | nil h => exact ⟨fun _ => List.forall_mem_nil _, fun _ => ⟨List.forall_mem_nil _, (h0 _ h).2⟩⟩
  | @snoc es s t a _ ht ih =>
    have hs : Throughout I es s := (throughout_snoc.mp hinv).1
    have hlast : (∀ e ∈ es ++ [(s, a)], G e.1 e.2) ↔ (∀ e ∈ es, G e.1 e.2) ∧ G s a := by
      simp [or_imp, forall_and]
    have hrun : Throughout Safe es s ↔ ∀ e ∈ es, G e.1 e.2 := ih hs
    rw [throughout_snoc, hlast, hrun]
    exact and_congr_right fun hgood => hstep _ _ _ hs.2 (hrun.mpr hgood).2 ht

/-- Every state satisfies `R` with the history up to it. -/
def Always (R : List (σ × α) → σ → Prop) (es : List (σ × α)) (s : σ) : Prop :=
  (∀ es₁ e es₂, es = es₁ ++ e :: es₂ → R es₁ e.1) ∧ R es s

theorem always_snoc {R : List (σ × α) → σ → Prop} {t : σ} {a : α} :
    Always R (es ++ [(s, a)]) t ↔ Always R es s ∧ R (es ++ [(s, a)]) t := by
  refine and_congr_left fun _ => ⟨fun h => ⟨fun es₁ e es₂ he => ?_, h es (s, a) [] rfl⟩, ?_⟩
  · exact h es₁ e (es₂ ++ [(s, a)]) (by rw [he, List.append_assoc, List.cons_append])
  · rintro ⟨hbefore, hlast⟩ es₁ e es₂ he
    rcases List.eq_nil_or_concat es₂ with rfl | ⟨es₂, e', rfl⟩
    · obtain ⟨rfl, hlast_eq⟩ := List.append_inj' he rfl
      obtain rfl := List.singleton_inj.mp hlast_eq
      exact hlast
    · rw [List.concat_eq_append, ← List.cons_append, ← List.append_assoc] at he
      exact hbefore es₁ e es₂ (List.append_inj' he rfl).1

/-- **Simulation up to a condition**: a run is in relation to its history throughout exactly if its steps
meet the condition under which a step keeps the relation. -/
theorem always_iff {R : List (σ × α) → σ → Prop} {I : σ → Prop} {P G : σ → α → Prop}
    (h0 : ∀ s, init s → R [] s)
    (hstep : ∀ es s a t, I s → I t → P s a → step s a t → R es s → (R (es ++ [(s, a)]) t ↔ G s a))
    (h : Trace init step es s) (hI : Throughout I es s) (hP : ∀ e ∈ es, P e.1 e.2) :
    Always R es s ↔ ∀ e ∈ es, G e.1 e.2 := by
  induction h with
  | nil h => exact ⟨fun _ => List.forall_mem_nil _, fun _ => ⟨by simp, h0 _ h⟩⟩
  | @snoc es s t a _ ht ih =>
    obtain ⟨hs, hlast⟩ := throughout_snoc.mp hI
    have hsplit : ∀ Q : σ → α → Prop,
        (∀ e ∈ es ++ [(s, a)], Q e.1 e.2) ↔ (∀ e ∈ es, Q e.1 e.2) ∧ Q s a := by
      simp [or_imp, forall_and]
    obtain ⟨hes, ha⟩ := (hsplit P).mp hP
    have hrun : Always R es s ↔ ∀ e ∈ es, G e.1 e.2 := ih hs hes
    rw [always_snoc, hsplit, hrun]
    exact and_congr_right fun hgood => hstep _ _ _ _ hs.2 hlast ha ht (hrun.mpr hgood).2

end Trace
