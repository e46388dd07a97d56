import Mathlib.Data.List.Pairwise
import Mathlib.Data.Set.BooleanAlgebra
import Mathlib.Data.Set.Piecewise
import Mathlib.Order.CompletePartialOrder
import Mathlib.Tactic.Common

/-!
# Lib.Patch — patches of a function on disjoint sets

A patch replaces the values of a function on a set.  Patches on pairwise disjoint sets do not disturb
each other: behind a list of them every set holds the values of its own patch.
-/

variable {α β : Type*}

/-- A set with the values on it. -/
structure Patch (α β : Type*) where
  dom : Set α
  val : α → β

namespace Patch

open Classical in
noncomputable def apply (p : Patch α β) (f : α → β) : α → β := p.dom.piecewise p.val f

/-- The patches in order. -/
noncomputable def applyAll (ps : List (Patch α β)) (f : α → β) : α → β :=
  ps.foldl (fun g p => p.apply g) f

section Apply

variable {p : Patch α β} {ps : List (Patch α β)} {f : α → β} {a : α}

open Classical in
theorem apply_of_mem (h : a ∈ p.dom) : p.apply f a = p.val a := Set.piecewise_eq_of_mem _ _ _ h

open Classical in
theorem apply_of_notMem (h : a ∉ p.dom) : p.apply f a = f a := Set.piecewise_eq_of_notMem _ _ _ h

@[simp] theorem applyAll_nil : applyAll [] f = f := rfl

@[simp] theorem applyAll_cons : applyAll (p :: ps) f = applyAll ps (p.apply f) := rfl

theorem applyAll_of_notMem (h : ∀ p ∈ ps, a ∉ p.dom) : applyAll ps f a = f a := by
  induction ps generalizing f with
  | nil => rfl
  | cons p ps ih =>
    rw [applyAll_cons, ih fun q hq => h q (List.mem_cons_of_mem _ hq),
      apply_of_notMem (h p List.mem_cons_self)]

/-- **Disjoint patches**: each of them is there in the end. -/
theorem applyAll_of_mem (hd : ps.Pairwise fun p q => Disjoint p.dom q.dom) (hp : p ∈ ps)
    (ha : a ∈ p.dom) : applyAll ps f a = p.val a := by
  induction ps generalizing f with
  | nil => cases hp
  | cons q ps ih =>
    obtain ⟨hq, hd⟩ := List.pairwise_cons.mp hd
    rw [applyAll_cons]
    rcases List.mem_cons.mp hp with rfl | hp
    · -- the later patches are elsewhere
      rw [applyAll_of_notMem fun r hr har => Set.disjoint_left.mp (hq r hr) ha har, apply_of_mem ha]
    · exact ih hd hp

theorem applyAll_append {qs : List (Patch α β)} :
    applyAll (ps ++ qs) f = applyAll qs (applyAll ps f) := List.foldl_append

/-- **Disjoint patches commute**, and what is below them does not matter. -/
theorem applyAll_congr {qs : List (Patch α β)} {g : α → β} (hp : ps.Perm qs)
    (hd : ps.Pairwise fun p q => Disjoint p.dom q.dom)
    (hfg : (∀ p ∈ ps, a ∉ p.dom) → f a = g a) : applyAll ps f a = applyAll qs g a := by
  by_cases ha : ∃ p ∈ ps, a ∈ p.dom
  · obtain ⟨p, hps, ha⟩ := ha
    have hd' : qs.Pairwise fun p q => Disjoint p.dom q.dom :=
      hd.perm hp fun h => h.symm
    rw [applyAll_of_mem hd hps ha, applyAll_of_mem hd' (hp.mem_iff.mp hps) ha]
  · have hout : ∀ p ∈ ps, a ∉ p.dom := fun p hp hap => ha ⟨p, hp, hap⟩
    rw [applyAll_of_notMem hout, applyAll_of_notMem fun p hq => hout p (hp.mem_iff.mpr hq)]
    exact hfg hout

end Apply

end Patch
