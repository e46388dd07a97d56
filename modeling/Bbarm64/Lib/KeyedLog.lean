import Mathlib.Data.List.Induction
import Mathlib.Logic.Function.Basic
import Mathlib.Tactic.Common

/-!
# Lib.KeyedLog — keyed stores and the log of their updates

A log is a list of updates, each of which sets the value of one key or drops a set of keys.
`replay` runs a log from the empty store.  What a key holds afterwards is decided by its last
update: `replay_eq_some_iff` gives the value, `replay_isSome_iff` the presence.
-/

namespace KeyedLog

variable {K V : Type*}

inductive Update (K V : Type*) where
  | set (k : K) (v : V)
  | drop (p : K → Bool)

namespace Update

/-- The update gives `k` a value. -/
def Sets (u : Update K V) (k : K) : Prop := ∃ v, u = .set k v

/-- The update drops `k`. -/
def Drops (u : Update K V) (k : K) : Prop :=
  match u with
  | .set _ _ => False
  | .drop p => p k = true

def apply [DecidableEq K] (u : Update K V) (m : K → Option V) : K → Option V :=
  match u with
  | .set k v => Function.update m k (some v)
  | .drop p => fun k => if p k then none else m k

end Update

variable [DecidableEq K]

/-- The store behind a log that starts on `m`. -/
def replayFrom (m : K → Option V) (us : List (Update K V)) : K → Option V :=
  us.foldl (fun m u => u.apply m) m

/-- The store behind a log that starts on the empty store. -/
def replay (us : List (Update K V)) : K → Option V := replayFrom (fun _ => none) us

section Replay

variable {m : K → Option V} {us vs : List (Update K V)} {k : K} {v : V}

@[simp] theorem replayFrom_nil : replayFrom m [] = m := rfl

@[simp] theorem replayFrom_cons (u : Update K V) :
    replayFrom m (u :: us) = replayFrom (u.apply m) us := rfl

theorem replayFrom_append : replayFrom m (us ++ vs) = replayFrom (replayFrom m us) vs := by
  simp [replayFrom, List.foldl_append]

theorem replay_append : replay (us ++ vs) = replayFrom (replay us) vs := replayFrom_append

/-- An update that neither sets nor drops `k` is not seen at `k`. -/
theorem apply_of_untouched {u : Update K V} (hs : ¬ u.Sets k) (hd : ¬ u.Drops k) :
    u.apply m k = m k := by
  cases u with
  | set k' v' =>
    have hne : k ≠ k' := by
      rintro rfl
      exact hs ⟨v', rfl⟩
    simp [Update.apply, hne]
  | drop p =>
    have hp : ¬ p k = true := hd
    simp [Update.apply, hp]

/-- A log that does not set `k` keeps its value or drops it. -/
theorem replayFrom_of_not_sets (hs : ∀ u ∈ us, ¬ u.Sets k) :
    (∃ u ∈ us, u.Drops k) ∧ replayFrom m us k = none ∨
      (∀ u ∈ us, ¬ u.Drops k) ∧ replayFrom m us k = m k := by
  induction us using List.reverseRecOn with
  | nil => exact .inr ⟨nofun, rfl⟩
  | append_singleton us u ih =>
    have hu : ¬ u.Sets k := hs u (by simp)
    have hsnoc : replayFrom m (us ++ [u]) k = u.apply (replayFrom m us) k := by
      rw [replayFrom_append, replayFrom_cons, replayFrom_nil]
    rw [hsnoc]
    by_cases hd : u.Drops k
    · refine .inl ⟨⟨u, by simp, hd⟩, ?_⟩
      cases u with
      | set k' v' => exact hd.elim
      | drop p => exact if_pos hd
    · rw [apply_of_untouched hu hd]
      rcases ih fun u' h => hs u' (by simp [h]) with ⟨⟨u', h, hd'⟩, he⟩ | ⟨hn, he⟩
      · exact .inl ⟨⟨u', by simp [h], hd'⟩, he⟩
      · refine .inr ⟨fun u' h => ?_, he⟩
        rcases List.mem_append.mp h with h | h
        · exact hn u' h
        · rwa [List.mem_singleton.mp h]

/-- **The last update decides the value.** -/
theorem replay_eq_some_iff : replay us k = some v ↔
    ∃ us₁ us₂, us = us₁ ++ .set k v :: us₂ ∧ ∀ u ∈ us₂, ¬ u.Sets k ∧ ¬ u.Drops k := by
  induction us using List.reverseRecOn with
  | nil => simp [replay]
  | append_singleton us u ih =>
    rw [replay_append, replayFrom_cons, replayFrom_nil]
    constructor
    · intro h
      by_cases ht : u.Sets k ∨ u.Drops k
      · -- the last update touches `k`: it must be the one that set `v`
        refine ⟨us, [], ?_, nofun⟩
        cases u with
        | set k' v' =>
          obtain ⟨w, hw⟩ : (Update.set k' v').Sets k := ht.elim id False.elim
          cases hw
          simpa [Update.apply] using h
        | drop p =>
          have hp : p k = true := ht.elim (fun ⟨_, hw⟩ => nomatch hw) id
          simp [Update.apply, hp] at h
      · rw [not_or] at ht
        rw [apply_of_untouched ht.1 ht.2] at h
        obtain ⟨us₁, us₂, rfl, h₂⟩ := ih.mp h
        refine ⟨us₁, us₂ ++ [u], by simp, fun u' hu' => ?_⟩
        rcases List.mem_append.mp hu' with hu' | hu'
        · exact h₂ u' hu'
        · rw [List.mem_singleton.mp hu']
          exact ht
    · rintro ⟨us₁, us₂, he, h₂⟩
      rcases List.eq_nil_or_concat us₂ with rfl | ⟨us₂, u', rfl⟩
      · obtain ⟨-, hu⟩ := List.append_inj' he rfl
        obtain rfl := List.singleton_inj.mp hu
        simp [Update.apply]
      · have he' : us ++ [u] = (us₁ ++ .set k v :: us₂) ++ [u'] := by simpa using he
        obtain ⟨hus, hu⟩ := List.append_inj' he' rfl
        obtain rfl := List.singleton_inj.mp hu
        have hu' := h₂ u (by simp)
        rw [apply_of_untouched hu'.1 hu'.2]
        exact ih.mpr ⟨us₁, us₂, hus, fun u'' h => h₂ u'' (by simp [h])⟩

/-- **Presence**: a key is there if some update set it and no later one dropped it. -/
theorem replay_isSome_iff : (replay us k).isSome ↔
    ∃ us₁ v us₂, us = us₁ ++ .set k v :: us₂ ∧ ∀ u ∈ us₂, ¬ u.Drops k := by
  constructor
  · intro h
    obtain ⟨v, hv⟩ := Option.isSome_iff_exists.mp h
    obtain ⟨us₁, us₂, he, h₂⟩ := replay_eq_some_iff.mp hv
    exact ⟨us₁, v, us₂, he, fun u hu => (h₂ u hu).2⟩
  · rintro ⟨us₁, v, us₂, rfl, h₂⟩
    induction us₂ using List.reverseRecOn with
    | nil => simp [replay_append, Update.apply]
    | append_singleton us₂ u ih =>
      have ih := ih fun u' hu' => h₂ u' (by simp [hu'])
      have he : us₁ ++ .set k v :: (us₂ ++ [u]) = (us₁ ++ .set k v :: us₂) ++ [u] := by simp
      rw [he, replay_append, replayFrom_cons, replayFrom_nil]
      cases u with
      | set k' v' =>
        by_cases hk : k = k'
        · subst hk
          simp [Update.apply]
        · simpa [Update.apply, hk] using ih
      | drop p =>
        have hp : ¬ p k = true := h₂ (.drop p) (by simp)
        simpa [Update.apply, hp] using ih

end Replay

end KeyedLog
