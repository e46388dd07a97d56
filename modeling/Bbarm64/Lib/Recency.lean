import Mathlib.Tactic.Common

/-!
# Lib.Recency — how long ago, from a log and from time stamps

`since P l` is the part of a log behind the last event that satisfies `P`, and `lastAt P l` the number
of events up to that one.  A store that gives each key a stamp off a counter, whenever an event touches
the key, has distinct stamps in the order of the last touches: `Stamped` is the invariant, with a rule
for an event that touches one key and one for an event that touches none.
-/

namespace Recency

variable {α K : Type*}

section Since

variable (P : α → Prop) [DecidablePred P]

/-- What follows the last event that satisfies `P`. -/
def since (l : List α) : List α := (l.reverse.takeWhile fun a => ¬ P a).reverse

/-- The number of events up to the last one that satisfies `P`, or zero. -/
def lastAt (l : List α) : ℕ := l.length - (since P l).length

@[simp] theorem since_nil : since P [] = [] := rfl

theorem since_snoc (l : List α) (a : α) :
    since P (l ++ [a]) = if P a then [] else since P l ++ [a] := by
  rw [since, List.reverse_append, List.reverse_singleton, List.singleton_append, List.takeWhile_cons]
  by_cases h : P a <;> simp [h, since]

theorem length_since_le (l : List α) : (since P l).length ≤ l.length := by
  rw [since, List.length_reverse, ← l.length_reverse]
  exact (List.takeWhile_prefix _).length_le

theorem lastAt_le (l : List α) : lastAt P l ≤ l.length := Nat.sub_le _ _

theorem lastAt_snoc (l : List α) (a : α) :
    lastAt P (l ++ [a]) = if P a then l.length + 1 else lastAt P l := by
  have hle := length_since_le P l
  rw [lastAt, since_snoc, List.length_append, List.length_singleton]
  split_ifs
  · rfl
  · rw [List.length_append, List.length_singleton, lastAt]
    omega

end Since

/-! ## Stamps -/

section Stamped

variable (touches : K → α → Prop) [∀ k, DecidablePred (touches k)]

/-- The stamps are at most the counter and the counter at most the length of the log; no two keys have
the same stamp, and the stamps are in the order of the last touches. -/
structure Stamped (l : List α) (counter : ℕ) (stamp : K → Option ℕ) : Prop where
  counter_le : counter ≤ l.length
  le : ∀ k s, stamp k = some s → s ≤ counter
  inj : ∀ k k' s, stamp k = some s → stamp k' = some s → k = k'
  lt_iff : ∀ k k' s s', stamp k = some s → stamp k' = some s' →
    (s < s' ↔ lastAt (touches k) l < lastAt (touches k') l)

variable {touches} {l : List α} {a : α} {counter : ℕ} {stamp stamp' : K → Option ℕ}

theorem stamped_nil : Stamped touches [] 0 fun _ => none := ⟨Nat.le_refl 0, nofun, nofun, nofun⟩

/-- An event that touches no key; stamps may go. -/
theorem Stamped.skip (h : Stamped touches l counter stamp) (ha : ∀ k, ¬ touches k a)
    (hs : ∀ k s, stamp' k = some s → stamp k = some s) :
    Stamped touches (l ++ [a]) counter stamp' := by
  refine ⟨?_, fun k s hk => h.le k s (hs k s hk),
    fun k k' s hk hk' => h.inj k k' s (hs k s hk) (hs k' s hk'), fun k k' s s' hk hk' => ?_⟩
  · rw [List.length_append]
    exact Nat.le_add_right_of_le h.counter_le
  · rw [lastAt_snoc, lastAt_snoc, if_neg (ha k), if_neg (ha k')]
    exact h.lt_iff k k' s s' (hs k s hk) (hs k' s' hk')

/-- An event that touches the key `k₀`, which gets the next stamp. -/
theorem Stamped.touch (h : Stamped touches l counter stamp) {k₀ : K}
    (ha : ∀ k, touches k a ↔ k = k₀)
    (hs : ∀ k s, stamp' k = some s → k = k₀ ∧ s = counter + 1 ∨ k ≠ k₀ ∧ stamp k = some s) :
    Stamped touches (l ++ [a]) (counter + 1) stamp' := by
  have hnew : lastAt (touches k₀) (l ++ [a]) = l.length + 1 := by
    rw [lastAt_snoc, if_pos ((ha k₀).mpr rfl)]
  have hold : ∀ k, k ≠ k₀ → lastAt (touches k) (l ++ [a]) = lastAt (touches k) l := by
    intro k hk
    rw [lastAt_snoc, if_neg fun ht => hk ((ha k).mp ht)]
  refine ⟨?_, fun k s hk => ?_, fun k k' s hk hk' => ?_, fun k k' s s' hk hk' => ?_⟩
  · rw [List.length_append]
    exact Nat.succ_le_succ h.counter_le
  · rcases hs k s hk with ⟨-, rfl⟩ | ⟨-, hk⟩
    · exact Nat.le_refl _
    · exact Nat.le_succ_of_le (h.le k s hk)
  · -- the new stamp is above all others
    rcases hs k s hk with ⟨hk₀, he⟩ | ⟨-, hk⟩ <;> rcases hs k' s hk' with ⟨hk₀', he'⟩ | ⟨-, hk'⟩
    · exact hk₀.trans hk₀'.symm
    · exact absurd (he ▸ h.le k' s hk') (Nat.not_succ_le_self _)
    · exact absurd (he' ▸ h.le k s hk) (Nat.not_succ_le_self _)
    · exact h.inj k k' s hk hk'
  · have hlast := lastAt_le (touches k) l
    have hlast' := lastAt_le (touches k') l
    rcases hs k s hk with ⟨rfl, rfl⟩ | ⟨hne, hk⟩ <;> rcases hs k' s' hk' with ⟨rfl, rfl⟩ | ⟨hne', hk'⟩
    · exact iff_of_false (Nat.lt_irrefl _) (Nat.lt_irrefl _)
    · have hle := h.le k' s' hk'
      rw [hnew, hold k' hne']
      omega
    · have hle := h.le k s hk
      rw [hnew, hold k hne]
      omega
    · rw [hold k hne, hold k' hne']
      exact h.lt_iff k k' s s' hk hk'

end Stamped

end Recency
