import Mathlib.Data.Finset.Dedup
import Mathlib.Data.Finset.Card
import Mathlib.Data.List.Basic

/-!
# Lib.FirstFit — places given out in the order of the first requests

Of `n` places each key gets the lowest free one at its first request and keeps it; when they are used
up, new keys get none.  A state is the list of the keys that have a place, in the order of their places.
`length_requests` says how many there are behind any sequence of requests, and a key has its place from
its first request on (`idxOf_requests`).
-/

namespace FirstFit

variable {K : Type*} [DecidableEq K] (n : ℕ)

def request (l : List K) (k : K) : List K := if k ∈ l ∨ n ≤ l.length then l else l ++ [k]

def requests (l ks : List K) : List K := ks.foldl (request n) l

variable {n} {l ks : List K} {k : K}

@[simp] theorem requests_nil : requests n l [] = l := rfl

@[simp] theorem requests_cons : requests n l (k :: ks) = requests n (request n l k) ks := rfl

theorem request_of_mem (h : k ∈ l) : request n l k = l := if_pos (.inl h)

theorem request_of_full (h : n ≤ l.length) : request n l k = l := if_pos (.inr h)

theorem request_of_new (h : k ∉ l) (hlt : l.length < n) : request n l k = l ++ [k] :=
  if_neg (not_or.mpr ⟨h, Nat.not_le.mpr hlt⟩)

/-- A key is there already, or it is new, or it comes too late. -/
theorem request_cases (n : ℕ) (l : List K) (k : K) :
    k ∈ l ∧ request n l k = l ∨ (k ∉ l ∧ l.length < n ∧ request n l k = l ++ [k]) ∨
      k ∉ l ∧ n ≤ l.length ∧ request n l k = l := by
  by_cases hmem : k ∈ l
  · exact .inl ⟨hmem, request_of_mem hmem⟩
  · rcases Nat.lt_or_ge l.length n with hlt | hge
    · exact .inr (.inl ⟨hmem, hlt, request_of_new hmem hlt⟩)
    · exact .inr (.inr ⟨hmem, hge, request_of_full hge⟩)

theorem prefix_request (l : List K) (k : K) : l <+: request n l k := by
  rcases request_cases n l k with ⟨-, h⟩ | ⟨-, -, h⟩ | ⟨-, -, h⟩
  · rw [h]
  · rw [h]
    exact List.prefix_append l [k]
  · rw [h]

theorem nodup_request (h : l.Nodup) (k : K) : (request n l k).Nodup := by
  rcases request_cases n l k with ⟨-, he⟩ | ⟨hmem, -, he⟩ | ⟨-, -, he⟩
  · rwa [he]
  · rw [he, ← List.concat_eq_append]
    exact h.concat hmem
  · rwa [he]

theorem length_request_le (h : l.length ≤ n) (k : K) : (request n l k).length ≤ n := by
  rcases request_cases n l k with ⟨-, he⟩ | ⟨-, hlt, he⟩ | ⟨-, -, he⟩
  · rwa [he]
  · rw [he, List.length_append]
    exact hlt
  · rwa [he]

/-- As long as there is a place, the key has one. -/
theorem mem_request (h : (request n l k).length < n) : k ∈ request n l k := by
  rcases request_cases n l k with ⟨hmem, he⟩ | ⟨-, -, he⟩ | ⟨-, hge, he⟩
  · rwa [he]
  · rw [he]
    exact List.mem_append_right l (List.mem_singleton_self k)
  · rw [he] at h
    exact absurd hge (Nat.not_le.mpr h)

/-! ## Sequences of requests -/

theorem prefix_requests (l ks : List K) : l <+: requests n l ks := by
  induction ks generalizing l with
  | nil => exact List.prefix_rfl
  | cons k ks ih => exact (prefix_request l k).trans (ih _)

theorem nodup_requests (h : l.Nodup) (ks : List K) : (requests n l ks).Nodup := by
  induction ks generalizing l with
  | nil => exact h
  | cons k ks ih => exact ih (nodup_request h k)

theorem length_requests_le (h : l.length ≤ n) (ks : List K) : (requests n l ks).length ≤ n := by
  induction ks generalizing l with
  | nil => exact h
  | cons k ks ih => exact ih (length_request_le h k)

/-- A key keeps its place. -/
theorem idxOf_requests (h : k ∈ l) (ks : List K) : (requests n l ks).idxOf k = l.idxOf k :=
  ((prefix_requests l ks).idxOf_eq_of_mem h).symm

theorem requests_of_full (h : n ≤ l.length) (ks : List K) : requests n l ks = l := by
  induction ks with
  | nil => rfl
  | cons k ks ih => rw [requests_cons, request_of_full h, ih]

/-- As long as there is a place left, all keys have one. -/
theorem mem_requests (h : (requests n l ks).length < n) (hk : k ∈ ks) : k ∈ requests n l ks := by
  induction ks generalizing l with
  | nil => cases hk
  | cons k' ks ih =>
    rcases List.mem_cons.mp hk with rfl | hk
    · have hpre : request n l k <+: requests n l (k :: ks) := prefix_requests _ ks
      exact hpre.subset (mem_request (Nat.lt_of_le_of_lt hpre.length_le h))
    · exact ih h hk

theorem mem_of_mem_requests (h : k ∈ requests n l ks) : k ∈ l ∨ k ∈ ks := by
  induction ks generalizing l with
  | nil => exact .inl h
  | cons k' ks ih =>
    rcases ih h with h | h
    · rcases request_cases n l k' with ⟨-, he⟩ | ⟨-, -, he⟩ | ⟨-, -, he⟩
      · exact .inl (he ▸ h)
      · rw [he, List.mem_append, List.mem_singleton] at h
        rcases h with h | rfl
        · exact .inl h
        · exact .inr List.mem_cons_self
      · exact .inl (he ▸ h)
    · exact .inr (List.mem_cons_of_mem k' h)

theorem toFinset_requests_subset (n : ℕ) (ks : List K) :
    (requests n [] ks).toFinset ⊆ ks.toFinset := by
  intro k hk
  rw [List.mem_toFinset] at hk ⊢
  exact (mem_of_mem_requests hk).resolve_left List.not_mem_nil

theorem card_toFinset_requests (n : ℕ) (ks : List K) :
    (requests n [] ks).toFinset.card = (requests n [] ks).length :=
  List.toFinset_card_of_nodup (nodup_requests List.nodup_nil ks)

/-- **How many keys have a place**: all that were requested, as far as the places go. -/
theorem length_requests (n : ℕ) (ks : List K) :
    (requests n [] ks).length = min n ks.toFinset.card := by
  have hle : (requests n [] ks).length ≤ n := length_requests_le (Nat.zero_le n) ks
  have hcard := Finset.card_le_card (toFinset_requests_subset n ks)
  rw [card_toFinset_requests] at hcard
  rcases Nat.lt_or_ge (requests n [] ks).length n with hlt | hge
  · have hsup : ks.toFinset ⊆ (requests n [] ks).toFinset := by
      intro k hk
      rw [List.mem_toFinset] at hk ⊢
      exact mem_requests hlt hk
    have hcard' := Finset.card_le_card hsup
    rw [card_toFinset_requests] at hcard'
    omega
  · omega

theorem mem_requests_of_card_le (h : ks.toFinset.card ≤ n) (hk : k ∈ ks) :
    k ∈ requests n [] ks := by
  have hle : ks.toFinset.card ≤ (requests n [] ks).toFinset.card := by
    rw [card_toFinset_requests, length_requests, Nat.min_eq_right h]
  rw [← List.mem_toFinset, Finset.eq_of_subset_of_card_le (toFinset_requests_subset n ks) hle]
  exact List.mem_toFinset.mpr hk

/-- Where there are more keys than places, one has none. -/
theorem exists_notMem_requests (h : n < ks.toFinset.card) : ∃ k ∈ ks, k ∉ requests n [] ks := by
  by_contra hall
  push Not at hall
  have hsub : ks.toFinset ⊆ (requests n [] ks).toFinset := by
    intro k hk
    rw [List.mem_toFinset] at hk ⊢
    exact hall k hk
  have hcard := Finset.card_le_card hsub
  rw [card_toFinset_requests, length_requests] at hcard
  omega

end FirstFit
