import Bbarm64.X86.Extension
import Mathlib.Data.Set.Insert

/-!
# X86.StoreRun — runs with the stores they do

`StoreRun code exits c l d` is a run from `c` to `d` that stores `l`, of a machine whose control leaves
the code at the offsets `exits`.  A run in the front part of the code is the same whatever follows
(`exists_storeRun`), and it is the beginning of every run that comes to an end (`StoreRun.rest`).
-/

namespace X86

/-- The address and the value an instruction stores. -/
def Instr.stored : Instr → State → List (Word × Word)
  | .store b disp r, s => [(s.ea b disp, s.reg r)]
  | .pushfq, s => [(s.reg rsp - 8#64, s.flags.image s.sys)]
  | .movRI _ _, _ | .movRR _ _, _ | .load _ _ _, _ | .alu _ _ _, _ | .aluI _ _ _, _ | .test _ _, _
  | .shift _ _ _, _ | .pop _, _ | .jcc _ _, _ | .nop, _ | .ret, _ | .int3, _ => []

/-- What the instruction at `c` stores; the added forms do not store. -/
def storedAt (code : List Byte) (c : Config) : List (Word × Word) :=
  match decodeInsn (code.drop c.ip) with
  | some (.base i, _) => i.stored c.st
  | _ => []

inductive StoreRun (code : List Byte) (exits : Set ℕ) :
    Config → List (Word × Word) → Config → Prop where
  | refl (c : Config) : StoreRun code exits c [] c
  | head {c d e : Config} {l : List (Word × Word)} (hc : c.ip ∉ exits)
    (h : stepInsn code c = some d) (t : StoreRun code exits d l e) :
    StoreRun code exits c (storedAt code c ++ l) e

/-- There is no further step. -/
def Stops (code : List Byte) (exits : Set ℕ) (c : Config) : Prop :=
  c.ip ∈ exits ∨ stepInsn code c = none

section StoreRun

variable {code : List Byte} {exits : Set ℕ} {a b c d e : Config} {k l : List (Word × Word)}

theorem StoreRun.trans (h : StoreRun code exits a l b) (h' : StoreRun code exits b k c) :
    StoreRun code exits a (l ++ k) c := by
  induction h with
  | refl => exact h'
  | head hc hs _ ih =>
    rw [List.append_assoc]
    exact .head hc hs (ih h')

/-- **Runs are deterministic**: a run is the beginning of every run that comes to an end. -/
theorem StoreRun.rest (h : StoreRun code exits a l b) (h' : StoreRun code exits a k c)
    (hc : Stops code exits c) : ∃ r, k = l ++ r ∧ StoreRun code exits b r c := by
  induction h generalizing k with
  | refl => exact ⟨k, rfl, h'⟩
  | @head a d e l ha hs _ ih =>
    cases h' with
    | refl =>
      rcases hc with hx | hx
      · exact absurd hx ha
      · rw [hs] at hx
        cases hx
    | head _ hs' t =>
      obtain rfl := Option.some.inj (hs.symm.trans hs')
      obtain ⟨r, rfl, hr⟩ := ih t
      exact ⟨r, (List.append_assoc _ _ _).symm, hr⟩

theorem StoreRun.unique (h : StoreRun code exits a l b) (hb : Stops code exits b)
    (h' : StoreRun code exits a k c) (hc : Stops code exits c) : l = k := by
  obtain ⟨r, rfl, hr⟩ := h.rest h' hc
  cases hr with
  | refl => exact (List.append_nil l).symm
  | head hx hs _ =>
    rcases hb with hb | hb
    · exact absurd hb hx
    · rw [hb] at hs
      cases hs

theorem Stops.of_atRet (h : AtRet code c) : Stops code exits c := by
  refine .inr ?_
  unfold stepInsn
  rw [decodeInsn_of_decode h]

/-- **A run in the front part** of the code is the same, with the same stores, in all code that
starts so. -/
theorem exists_storeRun (h : Steps code a b) : ∃ l, ∀ tail exits, (∀ o ∈ exits, code.length ≤ o) →
    StoreRun (code ++ tail) exits a l b := by
  induction h using Relation.ReflTransGen.head_induction_on with
  | refl => exact ⟨[], fun tail exits _ => .refl b⟩
  | @head a d hs _ ih =>
    obtain ⟨l, hl⟩ := ih
    refine ⟨storedAt code a ++ l, fun tail exits hexits => ?_⟩
    obtain ⟨hs', hlt⟩ := step_append hs tail
    have hstored : storedAt (code ++ tail) a = storedAt code a := by
      unfold step at hs
      cases hd : decode (code.drop a.ip) with
      | none =>
        rw [hd] at hs
        cases hs
      | some p =>
        have hd' : decode ((code ++ tail).drop a.ip) = some p := by
          rw [List.drop_append_of_le_length (Nat.le_of_lt hlt)]
          exact reads_decode _ p hd tail
        rw [storedAt, storedAt, decodeInsn_of_decode hd, decodeInsn_of_decode hd']
    rw [← hstored]
    refine .head (fun hx => ?_) (stepInsn_of_step hs') (hl tail exits hexits)
    exact Nat.not_le_of_lt hlt (hexits _ hx)

/-- One instruction. -/
theorem StoreRun.single {i : Instr} {n : ℕ} (hi : i.straight = true) (hc : c.ip ∉ exits)
    (hd : decode (code.drop c.ip) = some (i, n)) :
    StoreRun code exits c (i.stored c.st) ⟨c.ip + n, exec i c.st⟩ := by
  have hs : stepInsn code c = some ⟨c.ip + n, exec i c.st⟩ := by
    refine stepInsn_of_step ?_
    unfold step
    rw [hd]
    cases i with
    | jcc | ret | int3 => cases hi
    | _ => rfl
  have hstored : storedAt code c = i.stored c.st := by
    rw [storedAt, decodeInsn_of_decode hd]
  have h := StoreRun.head hc hs (.refl _)
  rwa [hstored, List.append_nil] at h

end StoreRun

end X86
