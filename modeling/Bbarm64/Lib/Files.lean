import Mathlib.Logic.Function.Basic
import Mathlib.Tactic.Common

/-!
# Lib.Files — files by name, written and read through handles

A handle has a name and a position, which reads and writes move.  Reads and writes complete: a read
gives what is asked for or all that is left.  Writes at the end of a file lay down their bytes one
behind the other (`write_put`), and reads take them off in the same way (`read_of_rest`).
-/

variable {N B : Type*}

/-- The contents of the files that exist. -/
abbrev Files (N B : Type*) := N → Option (List B)

structure Handle (N : Type*) where
  name : N
  pos : ℕ

namespace Files

/-! ## Writing -/

section Write

variable [DecidableEq N] (fs : Files N B)

def put (name : N) (content : List B) : Files N B := Function.update fs name (some content)

/-- Open for writing: the file exists then and is empty. -/
def create (name : N) : Handle N × Files N B := (⟨name, 0⟩, fs.put name [])

/-- The bytes from the position on are overwritten. -/
def write (h : Handle N) (bytes : List B) : Handle N × Files N B :=
  let content := (fs h.name).getD []
  (⟨h.name, h.pos + bytes.length⟩,
    fs.put h.name (content.take h.pos ++ bytes ++ content.drop (h.pos + bytes.length)))

@[simp] theorem put_same (name : N) (content : List B) : fs.put name content name = some content :=
  Function.update_self _ _ _

theorem put_of_ne {name name' : N} (h : name' ≠ name) (content : List B) :
    fs.put name content name' = fs name' := Function.update_of_ne h _ _

@[simp] theorem put_put (name : N) (content content' : List B) :
    (fs.put name content).put name content' = fs.put name content' := Function.update_idem _ _ _

/-- A write at the end of a file. -/
theorem write_put (name : N) (content bytes : List B) :
    (fs.put name content).write ⟨name, content.length⟩ bytes =
      (⟨name, (content ++ bytes).length⟩, fs.put name (content ++ bytes)) := by
  have hdrop : content.drop (content.length + bytes.length) = [] :=
    List.drop_eq_nil_of_le (Nat.le_add_right _ _)
  simp [write, hdrop]

end Write

/-! ## Reading -/

section Read

variable (fs : Files N B)

/-- Open for reading. -/
def openRead (name : N) : Option (Handle N) := (fs name).map fun _ => ⟨name, 0⟩

/-- What lies behind the position. -/
def rest (h : Handle N) : List B := ((fs h.name).getD []).drop h.pos

/-- At most `n` bytes. -/
def read (h : Handle N) (n : ℕ) : List B × Handle N :=
  let bytes := (fs.rest h).take n
  (bytes, ⟨h.name, h.pos + bytes.length⟩)

variable {fs}

theorem openRead_eq_none {name : N} (h : fs name = none) : fs.openRead name = none := by
  rw [openRead, h, Option.map_none]

theorem openRead_eq_some {name : N} {content : List B} (h : fs name = some content) :
    ∃ fd, fs.openRead name = some fd ∧ fs.rest fd = content := by
  refine ⟨⟨name, 0⟩, by rw [openRead, h, Option.map_some], ?_⟩
  rw [rest, h, Option.getD_some, List.drop_zero]

/-- A read takes what it gives, all of it or all that is left, off the rest. -/
theorem read_rest (h : Handle N) (n : ℕ) :
    ∃ h', fs.read h n = ((fs.rest h).take n, h') ∧ fs.rest h' = (fs.rest h).drop n := by
  refine ⟨⟨h.name, h.pos + ((fs.rest h).take n).length⟩, rfl, ?_⟩
  show ((fs h.name).getD []).drop (h.pos + ((fs.rest h).take n).length) = (fs.rest h).drop n
  rw [← List.drop_drop]
  show (fs.rest h).drop ((fs.rest h).take n).length = (fs.rest h).drop n
  rw [List.length_take]
  by_cases hn : n ≤ (fs.rest h).length
  · rw [Nat.min_eq_left hn]
  · have hlen : (fs.rest h).length ≤ n := Nat.le_of_not_le hn
    rw [Nat.min_eq_right hlen, List.drop_length, List.drop_eq_nil_of_le hlen]

/-- A read takes its bytes off what is left. -/
theorem read_of_rest {h : Handle N} {bytes tail : List B} {n : ℕ} (hr : fs.rest h = bytes ++ tail)
    (hn : bytes.length = n) : ∃ h', fs.read h n = (bytes, h') ∧ fs.rest h' = tail := by
  obtain ⟨h', hread, hrest⟩ := fs.read_rest h n
  rw [hr, ← hn, List.take_left] at hread
  rw [hr, ← hn, List.drop_left] at hrest
  exact ⟨h', hn ▸ hread, hrest⟩

end Read

end Files
