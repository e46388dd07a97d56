import Bbarm64.Ir.BuilderFacts
import Bbarm64.Ir.Semantics

/-!
# Ir.FlagMerging — `IROptimizer::optimize` keeps the meaning of a block

The index loop of `flag_merging` is the structural recursion `merge`.  It clears the flags of an
instruction only when the next one writes them again, so no reader tells the two blocks apart.
-/

namespace Bbarm64

open X86 IRBuilder

namespace IROptimizer

/-! ## The loop as a recursion -/

/-- One round of the loop, on the instruction and what follows it. -/
def mergeHead (a : IRInst) : List IRInst → IRInst
  | [] => a
  | b :: rest =>
    if a.flags_set && b.flags_set && !flags_used_between (b :: rest) then
      { a with flags_set := false }
    else a

def merge : List IRInst → List IRInst
  | [] => []
  | a :: rest => mergeHead a rest :: merge rest

theorem flag_merging_step_append (pre : List IRInst) (a : IRInst) (rest : List IRInst) :
    flag_merging_step (pre ++ a :: rest) pre.length = pre ++ mergeHead a rest :: rest := by
  have h0 : (pre ++ a :: rest)[pre.length]? = some a := by simp
  have h1 : (pre ++ a :: rest)[pre.length + 1]? = rest[0]? := by
    rw [List.getElem?_append_right (by omega)]
    simp
  have hd : (pre ++ a :: rest).drop (pre.length + 1) = rest := by
    rw [← List.drop_drop]
    simp
  unfold flag_merging_step
  rw [h0, h1, hd]
  cases rest with
  | nil => rfl
  | cons b rest =>
    simp only [List.getElem?_cons_zero, mergeHead]
    split_ifs
    · simp
    · rfl

/-- The loop from index `pre.length` on leaves `pre` alone and merges the rest. -/
theorem foldl_flag_merging_step (pre suf : List IRInst) :
    (List.range' pre.length (suf.length - 1)).foldl flag_merging_step (pre ++ suf) =
      pre ++ merge suf := by
  induction suf generalizing pre with
  | nil => rfl
  | cons a rest ih =>
    cases rest with
    | nil => rfl
    | cons b rest =>
      have h := ih (pre ++ [mergeHead a (b :: rest)])
      simp only [List.length_append, List.length_cons, List.length_nil, Nat.zero_add,
        Nat.add_sub_cancel, List.append_assoc, List.cons_append, List.nil_append] at h
      simp only [List.length_cons, Nat.add_sub_cancel, List.range'_succ, List.foldl_cons,
        flag_merging_step_append]
      exact h

theorem optimize_instructions (block : IRBlock) :
    (optimize block).instructions = merge block.instructions := by
  have h := foldl_flag_merging_step [] block.instructions
  simpa [optimize, flag_merging, constant_propagation, dead_code_elimination,
    List.range_eq_range'] using h

/-! ## What changes -/

/-- The instruction without its `flags_set` field. -/
def clearFlags (ir : IRInst) : IRInst := { ir with flags_set := false }

theorem mergeHead_eq (a : IRInst) (rest : List IRInst) :
    mergeHead a rest = a ∨ mergeHead a rest = clearFlags a := by
  cases rest with
  | nil => exact .inl rfl
  | cons b rest =>
    simp only [mergeHead]
    split_ifs
    · exact .inr rfl
    · exact .inl rfl

theorem clearFlags_mergeHead (a : IRInst) (rest : List IRInst) :
    clearFlags (mergeHead a rest) = clearFlags a := by
  rcases mergeHead_eq a rest with h | h <;> rw [h]
  rfl

theorem merge_map_clearFlags (l : List IRInst) :
    (merge l).map clearFlags = l.map clearFlags := by
  induction l with
  | nil => rfl
  | cons a rest ih => simp [merge, ih, clearFlags_mergeHead]

theorem mem_merge {l : List IRInst} {ir : IRInst} (h : ir ∈ merge l) :
    ∃ a ∈ l, ir = a ∨ ir = clearFlags a := by
  induction l with
  | nil => simp [merge] at h
  | cons a rest ih =>
    rcases List.mem_cons.mp h with rfl | h
    · exact ⟨a, by simp, mergeHead_eq a rest⟩
    · obtain ⟨b, hb, he⟩ := ih h
      exact ⟨b, by simp [hb], he⟩

theorem clearFlags_goodIr {ir : IRInst} (h : GoodIr ir) : GoodIr (clearFlags ir) :=
  ⟨h.lowerable, h.dest, h.src1, h.src2, h.pair⟩

theorem merge_goodIr {l : List IRInst} (h : ∀ ir ∈ l, GoodIr ir) : ∀ ir ∈ merge l, GoodIr ir := by
  intro ir hir
  obtain ⟨a, ha, rfl | rfl⟩ := mem_merge hir
  · exact h _ ha
  · exact clearFlags_goodIr (h _ ha)

/-! ## The look-ahead -/

/-- The look-ahead starts at a writer, which is no reader: it stops at once. -/
theorem mergeHead_flags {a b : IRInst} {rest : List IRInst} (hb : FlagIr b) :
    mergeHead a (b :: rest) = if a.flags_set && b.flags_set then clearFlags a else a := by
  have key : b.flags_set = true → flags_used_between (b :: rest) = false := by
    intro hset
    have hop := hb.set hset
    have hused : b.flags_used = false := by
      rw [Bool.eq_false_iff]
      intro hu
      rw [hb.used.mp hu] at hop
      simp at hop
    simp [flags_used_between, hused, hset]
  simp only [mergeHead]
  cases hbs : b.flags_set with
  | false => simp
  | true => simp [key hbs, clearFlags]

theorem merge_idem {l : List IRInst} (h : ∀ ir ∈ l, FlagIr ir) : merge (merge l) = merge l := by
  induction l with
  | nil => rfl
  | cons a rest ih =>
    have ih' := ih fun ir hir => h ir (by simp [hir])
    rw [merge, merge, ih']
    congr 1
    cases rest with
    | nil => rfl
    | cons b rest =>
      have hb : FlagIr b := h b (by simp)
      have hb' : FlagIr (mergeHead b rest) := by
        rcases mergeHead_eq b rest with he | he <;> rw [he]
        · exact hb
        · exact ⟨nofun, hb.used⟩
      -- no round turns a writer on
      have hoff : b.flags_set = false → (mergeHead b rest).flags_set = false := by
        intro hset
        rcases mergeHead_eq b rest with he | he <;> rw [he]
        · exact hset
        · rfl
      rw [merge, mergeHead_flags hb, mergeHead_flags hb']
      cases hbs : b.flags_set with
      | false => simp [hoff hbs]
      | true => cases has : a.flags_set <;> simp [has, clearFlags]

/-! ## The meaning -/

/-- States that differ in the flags at most. -/
def SameButFlags (s t : IRState) : Prop := s.reg = t.reg ∧ s.mem = t.mem

section Meaning

variable (other : IRInst → IRState → IRState)

theorem setFlags_sameButFlags (s : IRState) (b : Bool) (f : A64.Nzcv) :
    SameButFlags (s.setFlags b f) s := by
  unfold IRState.setFlags
  split_ifs <;> exact ⟨rfl, rfl⟩

theorem setReg_sameButFlags {s t : IRState} (h : SameButFlags s t) (r : IRReg) (v : Word) :
    SameButFlags (s.setReg r v) (t.setReg r v) := by
  refine ⟨?_, h.2⟩
  simp only [IRState.setReg, h.1]

/-- A writer without its flag differs from the writer in the flags at most. -/
theorem exec_clearFlags {a : IRInst} (h : FlagIr a) (hset : a.flags_set = true) (s : IRState) :
    SameButFlags ((clearFlags a).exec other s) (a.exec other s) := by
  have hf : ∀ b b' f f', SameButFlags (s.setFlags b f) (s.setFlags b' f') := by
    intro b b' f f'
    obtain ⟨h1, h2⟩ := setFlags_sameButFlags s b f
    obtain ⟨h3, h4⟩ := setFlags_sameButFlags s b' f'
    exact ⟨h1.trans h3.symm, h2.trans h4.symm⟩
  rcases h.set hset with ho | ho | ho | ho
  · simp only [IRInst.exec, clearFlags, ho]
    exact setReg_sameButFlags (hf _ _ _ _) _ _
  · simp only [IRInst.exec, clearFlags, ho]
    exact setReg_sameButFlags (hf _ _ _ _) _ _
  · simp only [IRInst.exec, clearFlags, ho]
    exact hf _ _ _ _
  · simp only [IRInst.exec, clearFlags, ho]
    exact hf _ _ _ _

/-- A writer does not see the flags, and overwrites them. -/
theorem exec_writer {b : IRInst} (h : FlagIr b) (hset : b.flags_set = true) {s t : IRState}
    (hst : SameButFlags s t) : b.exec other s = b.exec other t := by
  obtain ⟨reg, nzcv, mem⟩ := s
  obtain ⟨reg', nzcv', mem'⟩ := t
  obtain ⟨rfl, rfl⟩ : reg = reg' ∧ mem = mem' := hst
  rcases h.set hset with ho | ho | ho | ho <;>
    simp [IRInst.exec, ho, hset, IRState.setFlags, IRState.operand, IRState.cmpOperand]

theorem exit?_writer {a : IRInst} (h : FlagIr a) (hset : a.flags_set = true) (s : IRState) :
    a.exit? s = none ∧ (clearFlags a).exit? s = none := by
  rcases h.set hset with ho | ho | ho | ho <;> simp [IRInst.exit?, clearFlags, ho]

/-- **Merging keeps the meaning**, by induction over the block: the cleared flags are overwritten by
the next instruction. -/
theorem execFrom_merge {l : List IRInst} (h : ∀ ir ∈ l, FlagIr ir) (s : IRState) :
    IRBlock.execFrom other (merge l) s = IRBlock.execFrom other l s := by
  induction l generalizing s with
  | nil => rfl
  | cons a rest ih =>
    have ih' := ih fun ir hir => h ir (by simp [hir])
    have ha : FlagIr a := h a (by simp)
    rw [merge]
    have hkeep : mergeHead a rest = a → IRBlock.execFrom other (mergeHead a rest :: merge rest) s =
        IRBlock.execFrom other (a :: rest) s := by
      intro he
      simp only [he, IRBlock.execFrom, ih']
    cases rest with
    | nil => exact hkeep rfl
    | cons b rest =>
      have hb : FlagIr b := h b (by simp)
      have hm : mergeHead a (b :: rest) = if a.flags_set && b.flags_set then clearFlags a else a :=
        mergeHead_flags hb
      by_cases hset : a.flags_set = true ∧ b.flags_set = true
      · obtain ⟨has, hbs⟩ := hset
        have hclear : mergeHead a (b :: rest) = clearFlags a := by simp [hm, has, hbs]
        have hx := exit?_writer ha has s
        have hxb := fun t => (exit?_writer hb hbs t).1
        have hsame := exec_writer other hb hbs (exec_clearFlags other ha has s)
        rw [hclear]
        simp only [IRBlock.execFrom, hx, ih', hxb, hsame]
      · refine hkeep ?_
        rw [hm, if_neg]
        simpa using hset

end Meaning

/-! ## The pass on built blocks -/

/-- The block without its `flags_set` fields. -/
def eraseFlags (block : IRBlock) : IRBlock :=
  { block with instructions := block.instructions.map clearFlags }

theorem eraseFlags_optimize (block : IRBlock) : eraseFlags (optimize block) = eraseFlags block := by
  have h : (optimize block).instructions.map clearFlags = block.instructions.map clearFlags := by
    rw [optimize_instructions, merge_map_clearFlags]
  unfold eraseFlags
  rw [h]
  rfl

theorem optimize_idem {block : IRBlock} (h : ∀ ir ∈ block.instructions, FlagIr ir) :
    optimize (optimize block) = optimize block := by
  have hi : (optimize (optimize block)).instructions = (optimize block).instructions := by
    simp only [optimize_instructions, merge_idem h]
  calc optimize (optimize block)
      = { optimize block with instructions := (optimize (optimize block)).instructions } := rfl
    _ = optimize block := by rw [hi]

/-- **The optimizer is correct** on every block `build` produces: it changes `flags_set` fields only,
the run from every state ends in the same state with the same exit, and a second pass changes
nothing. -/
theorem optimize_build (ds : List DecodedInstr) (start_pc : Word)
    (other : IRInst → IRState → IRState) :
    ∃ block, build ds start_pc = some block ∧ eraseFlags (optimize block) = eraseFlags block ∧
      (∀ s, (optimize block).exec other s = block.exec other s) ∧
      optimize (optimize block) = optimize block := by
  obtain ⟨block, hb, hi⟩ := build_spec ds start_pc
  have hf : ∀ ir ∈ block.instructions, FlagIr ir := by
    rw [hi]
    exact irFrom_flagIr
  refine ⟨block, hb, eraseFlags_optimize block, fun s => ?_, optimize_idem hf⟩
  unfold IRBlock.exec
  rw [optimize_instructions]
  exact execFrom_merge other hf s

end IROptimizer

end Bbarm64
