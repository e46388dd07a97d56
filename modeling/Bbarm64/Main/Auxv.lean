import Bbarm64.Main.ProcessStack

/-!
# Main.Auxv — what the guest reads from the auxiliary vector

`Visits` is the reading of a vector of pairs up to the first pair of type 0, and `VectorAt` gives the
pairs it finds.  `main` stores a pair of zeros, the place of the random bytes, below the pair of
`AT_RANDOM`, so that the reading from `x0` ends there, and `AT_RANDOM` is never found
(`vectorAt_main`).
-/

namespace Bbarm64

open X86

namespace Main

open MemoryManager (MapOp Runs)

/-! ## Vectors of pairs -/

/-- Reading pairs from `a` on, up to the first one of type 0, comes to the pair `e`. -/
inductive Visits (m : Mem) : Word → Word × Word → Prop where
  | here {a : Word} (h : read64 m a ≠ 0#64) : Visits m a (read64 m a, read64 m (off a 8))
  | next {a : Word} {e : Word × Word} (h : read64 m a ≠ 0#64) (he : Visits m (off a 16) e) :
    Visits m a e

/-- The byte `b` is in the vector at `a`, the pair of type 0 included. -/
inductive InVector (m : Mem) : Word → Word → Prop where
  | here {a b : Word} (h : (b - a).toNat < 16) : InVector m a b
  | next {a b : Word} (h : read64 m a ≠ 0#64) (hb : InVector m (off a 16) b) : InVector m a b

/-- The pairs of the vector at `a`. -/
def VectorAt (m : Mem) (a : Word) : List (Word × Word) → Prop
  | [] => read64 m a = 0#64
  | e :: l => e.1 ≠ 0#64 ∧ read64 m a = e.1 ∧ read64 m (off a 8) = e.2 ∧ VectorAt m (off a 16) l

/-- **Reading a vector** comes to its pairs and to no others. -/
theorem visits_iff {m : Mem} {a : Word} {l : List (Word × Word)} (h : VectorAt m a l)
    {e : Word × Word} : Visits m a e ↔ e ∈ l := by
  induction l generalizing a with
  | nil =>
    refine iff_of_false (fun hv => ?_) List.not_mem_nil
    cases hv with
    | here hne => exact hne h
    | next hne _ => exact hne h
  | cons p l ih =>
    obtain ⟨hp, htype, hval, hl⟩ := h
    have hne : read64 m a ≠ 0#64 := by
      rw [htype]
      exact hp
    have hhere : (read64 m a, read64 m (off a 8)) = p := Prod.ext htype hval
    rw [List.mem_cons, ← ih hl]
    constructor
    · intro hv
      cases hv with
      | here _ => exact .inl hhere
      | next _ he => exact .inr he
    · rintro (rfl | he)
      · rw [← hhere]
        exact .here hne
      · exact .next hne he

/-- The pair of type 0 is in the vector. -/
theorem inVector_end {m : Mem} {a : Word} {l : List (Word × Word)} (h : VectorAt m a l) :
    InVector m a (off a (16 * l.length)) := by
  induction l generalizing a with
  | nil =>
    refine .here ?_
    rw [off_sub_self (by decide)]
    decide
  | cons p l ih =>
    obtain ⟨hp, htype, -, hl⟩ := h
    have hnext : off (off a 16) (16 * l.length) = off a (16 * (p :: l).length) := by
      rw [off_off, List.length_cons]
      congr 1
      omega
    refine .next ?_ ?_
    · rw [htype]
      exact hp
    · rw [← hnext]
      exact ih hl

/-! ## The vector of `main` -/

/-- The pushes hold the pair `e`. -/
def Pushed (pushes : List Push) (e : Word × Word) : Prop :=
  ∃ a, .u64 a e.1 ∈ pushes ∧ (.u64 (a + 8#64) e.2 ∈ pushes ∨ .ptr (a + 8#64) e.2 ∈ pushes)

/-- AT_PHDR, AT_PHNUM, AT_PAGESZ, AT_ENTRY, AT_HWCAP, AT_SECURE, AT_RANDOM, AT_EXECFN -/
def aux_types : List Word := [3#64, 5#64, 6#64, 9#64, 16#64, 23#64, 25#64, 31#64]

/-- The vector at `auxv` has the pushed pairs, and AT_RANDOM is the address of 16 bytes that are not
in it. -/
structure AuxVector (m : Mem) (auxv : Word) (pushes : List Push) : Prop where
  visits : ∀ e, e.1 ∈ aux_types → Pushed pushes e → Visits m auxv e
  random : ∀ val, Pushed pushes (25#64, val) → ∀ i < 16, ¬ InVector m auxv (off val i)

section Layout

variable {c : Word} {elf_info : ELFInfo} {tls_block_addr : Word} {argv1 : CString}

/-- The pairs from the lowest one up to the place of the random bytes. -/
def aux_pairs (c : Word) (elf_info : ELFInfo) (tls_block_addr : Word) : List (Word × Word) :=
  (if tls_block_addr ≠ 0#64 then [(23#64, tls_block_addr)] else []) ++
    [(31#64, off c 32), (23#64, 0#64), (6#64, 4096#64), (16#64, 0xFFF#64),
      (9#64, elf_info.entry_point), (3#64, elf_info.base_addr + elf_info.phdr_offset),
      (5#64, elf_info.phnum.setWidth 64)]

/-- No later push goes to a pair. -/
theorem slots_pairs (tls_block_addr : Word) : (slots tls_block_addr 64).Pairwise
    fun s t => auxv_off tls_block_addr ≤ s.1 → Apart s t := by
  unfold slots auxv_off
  by_cases htls : tls_block_addr ≠ 0#64
  · simp only [if_pos htls]
    decide
  · simp only [if_neg htls]
    decide

theorem slots_end (tls_block_addr : Word) : ∀ s ∈ slots tls_block_addr 64, s.1 + s.2 ≤ 256 := by
  rcases slots_eq tls_block_addr 64 with h | h
  · rw [h]
    decide
  · rw [h]
    decide

/-- A push to the vector is there in the end. -/
theorem stored_of_mem {p : Push} (hp : p ∈ (layout c elf_info tls_block_addr argv1).pushes) {o : ℕ}
    (haddr : p.addr = off c o) (ho : auxv_off tls_block_addr ≤ o) (hlt : o < 256) (host : Mem) :
    p.StoredIn ((layout c elf_info tls_block_addr argv1).pushes.foldl Push.store host) := by
  have hslots : List.Forall₂ (Push.In c) (slots tls_block_addr 64)
      (layout c elf_info tls_block_addr argv1).pushes := layout_in (List.length_take_le _ _)
  have hpair := List.pairwise_iff_getElem.mp (slots_pairs tls_block_addr)
  have hend := slots_end tls_block_addr
  generalize (layout c elf_info tls_block_addr argv1).pushes = pushes at *
  generalize slots tls_block_addr 64 = ss at *
  obtain ⟨hlen, hin⟩ := List.forall₂_iff_get.mp hslots
  obtain ⟨i, hi, rfl⟩ := List.getElem_of_mem hp
  have hi' : i < ss.length := hlen ▸ hi
  have hslot : Push.In c ss[i] pushes[i] := hin i hi' hi
  have hso : ss[i].1 = o := by
    have hs := hend _ (List.getElem_mem hi')
    have hoff : off c ss[i].1 - c = off c o - c := by rw [← hslot.addr, haddr]
    have hdist := congrArg BitVec.toNat hoff
    rwa [off_sub_self (by omega), off_sub_self (by omega)] at hdist
  -- what is pushed later goes elsewhere
  refine Push.storedIn_getElem hi (fun j hj hij => ?_) host
  have hj' : j < ss.length := hlen ▸ hj
  exact disjoint_of_apart hslot (hin j hj' hj) (hend _ (List.getElem_mem hi'))
    (hend _ (List.getElem_mem hj')) (hpair i j hi' hj' hij (by rw [hso]; exact ho))

/-- The vector behind the pushes. -/
theorem vectorAt_layout (host : Mem) : VectorAt
    ((layout c elf_info tls_block_addr argv1).pushes.foldl Push.store host)
    (layout c elf_info tls_block_addr argv1).auxv_start (aux_pairs c elf_info tls_block_addr) := by
  have hstored := @stored_of_mem c elf_info tls_block_addr argv1
  have hmem : ∀ {p : Push}, p ∈ auxv_pushes c elf_info argv1 ++ tls_pushes c tls_block_addr →
      p ∈ (layout c elf_info tls_block_addr argv1).pushes := List.mem_append_left _
  generalize hm : (layout c elf_info tls_block_addr argv1).pushes.foldl Push.store host = m
  have hu : ∀ {o : ℕ} {val : Word},
      .u64 (off c o) val ∈ auxv_pushes c elf_info argv1 ++ tls_pushes c tls_block_addr →
      auxv_off tls_block_addr ≤ o → o < 256 → read64 m (off c o) = val := by
    intro o val hp ho hlt
    rw [← hm]
    exact Push.read64_of_u64 (hstored (hmem hp) rfl ho hlt host)
  have hp : ∀ {o : ℕ} {val : Word},
      .ptr (off c o) val ∈ auxv_pushes c elf_info argv1 ++ tls_pushes c tls_block_addr →
      auxv_off tls_block_addr ≤ o → o < 256 → read64 m (off c o) = val := by
    intro o val hp ho hlt
    rw [← hm]
    exact Push.read64_of_ptr (hstored (hmem hp) rfl ho hlt host)
  have ho : auxv_off tls_block_addr ≤ 96 := by
    unfold auxv_off
    split_ifs <;> decide
  -- the pairs that are there with and without a TLS block
  have hpairs : VectorAt m (off c 96) [(31#64, off c 32), (23#64, 0#64), (6#64, 4096#64),
      (16#64, 0xFFF#64), (9#64, elf_info.entry_point),
      (3#64, elf_info.base_addr + elf_info.phdr_offset), (5#64, elf_info.phnum.setWidth 64)] := by
    simp only [VectorAt, off_off, Nat.reduceAdd]
    refine ⟨by decide, hu ?_ ho ?_, hp ?_ ?_ ?_, by decide, hu ?_ ?_ ?_, hu ?_ ?_ ?_, by decide,
      hu ?_ ?_ ?_, hu ?_ ?_ ?_, by decide, hu ?_ ?_ ?_, hu ?_ ?_ ?_, by decide, hu ?_ ?_ ?_,
      hp ?_ ?_ ?_, by decide, hu ?_ ?_ ?_, hp ?_ ?_ ?_, by decide, hu ?_ ?_ ?_, hu ?_ ?_ ?_,
      hu ?_ ?_ ?_⟩
    all_goals first
      | omega
      | simp [auxv_pushes]
  by_cases htls : tls_block_addr ≠ 0#64
  · have hoff : auxv_off tls_block_addr = 80 := if_pos htls
    have htype : read64 m (off c 80) = 23#64 := hu (by simp [tls_pushes, htls]) (by omega) (by omega)
    have hval : read64 m (off c 88) = tls_block_addr :=
      hp (by simp [tls_pushes, htls]) (by omega) (by omega)
    rw [aux_pairs, if_pos htls, layout, hoff]
    refine ⟨?_, htype, ?_, ?_⟩
    · show (23#64 : Word) ≠ 0#64
      decide
    · rw [off_off]
      exact hval
    · rw [off_off]
      exact hpairs
  · have hoff : auxv_off tls_block_addr = 96 := if_neg htls
    rw [aux_pairs, if_neg htls, layout, hoff]
    exact hpairs

theorem pushed_random : Pushed (layout c elf_info tls_block_addr argv1).pushes
    (25#64, off c 208) := by
  refine ⟨off c 224, ?_, .inr ?_⟩
  · simp [layout, auxv_pushes]
  · rw [off_add]
    simp [layout, auxv_pushes]

theorem random_notMem (val : Word) : (25#64, val) ∉ aux_pairs c elf_info tls_block_addr := by
  unfold aux_pairs
  split_ifs <;> simp

end Layout

/-! ## `main` -/

section Run

variable {host_ok : Word → Word → BitVec 32 → Bool} {m : MemoryManager} {elf_info : ELFInfo}
  {tls_block_addr : Word} {argv1 : CString} {host : Mem} {base total_size : Word}
  {es : List (MemoryManager × MapOp)}
  (h : Runs host base total_size es m) (hes : ∀ e ∈ es, AtPages e.2) (hhost : HostPages host_ok)
  {ctx : CPUContext} {argv0 : CString} {rest : List CString} {entry : GuestEntry}
  (hentry : main host_ok ctx m elf_info tls_block_addr (argv0 :: argv1 :: rest) = some entry)

include hhost hentry in
/-- The register that holds the vector. -/
theorem main_x0 : entry.ctx.x 0 =
    (layout (stack_low m.mmap_base_) elf_info tls_block_addr argv1).auxv_start := by
  rw [main] at hentry
  dsimp only at hentry
  by_cases h0 : (m.mmap host_ok stack_size (PROT_READ ||| PROT_WRITE) 0#64).1 = 0#64
  · rw [if_pos h0] at hentry
    cases hentry
  · obtain ⟨hok, hmmap⟩ := mmap_stack h0
    rw [if_neg h0, hmmap, guest_stack_eq (hhost _ _ _ hok).1] at hentry
    generalize layout (stack_low m.mmap_base_) elf_info tls_block_addr argv1 = stack at *
    obtain rfl := Option.some.inj hentry
    rfl

include h hes hhost hentry

/-- **The vector at entry**: the pairs below the place of the random bytes, or none where the pushes
were refused. -/
theorem vectorAt_main : VectorAt entry.mem.host (entry.ctx.x 0)
    (if stack_writable m.regions_ m.mmap_base_ then
      aux_pairs (stack_low m.mmap_base_) elf_info tls_block_addr
    else []) := by
  rw [main_host h hes hhost hentry, main_x0 hhost hentry]
  split_ifs
  · exact vectorAt_layout _
  · -- the memory is as it was mapped
    have hsize : stack_size.toNat = 0x200000 := by decide
    have ho : auxv_off tls_block_addr ≤ 96 := by
      unfold auxv_off
      split_ifs <;> decide
    have hstart : (layout (stack_low m.mmap_base_) elf_info tls_block_addr argv1).auxv_start =
        off (off m.mmap_base_ 0x1FFF00) (auxv_off tls_block_addr) := rfl
    have hzero : word (fresh_stack m) (off m.mmap_base_ 0x1FFF00) (auxv_off tls_block_addr) = 0#64 :=
      word_fill_zero (by omega) (by omega)
    rw [hstart]
    exact hzero

/-- The reading does not come to `AT_RANDOM`. -/
theorem not_visits_random (val : Word) :
    ¬ Visits entry.mem.host (entry.ctx.x 0) (25#64, val) := by
  rw [visits_iff (vectorAt_main h hes hhost hentry)]
  split_ifs
  · exact random_notMem val
  · exact List.not_mem_nil

/-- **The auxiliary vector of `main`** never has all its pairs. -/
theorem not_auxVector : ¬ AuxVector entry.mem.host (entry.ctx.x 0) entry.pushes := by
  intro hv
  obtain ⟨-, -, hpushes, -⟩ := main_eq_some hhost hentry
  have hpushed : Pushed entry.pushes (25#64, off (stack_low m.mmap_base_) 208) := by
    rw [hpushes]
    exact pushed_random
  exact not_visits_random h hes hhost hentry _ (hv.visits _ (by simp [aux_types]) hpushed)

end Run

/-- With a TLS block. -/
theorem not_auxVector_tls : ∃ entry, main MemoryManager.maps_user .zero MemoryManager.fresh static_elf
    0x2000#64 [a_out, a_out] = some entry ∧
      ¬ AuxVector entry.mem.host (entry.ctx.x 0) entry.pushes := by
  have hsome : ∃ entry, main MemoryManager.maps_user .zero MemoryManager.fresh static_elf
      0x2000#64 [a_out, a_out] = some entry := ⟨_, rfl⟩
  obtain ⟨entry, hentry⟩ := hsome
  exact ⟨entry, hentry, not_auxVector MemoryManager.runs_fresh (List.forall_mem_nil _) hostPages_user
    hentry⟩

/-- Without a TLS block the place of the random bytes is the pair that ends the vector. -/
theorem random_unread : ∃ entry, fresh_main [a_out, a_out] = some entry ∧
    ¬ AuxVector entry.mem.host (entry.ctx.x 0) entry.pushes ∧
      ∃ val, Pushed entry.pushes (25#64, val) ∧
        ¬ Visits entry.mem.host (entry.ctx.x 0) (25#64, val) ∧
          InVector entry.mem.host (entry.ctx.x 0) val := by
  obtain ⟨entry, hentry⟩ := fresh_main_some a_out a_out []
  obtain ⟨-, -, hpushes, -⟩ := main_eq_some hostPages_user hentry
  have hes : ∀ e ∈ ([] : List (MemoryManager × MapOp)), AtPages e.2 := List.forall_mem_nil _
  have hvector := vectorAt_main MemoryManager.runs_fresh hes hostPages_user hentry
  have hwritable : stack_writable MemoryManager.fresh.regions_ MemoryManager.fresh.mmap_base_ =
      true := by decide
  have hpushed : Pushed entry.pushes (25#64, off (stack_low MemoryManager.fresh.mmap_base_) 208) := by
    rw [hpushes]
    exact pushed_random
  have hnot := not_visits_random MemoryManager.runs_fresh hes hostPages_user hentry
    (off (stack_low MemoryManager.fresh.mmap_base_) 208)
  refine ⟨entry, hentry, fun hv => ?_, _, hpushed, hnot, ?_⟩
  · exact hnot (hv.visits _ (by simp [aux_types]) hpushed)
  · rw [if_pos hwritable] at hvector
    have hin := inVector_end hvector
    rw [main_x0 hostPages_user hentry] at hin ⊢
    rw [layout, off_off] at hin
    exact hin

end Main

end Bbarm64
