import Bbarm64.Main.Pushes

/-!
# Main.ProcessStack — what the guest finds at its stack pointer

All pushes of `main` go to the top 256 bytes of the stack, at fixed offsets (`guest_stack_eq`).  The
copy of the path that `AT_EXECFN` points to has 16 bytes before the argument count, with a TLS block,
or the copy for `argv[0]`, without one, runs into it.
-/

namespace Bbarm64

open X86

namespace Main

open MemoryManager (check_perms_in OnPages MapOp Runs page_region)

/-! ## The layout -/

/-- Alignment keeps a multiple of 16. -/
theorem and_align {v : Word} (h : 16 ∣ v.toNat) : v &&& ~~~0xF#64 = v := by
  have hlow : v &&& 0xF#64 = 0#64 := by
    apply BitVec.eq_of_toNat_eq
    have hmask : v.toNat &&& 15 = v.toNat % 16 := Nat.and_two_pow_sub_one_eq_mod v.toNat 4
    rw [BitVec.toNat_and]
    exact hmask.trans (Nat.mod_eq_zero_of_dvd h)
  ext i hi
  have hi := congrArg (·[i]) hlow
  simp only [BitVec.getElem_and, BitVec.getElem_not, BitVec.getElem_zero] at hi ⊢
  cases hm : (0xF#64)[i]
  · rw [Bool.not_false, Bool.and_true]
  · rw [hm, Bool.and_true] at hi
    rw [hi, Bool.false_and]

/-- 256 bytes below the top of the stack. -/
def stack_low (stack_base : Word) : Word := stack_base + 0x1FFF00#64

section Layout

variable (c : Word) (elf_info : ELFInfo) (tls_block_addr : Word) (argv1 : CString)

/-- The offset of the auxiliary vector. -/
def auxv_off : ℕ := if tls_block_addr ≠ 0#64 then 80 else 96

/-- The pushes of the auxiliary vector. -/
def auxv_pushes : List Push :=
  [.u64 (off c 240) 0#64, .u64 (off c 248) 0#64, .u64 (off c 224) 25#64, .ptr (off c 232) (off c 208),
    .u64 (off c 208) 0#64, .u64 (off c 216) 0#64, .u64 (off c 192) 5#64,
    .u64 (off c 200) (elf_info.phnum.setWidth 64), .u64 (off c 176) 3#64,
    .ptr (off c 184) (elf_info.base_addr + elf_info.phdr_offset), .u64 (off c 160) 9#64,
    .ptr (off c 168) elf_info.entry_point, .u64 (off c 144) 16#64, .u64 (off c 152) 0xFFF#64,
    .u64 (off c 128) 6#64, .u64 (off c 136) 4096#64, .u64 (off c 112) 23#64, .u64 (off c 120) 0#64,
    .u64 (off c 96) 31#64, .str (off c 32) argv1, .ptr (off c 104) (off c 32)]

/-- The pair of the TLS block. -/
def tls_pushes : List Push :=
  if tls_block_addr ≠ 0#64 then [.u64 (off c 80) 23#64, .ptr (off c 88) tls_block_addr] else []

/-- The pushes of the environment, the arguments and their number, below the auxiliary vector at
`o`. -/
def argv_pushes (o : ℕ) : List Push :=
  [.ptr (off c (o - 8)) 0#64, .ptr (off c (o - 16)) 0#64, .str (off c (o - 80)) argv1,
    .ptr (off c (o - 24)) (off c (o - 80)), .u64 (off c (o - 32)) 1#64]

def layout : GuestStack where
  pushes := auxv_pushes c elf_info argv1 ++ tls_pushes c tls_block_addr ++
    argv_pushes c argv1 (auxv_off tls_block_addr)
  auxv_start := off c (auxv_off tls_block_addr)
  sp := off c (auxv_off tls_block_addr - 32)

end Layout

theorem guest_stack_eq {stack_base : Word} (hbase : 4096 ∣ stack_base.toNat)
    (elf_info : ELFInfo) (tls_block_addr : Word) (argv1 : CString) :
    guest_stack stack_base elf_info tls_block_addr argv1 =
      layout (stack_low stack_base) elf_info tls_block_addr argv1 := by
  have htop : stack_base + stack_size = off (stack_low stack_base) 256 := by
    rw [stack_low, off, BitVec.add_assoc]
    rfl
  have halign : ∀ o, 16 ∣ o →
      off (stack_low stack_base) o &&& ~~~0xF#64 = off (stack_low stack_base) o := by
    intro o ho
    refine and_align ?_
    rw [off, stack_low, BitVec.toNat_add, BitVec.toNat_add, BitVec.toNat_ofNat, BitVec.toNat_ofNat]
    omega
  unfold guest_stack layout auxv_pushes tls_pushes argv_pushes auxv_off
  rw [htop]
  dsimp only
  rw [halign 256 (by decide)]
  generalize stack_low stack_base = c at *
  by_cases htls : tls_block_addr ≠ 0#64
  · rw [if_pos htls, if_pos htls, if_pos htls]
    simp (disch := decide) only [off_sub, off_add, Nat.reduceSub, Nat.reduceAdd, halign,
      List.cons_append, List.nil_append]
  · rw [if_neg htls, if_neg htls, if_neg htls]
    simp (disch := decide) only [off_sub, off_add, Nat.reduceSub, Nat.reduceAdd, halign,
      List.cons_append, List.nil_append]

/-! ## Slots -/

section Slots

variable {c : Word} {elf_info : ELFInfo} {tls_block_addr : Word} {argv1 : CString}

/-- The offsets and sizes of the pushes, with `n` bytes for the strings. -/
def slots (tls_block_addr : Word) (n : ℕ) : List (ℕ × ℕ) :=
  let o := auxv_off tls_block_addr
  [(240, 8), (248, 8), (224, 8), (232, 8), (208, 8), (216, 8), (192, 8), (200, 8), (176, 8), (184, 8),
      (160, 8), (168, 8), (144, 8), (152, 8), (128, 8), (136, 8), (112, 8), (120, 8), (96, 8), (32, n),
      (104, 8)] ++
    (if tls_block_addr ≠ 0#64 then [(80, 8), (88, 8)] else []) ++
    [(o - 8, 8), (o - 16, 8), (o - 80, n), (o - 24, 8), (o - 32, 8)]

/-- There are two layouts, without and with a TLS block. -/
theorem slots_eq (tls_block_addr : Word) (n : ℕ) :
    slots tls_block_addr n = slots 0#64 n ∨ slots tls_block_addr n = slots 1#64 n := by
  unfold slots auxv_off
  by_cases htls : tls_block_addr = 0#64
  · rw [htls]
    exact .inl rfl
  · rw [if_pos htls, if_pos htls]
    exact .inr rfl

theorem layout_in {n : ℕ} (hn : (copied argv1).length ≤ n) : List.Forall₂ (Push.In c)
    (slots tls_block_addr n) (layout c elf_info tls_block_addr argv1).pushes := by
  have hword : ∀ o val, Push.In c (o, 8) (.u64 (off c o) val) := fun _ _ => ⟨rfl, Nat.le_refl 8⟩
  have hptr : ∀ o val, Push.In c (o, 8) (.ptr (off c o) val) := fun _ _ => ⟨rfl, Nat.le_refl 8⟩
  have hstr : ∀ o, Push.In c (o, n) (.str (off c o) argv1) := fun _ => ⟨rfl, hn⟩
  unfold slots layout auxv_pushes tls_pushes argv_pushes
  by_cases htls : tls_block_addr ≠ 0#64
  · simp [htls, hword, hptr, hstr]
  · simp [htls, hword, hptr, hstr]

/-- Every push is one of the top 256 bytes. -/
theorem layout_mem {p : Push} (hp : p ∈ (layout c elf_info tls_block_addr argv1).pushes) :
    ∃ o, p.addr = off c o ∧ o + p.bytes.length ≤ 256 := by
  have hcopied : (copied argv1).length ≤ 64 := List.length_take_le _ _
  have hend : ∀ s ∈ slots tls_block_addr 64, s.1 + s.2 ≤ 256 := by
    rcases slots_eq tls_block_addr 64 with h | h
    · rw [h]
      decide
    · rw [h]
      decide
  have hslots : List.Forall₂ (Push.In c) (slots tls_block_addr 64)
      (layout c elf_info tls_block_addr argv1).pushes := layout_in hcopied
  obtain ⟨hlen, hin⟩ := List.forall₂_iff_get.mp hslots
  obtain ⟨i, hi, rfl⟩ := List.getElem_of_mem hp
  have hi' : i < (slots tls_block_addr 64).length := hlen ▸ hi
  have hslot := hin i hi' hi
  have hs := hend _ (List.getElem_mem hi')
  exact ⟨_, hslot.addr, Nat.le_trans (Nat.add_le_add_left hslot.size _) hs⟩

/-- With a short path no two pushes meet. -/
theorem layout_disjoint (hs : argv1.val.length ≤ 15) :
    (layout c elf_info tls_block_addr argv1).pushes.Pairwise fun p q => Disjoint p.dom q.dom := by
  have hcopied : (copied argv1).length ≤ 16 := by
    rw [copied, List.length_take, List.length_append, List.length_singleton]
    omega
  have hslots : (slots tls_block_addr 16).Pairwise Apart ∧
      ∀ s ∈ slots tls_block_addr 16, s.1 + s.2 ≤ 256 := by
    rcases slots_eq tls_block_addr 16 with h | h
    · rw [h]
      decide
    · rw [h]
      decide
  exact pairwise_of_slots (layout_in hcopied) hslots.1 hslots.2

theorem Push.mem_dom_off {p : Push} {o i : ℕ} (haddr : p.addr = off c o) (hi : i < p.bytes.length) :
    off c (o + i) ∈ p.dom := by
  rw [← off_off, ← haddr]
  exact mem_dom hi

theorem noOverwrite_of_disjoint {pushes : List Push}
    (h : pushes.Pairwise fun p q => Disjoint p.dom q.dom) : NoOverwrite pushes := by
  refine h.imp ?_
  intro p q hpq _
  exact hpq

/-- With a long path the argument string or the argument count goes over the program's name. -/
theorem length_le_of_noOverwrite
    (h : NoOverwrite (layout c elf_info tls_block_addr argv1).pushes) : argv1.val.length ≤ 15 := by
  by_contra hlong
  have hcopied : 16 < (copied argv1).length := by
    rw [copied, List.length_take, List.length_append, List.length_singleton]
    omega
  -- 16 bytes into a copy
  have hmem : ∀ o, off c (o + 16) ∈ (Push.str (off c o) argv1).dom :=
    fun o => Push.mem_dom_off rfl hcopied
  rw [NoOverwrite, layout, List.pairwise_iff_getElem] at h
  unfold auxv_pushes tls_pushes argv_pushes auxv_off at h
  by_cases htls : tls_block_addr ≠ 0#64
  · simp only [if_pos htls] at h
    have hdisjoint : Disjoint (Push.str (off c 32) argv1).dom (Push.u64 (off c 48) 1#64).dom :=
      h 19 27 (by simp) (by simp) (by decide) trivial
    have hargc : off c (48 + 0) ∈ (Push.u64 (off c 48) 1#64).dom :=
      Push.mem_dom_off rfl (Nat.zero_lt_succ 7)
    exact Set.disjoint_left.mp hdisjoint (hmem 32) hargc
  · simp only [if_neg htls] at h
    have hdisjoint : Disjoint (Push.str (off c 32) argv1).dom (Push.str (off c 16) argv1).dom :=
      h 19 23 (by simp) (by simp) (by decide) trivial
    have hfirst : off c (32 + 0) ∈ (Push.str (off c 32) argv1).dom :=
      Push.mem_dom_off rfl (Push.bytes_length_pos _)
    exact Set.disjoint_left.mp hdisjoint hfirst (hmem 16)

end Slots

/-! ## The stack at entry -/

section Entry

variable {c : Word} {elf_info : ELFInfo} {tls_block_addr : Word} {argv1 : CString}

/-- The argument count comes last. -/
theorem argc_eq (host : Mem) : word ((layout c elf_info tls_block_addr argv1).pushes.foldl Push.store
    host) (layout c elf_info tls_block_addr argv1).sp 0 = 1#64 := by
  have hlast : (layout c elf_info tls_block_addr argv1).pushes.getLast? =
      some (.u64 (off c (auxv_off tls_block_addr - 32)) 1#64) := by
    simp [layout, argv_pushes]
  obtain ⟨pushes, hpushes⟩ := List.getLast?_eq_some_iff.mp hlast
  rw [hpushes, layout, word_off, Nat.add_zero]
  exact Push.read64_of_u64 (Push.storedIn_last pushes _ host)

/-- The auxiliary vector names the program. -/
theorem auxEntry_of_stored {m : Mem}
    (h : ∀ p ∈ (layout c elf_info tls_block_addr argv1).pushes, p.StoredIn m) :
    AuxEntry m (off c (auxv_off tls_block_addr)) 31#64 (off c 32) := by
  have htype : read64 m (off c 96) = 31#64 :=
    Push.read64_of_u64 (h _ (by simp [layout, auxv_pushes]))
  have hval : read64 m (off c 104) = off c 32 :=
    Push.read64_of_ptr (h _ (by simp [layout, auxv_pushes]))
  by_cases htls : tls_block_addr ≠ 0#64
  · -- behind the pair of the TLS block
    have hpair : read64 m (off c 80) = 23#64 :=
      Push.read64_of_u64 (h _ (by simp [layout, tls_pushes, htls]))
    rw [auxv_off, if_pos htls]
    refine ⟨1, fun i hi => ?_, ?_, ?_⟩
    · obtain rfl := Nat.lt_one_iff.mp hi
      rw [word_off, hpair]
      decide
    · rw [word_off, htype]
    · rw [word_off, hval]
  · rw [auxv_off, if_neg htls]
    refine ⟨0, nofun, ?_, ?_⟩
    · rw [word_off, htype]
    · rw [word_off, hval]

theorem processStack_of_stored {m : Mem} (hs : argv1.val.length < 64)
    (h : ∀ p ∈ (layout c elf_info tls_block_addr argv1).pushes, p.StoredIn m) :
    ProcessStack m (layout c elf_info tls_block_addr argv1).sp [argv1] argv1 := by
  have hmem : ∀ p ∈ argv_pushes c argv1 (auxv_off tls_block_addr), p.StoredIn m :=
    fun p hp => h p (List.mem_append_right _ hp)
  have hexecfn : (Push.str (off c 32) argv1).StoredIn m := h _ (by simp [layout, auxv_pushes])
  have haux := auxEntry_of_stored h
  have ho : 80 ≤ auxv_off tls_block_addr := by
    unfold auxv_off
    split_ifs <;> decide
  unfold layout
  dsimp only
  generalize auxv_off tls_block_addr = o at *
  have hargc : read64 m (off c (o - 32)) = 1#64 :=
    Push.read64_of_u64 (hmem _ (by simp [argv_pushes]))
  have hargv0 : read64 m (off c (o - 24)) = off c (o - 80) :=
    Push.read64_of_ptr (hmem _ (by simp [argv_pushes]))
  have hargv : read64 m (off c (o - 16)) = 0#64 :=
    Push.read64_of_ptr (hmem _ (by simp [argv_pushes]))
  have henvp : read64 m (off c (o - 8)) = 0#64 :=
    Push.read64_of_ptr (hmem _ (by simp [argv_pushes]))
  -- the word at `i` above the stack pointer
  have hword : ∀ {i j : ℕ}, o - 32 + i = o - j →
      word m (off c (o - 32)) i = read64 m (off c (o - j)) := fun hij => by rw [word_off, hij]
  constructor
  · rw [hword (j := 32) (by omega), hargc]
    rfl
  · intro i hi
    obtain rfl := Nat.lt_one_iff.mp hi
    rw [hword (j := 24) (by omega), hargv0]
    exact Push.copyAt_of_storedIn hs (hmem _ (by simp [argv_pushes]))
  · rw [List.length_singleton, hword (j := 16) (by omega), hargv]
  · rw [List.length_singleton, hword (j := 8) (by omega), henvp]
  · refine ⟨off c 32, ?_, Push.copyAt_of_storedIn hs hexecfn⟩
    have hoff : off (off c (o - 32)) (8 * ([argv1].length + 3)) = off c o := by
      rw [off_off, List.length_singleton]
      congr 1
      omega
    rw [hoff]
    exact haux

/-! ## `main` -/

variable {host_ok : Word → Word → BitVec 32 → Bool} {m : MemoryManager}

/-- The mapping of the stack. -/
theorem mmap_stack (h : (m.mmap host_ok stack_size (PROT_READ ||| PROT_WRITE) 0#64).1 ≠ 0#64) :
    host_ok m.mmap_base_ stack_size (PROT_READ ||| PROT_WRITE) = true ∧
      m.mmap host_ok stack_size (PROT_READ ||| PROT_WRITE) 0#64 = (m.mmap_base_,
        { m with
          mmap_base_ := m.mmap_base_ + stack_size
          host := fill m.host m.mmap_base_ stack_size.toNat fun _ => 0#8
          regions_ := m.regions_ ++
            [{ addr := m.mmap_base_, size := stack_size, perms := PROT_READ ||| PROT_WRITE }] }) := by
  have halign : MemoryManager.page_align stack_size = stack_size := by decide
  unfold MemoryManager.mmap MemoryManager.find_free_region at h ⊢
  simp only [ne_eq, not_true_eq_false, if_false, halign] at h ⊢
  by_cases h0 : m.mmap_base_ = 0#64
  · simp [h0] at h
  · by_cases hok : host_ok m.mmap_base_ stack_size (PROT_READ ||| PROT_WRITE) = true
    · simp [h0, hok]
    · simp [h0, hok] at h

/-- `MAP_FIXED` maps at page boundaries, and within the address space. -/
def HostPages (host_ok : Word → Word → BitVec 32 → Bool) : Prop :=
  ∀ addr size prot, host_ok addr size prot = true →
    4096 ∣ addr.toNat ∧ addr.toNat + size.toNat < 2 ^ 64

def AtPages : MapOp → Prop
  | .mmap host_ok _ _ _ => HostPages host_ok
  | .munmap _ _ _ _ | .mprotect _ _ _ | .set_brk _ | .access _ _ => True

theorem AtPages.mapsIn {op : MapOp} (h : AtPages op) : op.MapsIn OnPages := by
  cases op with
  | mmap host_ok size prot hint_addr =>
    intro addr prot hok
    obtain ⟨haddr, hend⟩ := h _ _ _ hok
    have hsize : (MemoryManager.page_align size).toNat = (size + 4095#64).toNat / 4096 * 4096 :=
      ELFLoader.and_not_mask (size + 4095#64)
    exact ⟨haddr, ⟨_, hsize.trans (Nat.mul_comm _ _)⟩, hend⟩
  | munmap ret host addr size => trivial
  | mprotect ret addr prot => trivial
  | set_brk new_brk => trivial
  | access host pages => trivial

/-- The region of the stack. -/
def stack_region (stack_base : Word) : MemRegion :=
  { addr := stack_base, size := stack_size, perms := PROT_READ ||| PROT_WRITE }

/-- The top page of the stack. -/
def stack_page (stack_base : Word) : Word := stack_base + 0x1FF000#64

/-- Whether pushes to the top page are stored, for the regions recorded before. -/
def stack_writable (regions : List MemRegion) (stack_base : Word) : Bool :=
  check_perms_in (stack_page stack_base) 4096#64 PROT_WRITE (regions ++ [stack_region stack_base])

/-- The memory behind the mapping. -/
def fresh_stack (m : MemoryManager) : Mem := fill m.host m.mmap_base_ stack_size.toNat fun _ => 0#8

/-- What `main` leaves. -/
theorem main_eq_some (hhost : HostPages host_ok) {ctx : CPUContext} {argv0 : CString}
    {rest : List CString} {entry : GuestEntry}
    (h : main host_ok ctx m elf_info tls_block_addr (argv0 :: argv1 :: rest) = some entry) :
    let stack := layout (stack_low m.mmap_base_) elf_info tls_block_addr argv1
    (4096 ∣ m.mmap_base_.toNat ∧ m.mmap_base_.toNat + stack_size.toNat < 2 ^ 64) ∧
      entry.ctx.sp = stack.sp ∧ entry.pushes = stack.pushes ∧
        ∃ mem : MemoryManager, entry.mem = stack.pushes.foldl Push.run mem ∧
          mem.regions_ = m.regions_ ++ [stack_region m.mmap_base_] ∧
          mem.host = fresh_stack m := by
  rw [main] at h
  dsimp only at h
  by_cases h0 : (m.mmap host_ok stack_size (PROT_READ ||| PROT_WRITE) 0#64).1 = 0#64
  · rw [if_pos h0] at h
    cases h
  · obtain ⟨hok, hmmap⟩ := mmap_stack h0
    have hbase := hhost _ _ _ hok
    rw [if_neg h0, hmmap, guest_stack_eq hbase.1] at h
    refine ⟨hbase, ?_⟩
    clear hbase hok hmmap h0
    generalize layout (stack_low m.mmap_base_) elf_info tls_block_addr argv1 = stack at *
    obtain rfl := Option.some.inj h
    exact ⟨rfl, rfl, _, rfl, rfl, rfl⟩

section Stored

variable {stack_base : Word} (hend : stack_base.toNat + stack_size.toNat < 2 ^ 64)
include hend

theorem stack_page_toNat : (stack_page stack_base).toNat = stack_base.toNat + 0x1FF000 := by
  have hsize : stack_size.toNat = 0x200000 := by decide
  rw [stack_page, BitVec.toNat_add, BitVec.toNat_ofNat]
  omega

theorem stack_off_toNat {o : ℕ} (ho : o < 256) :
    (off (stack_low stack_base) o).toNat = stack_base.toNat + 0x1FFF00 + o := by
  have hsize : stack_size.toNat = 0x200000 := by decide
  rw [off, stack_low, BitVec.toNat_add, BitVec.toNat_add, BitVec.toNat_ofNat, BitVec.toNat_ofNat]
  omega

/-- The region that answers for the top page. -/
theorem stack_writable_iff (regions : List MemRegion) : stack_writable regions stack_base = true ↔
    ∀ r, page_region (stack_page stack_base) regions = some r →
      r.perms &&& PROT_WRITE = PROT_WRITE := by
  have hsize : stack_size.toNat = 0x200000 := by decide
  have hperms : (PROT_READ ||| PROT_WRITE) &&& PROT_WRITE = PROT_WRITE := by decide
  have hpage := stack_page_toNat hend
  refine MemoryManager.check_append_iff ?_ hperms
  rw [BitVec.le_def, BitVec.le_def, BitVec.toNat_add, BitVec.toNat_add, hpage, BitVec.toNat_ofNat]
  dsimp only [stack_region]
  omega

/-- The pushes are all stored or all refused. -/
theorem runs_on_stack (hpage : 4096 ∣ stack_base.toNat) {mem : MemoryManager}
    {regions : List MemRegion} (hr : ∀ r ∈ regions, OnPages r.addr r.size)
    (hregions : mem.regions_ = regions ++ [stack_region stack_base]) {pushes : List Push}
    (h : ∀ p ∈ pushes, ∃ o, p.addr = off (stack_low stack_base) o ∧ o + p.bytes.length ≤ 256) :
    (pushes.foldl Push.run mem).host =
      if stack_writable regions stack_base then pushes.foldl Push.store mem.host else mem.host := by
  have hsize : stack_size.toNat = 0x200000 := by decide
  have hdvd : 4096 ∣ stack_size.toNat := by decide
  have hpageNat := stack_page_toNat hend
  have hall : ∀ r ∈ mem.regions_, OnPages r.addr r.size := by
    rw [hregions, List.forall_mem_append]
    exact ⟨hr, List.forall_mem_singleton.mpr ⟨hpage, hdvd, hend⟩⟩
  have hin : ∀ p ∈ pushes, (stack_page stack_base).toNat ≤ p.addr.toNat ∧
      p.addr.toNat + p.bytes.length ≤ (stack_page stack_base).toNat + 4096 := by
    intro p hp
    obtain ⟨o, haddr, ho⟩ := h p hp
    have hlen := p.bytes_length_pos
    have hoff := stack_off_toNat hend (o := o) (by omega)
    rw [haddr]
    omega
  have hwritable : mem.check_perms (stack_page stack_base) 4096#64 PROT_WRITE =
      stack_writable regions stack_base := by
    rw [MemoryManager.check_perms, hregions]
    rfl
  rw [runs_in_page hall (by omega) (by omega) hin, hwritable]
  split_ifs
  · rfl
  · rfl

end Stored

section Run

variable {host : Mem} {base total_size : Word} {es : List (MemoryManager × MapOp)}
  (h : Runs host base total_size es m) (hes : ∀ e ∈ es, AtPages e.2) (hhost : HostPages host_ok)
  {ctx : CPUContext} {argv0 : CString} {rest : List CString} {entry : GuestEntry}
  (hentry : main host_ok ctx m elf_info tls_block_addr (argv0 :: argv1 :: rest) = some entry)
include h hes hhost hentry

/-- The memory at entry. -/
theorem main_host : entry.mem.host =
    if stack_writable m.regions_ m.mmap_base_ then
      (layout (stack_low m.mmap_base_) elf_info tls_block_addr argv1).pushes.foldl Push.store
        (fresh_stack m)
    else fresh_stack m := by
  obtain ⟨⟨hpage, hend⟩, -, -, mem, hmem, hregions, hfresh⟩ := main_eq_some hhost hentry
  have hr : ∀ r ∈ m.regions_, OnPages r.addr r.size :=
    MemoryManager.ranges_of_runs h fun e he => (hes e he).mapsIn
  rw [hmem, runs_on_stack hend hpage hr hregions fun p hp => layout_mem hp, hfresh]

/-- The argument count at entry, whatever the command line. -/
theorem main_argc : word entry.mem.host entry.ctx.sp 0 =
    if stack_writable m.regions_ m.mmap_base_ then 1#64 else 0#64 := by
  obtain ⟨-, hsp, -⟩ := main_eq_some hhost hentry
  rw [main_host h hes hhost hentry, hsp]
  split_ifs
  · exact argc_eq _
  · -- the memory is as it was mapped
    have hsize : stack_size.toNat = 0x200000 := by decide
    have ho : auxv_off tls_block_addr - 32 ≤ 64 := by
      unfold auxv_off
      split_ifs <;> decide
    have hsp : (layout (stack_low m.mmap_base_) elf_info tls_block_addr argv1).sp =
        off m.mmap_base_ (0x1FFF00 + (auxv_off tls_block_addr - 32)) := by
      rw [← off_off]
      rfl
    rw [hsp, fresh_stack, word_fill_zero (by omega) (by omega)]

/-- **The process stack of `main`**: the guest finds the argument count, the arguments, an empty
environment and the name of the program, and no push goes over an earlier string or pointer, exactly
if there is only the program on the command line, its path has at most 15 characters, and the region
that answers for the top page of the stack is writable. -/
theorem process_stack_iff :
    ProcessStack entry.mem.host entry.ctx.sp (argv1 :: rest) argv1 ∧ NoOverwrite entry.pushes ↔
      rest = [] ∧ argv1.val.length ≤ 15 ∧
        ∀ r, page_region (stack_page m.mmap_base_) m.regions_ = some r →
          r.perms &&& PROT_WRITE = PROT_WRITE := by
  obtain ⟨⟨-, hend⟩, hsp, hpushes, -⟩ := main_eq_some hhost hentry
  rw [← stack_writable_iff hend, hpushes]
  constructor
  · rintro ⟨hstack, hover⟩
    have hargc := hstack.argc
    rw [main_argc h hes hhost hentry, List.length_cons] at hargc
    split_ifs at hargc with hw
    · exact ⟨List.eq_nil_of_length_eq_zero (Nat.succ.inj hargc).symm, length_le_of_noOverwrite hover,
        hw⟩
    · exact absurd hargc.symm (Nat.succ_ne_zero _)
  · rintro ⟨rfl, hs, hw⟩
    have hd : (layout (stack_low m.mmap_base_) elf_info tls_block_addr argv1).pushes.Pairwise
        fun p q => Disjoint p.dom q.dom := layout_disjoint hs
    refine ⟨?_, noOverwrite_of_disjoint hd⟩
    rw [main_host h hes hhost hentry, hsp, if_pos hw]
    exact processStack_of_stored (by omega) fun p hp => Push.storedIn_of_mem hd hp _

end Run

end Entry

/-! ### Command lines -/

theorem hostPages_user : HostPages MemoryManager.maps_user := by
  intro addr size prot h
  have hlt := (MemoryManager.maps_user_lt h).2
  simp only [MemoryManager.maps_user, decide_eq_true_eq] at h
  have hmod : addr.toNat % 4096 = 0 := by
    rw [← ELFLoader.and_mask, h.1]
    rfl
  exact ⟨Nat.dvd_of_mod_eq_zero hmod, hlt⟩

/-- `/a.out` -/
def a_out : CString := ⟨[0x2F#8, 0x61#8, 0x2E#8, 0x6F#8, 0x75#8, 0x74#8], by decide⟩

/-- `/bin/hello-world` -/
def hello_world : CString := ⟨[0x2F#8, 0x62#8, 0x69#8, 0x6E#8, 0x2F#8, 0x68#8, 0x65#8, 0x6C#8, 0x6C#8,
  0x6F#8, 0x2D#8, 0x77#8, 0x6F#8, 0x72#8, 0x6C#8, 0x64#8], by decide⟩

/-- A static program. -/
def static_elf : ELFInfo where
  entry_point := 0x400078#64
  phdr_offset := 64#64
  phnum := 1#16
  phentsize := 56#16
  base_addr := 0x400000#64
  is_dynamic := false
  dynamic_addr := 0#64
  interp := []

/-- `main` of a fresh process. -/
def fresh_main (argv : List CString) : Option GuestEntry :=
  main MemoryManager.maps_user .zero MemoryManager.fresh static_elf 0#64 argv

theorem fresh_main_some (argv0 argv1 : CString) (rest : List CString) :
    ∃ entry, fresh_main (argv0 :: argv1 :: rest) = some entry := ⟨_, rfl⟩

/-- With a path of six characters. -/
theorem process_stack_iff_short : ∃ entry, fresh_main [a_out, a_out] = some entry ∧
    ProcessStack entry.mem.host entry.ctx.sp [a_out] a_out ∧ NoOverwrite entry.pushes := by
  obtain ⟨entry, hentry⟩ := fresh_main_some a_out a_out []
  exact ⟨entry, hentry, (process_stack_iff MemoryManager.runs_fresh (List.forall_mem_nil _)
    hostPages_user hentry).mpr ⟨rfl, by decide, nofun⟩⟩

/-- With a path of sixteen characters the pushes go over the name of the program, and with an argument
the count is wrong. -/
theorem not_process_stack :
    (∃ entry, fresh_main [a_out, hello_world] = some entry ∧ ¬ NoOverwrite entry.pushes) ∧
      ∃ entry, fresh_main [a_out, a_out, a_out] = some entry ∧
        ¬ ProcessStack entry.mem.host entry.ctx.sp [a_out, a_out] a_out := by
  constructor
  · obtain ⟨entry, hentry⟩ := fresh_main_some a_out hello_world []
    refine ⟨entry, hentry, fun h => ?_⟩
    obtain ⟨-, -, hpushes, -⟩ := main_eq_some hostPages_user hentry
    rw [hpushes] at h
    exact absurd (length_le_of_noOverwrite h) (by decide)
  · obtain ⟨entry, hentry⟩ := fresh_main_some a_out a_out [a_out]
    refine ⟨entry, hentry, fun h => ?_⟩
    have hargc := h.argc
    rw [main_argc MemoryManager.runs_fresh (List.forall_mem_nil _) hostPages_user hentry] at hargc
    split_ifs at hargc
    · cases hargc
    · cases hargc

end Main

end Bbarm64
