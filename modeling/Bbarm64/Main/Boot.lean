import Bbarm64.Elf.Image
import Bbarm64.Engine.Loop
import Bbarm64.Main.ProcessStack
import Bbarm64.Threading.TlsEmu

/-!
# Main.Boot — from the ELF file to the loop of the engine

`boot` is `main` up to the loop of `run`.  The segments are mapped where the file wants them, the TLS
block and the stack go to the arena of the memory manager, and the pushes stay in the stack, so a
program of the file is in memory when the engine starts, and the engine executes it from the entry
point of the file on (`boot_follows`).
-/

namespace Bbarm64

open X86

namespace Main

open ELFLoader ExecEngine

/-! ## `main` -/

/-- What the host answers: whether a fixed mapping succeeds, the memory at the start, and where
`mem.init()` and `cache.init()` get their mappings. -/
structure Host where
  ok : Word → Word → BitVec 32 → Bool
  mem : Mem
  arena : Option Word
  pool : Option Word

/-- The default of `MemoryManager::init`. -/
def total_size : Word := 1#64 <<< 32

/-- `config.cache_size_mb * 1024 * 1024 / 64`, in 32 bits. -/
def cache_entries (cache_size_mb : BitVec 32) : ℕ :=
  (cache_size_mb * 1024#32 * 1024#32 / 64#32).toNat

/-- The state in which `main` enters the loop of `engine.run`; `none` where it returns 1 or reads
outside the file. -/
def boot (host : Host) (cache_size_mb : BitVec 32) (elf_info : ELFInfo) (file : Option (List Byte))
    (argv : List CString) : Option RunState := do
  let base ← host.arena
  let mem := MemoryManager.init host.mem base total_size
  let pool ← host.pool
  let cache := TranslationCache.init (cache_entries cache_size_mb) pool
  -- Load ELF binary
  let (ok, elf_info, mem) ← load host.ok file elf_info mem
  if !ok then none
  else do
    -- Allocate TLS block for dynamic binaries
    let (tls_block_addr, mem) :=
      if elf_info.is_dynamic then TLSEmu.allocate_tls_block host.ok 4096#64 mem else (0#64, mem)
    let ctx := if tls_block_addr ≠ 0#64 then CPUContext.zero.set 101 tls_block_addr else .zero
    let entry ← main host.ok ctx mem elf_info tls_block_addr argv
    some { ctx := entry.ctx.set_pc entry.ctx.pc, mem := entry.mem, cache, iter := 0 }

/-! ## The arena -/

/-- What `main` maps without a hint: two pages for the TLS block and 2 MB for the stack. -/
def InArena (base a : Word) : Prop := (a - (base + total_size / 2#64)).toNat < 0x202000

section Frames

variable {m : MemoryManager} {a : Word}

theorem write_u_host {w : ℕ} (k : ℕ) (m : MemoryManager) (addr : Word) (val : BitVec w)
    (ha : k ≤ (a - addr).toNat) : (m.write_u k addr val).2.host a = m.host a := by
  unfold MemoryManager.write_u
  split_ifs
  · exact writeN_of_le ha
  · rfl

/-- A push leaves the other bytes alone. -/
theorem Push.run_host {p : Push} (ha : a ∉ p.dom) : (p.run m).host a = m.host a := by
  have ha : p.bytes.length ≤ (a - p.addr).toNat := Nat.le_of_not_lt ha
  cases p with
  | u64 addr val => exact write_u_host 8 m addr val ha
  | ptr addr val => exact write_u_host 8 m addr val ha
  | str addr s =>
    have hlen : (copied s).length ≤ (a - addr).toNat := ha
    generalize hn : (copied s).length = n at hlen
    have hrun : ∀ k ≤ n, ((List.range k).foldl
        (fun m i => (m.write_u8 (off addr i) ((copied s).getD i 0#8)).2) m).host a = m.host a := by
      intro k
      induction k with
      | zero => exact fun _ => rfl
      | succ k ih =>
        intro hk
        rw [List.range_succ, List.foldl_append, List.foldl_cons, List.foldl_nil, ← ih (by omega)]
        refine write_u_host 1 _ _ _ ?_
        have hlt := (a - addr).isLt
        rw [off, BitVec.toNat_sub, BitVec.toNat_add, BitVec.toNat_ofNat]
        rw [BitVec.toNat_sub] at hlen
        omega
    rw [Push.run, hn]
    exact hrun n (Nat.le_refl n)

theorem pushes_host {pushes : List Push} (ha : ∀ p ∈ pushes, a ∉ p.dom) :
    (pushes.foldl Push.run m).host a = m.host a := by
  induction pushes generalizing m with
  | nil => rfl
  | cons p pushes ih =>
    obtain ⟨hp, hrest⟩ := List.forall_mem_cons.mp ha
    rw [List.foldl_cons, ih hrest, Push.run_host hp]

end Frames

section Entry

variable {host_ok : Word → Word → BitVec 32 → Bool} {ctx : CPUContext} {m : MemoryManager}
  {elf_info : ELFInfo} {tls_block_addr : Word} {argv0 argv1 : CString} {rest : List CString}
  {entry : GuestEntry} (hhost : HostPages host_ok)
  (h : main host_ok ctx m elf_info tls_block_addr (argv0 :: argv1 :: rest) = some entry)
include hhost h

/-- `main` stores in the stack only. -/
theorem main_outside {a : Word} (ha : 0x200000 ≤ (a - m.mmap_base_).toNat) :
    entry.mem.host a = m.host a := by
  obtain ⟨-, -, -, mem, hmem, -, hfresh⟩ := main_eq_some hhost h
  have hsize : stack_size.toNat = 0x200000 := by decide
  rw [hmem, pushes_host, hfresh]
  · rw [fresh_stack, hsize, fill_of_le ha]
  · intro p hp hdom
    obtain ⟨o, haddr, ho⟩ := layout_mem hp
    have hdom : (a - p.addr).toNat < p.bytes.length := hdom
    generalize p.bytes.length = n at ho hdom
    rw [haddr, off, stack_low] at hdom
    rw [BitVec.toNat_sub] at hdom ha
    rw [BitVec.toNat_add, BitVec.toNat_add, BitVec.toNat_ofNat, BitVec.toNat_ofNat] at hdom
    have hlt := a.isLt
    have hlt' := m.mmap_base_.isLt
    omega

/-- The context at entry. -/
theorem main_ctx : entry.ctx =
    let stack := layout (stack_low m.mmap_base_) elf_info tls_block_addr argv1
    ((((ctx.set_pc elf_info.entry_point).set 31 stack.sp).set 33 0#64).set_x 0 stack.auxv_start) := by
  rw [main] at h
  dsimp only at h
  by_cases h0 : (m.mmap host_ok stack_size (PROT_READ ||| PROT_WRITE) 0#64).1 = 0#64
  · rw [if_pos h0] at h
    cases h
  · obtain ⟨hok, hmmap⟩ := mmap_stack h0
    have hbase := hhost _ _ _ hok
    rw [if_neg h0, hmmap, guest_stack_eq hbase.1] at h
    clear hbase hok hmmap h0
    generalize layout (stack_low m.mmap_base_) elf_info tls_block_addr argv1 = stack at *
    obtain rfl := Option.some.inj h
    rfl

end Entry

/-! ## The state at the start of the loop -/

/-- The registers at entry: the auxiliary vector in X0, the stack pointer, and zeros. -/
def entry_regs (stack : GuestStack) : BitVec 5 → Word :=
  fun r => if r = 0#5 then stack.auxv_start else if r = 31#5 then stack.sp else 0#64

/-- The state at the start of the loop: the entry point of the file, the registers, the segments of the
file outside the arena, and an empty cache. -/
structure Booted (data : List Byte) (base pool : Word) (capacity : ℕ) (s : RunState) : Prop where
  pc : s.ctx.pc = (ehdr data).e_entry
  regs : ∃ elf_info tls_block_addr argv1 stack_base, guest_regs s.ctx =
    entry_regs (layout (stack_low stack_base) elf_info tls_block_addr argv1)
  segments : ∀ ph ∈ headers data, ph.type = PT_LOAD → ∀ i < ph.memsz.toNat,
    ¬ InArena base (off ph.vaddr i) → s.mem.host (off ph.vaddr i) =
      if i < ph.filesz.toNat then data.getD (ph.offset.toNat + i) 0#8 else 0#8
  cache : s.cache = .init capacity pool
  running : s.Running

section Boot

variable {host : Host} {cache_size_mb : BitVec 32} {elf_info : ELFInfo} {data : List Byte}
  {argv : List CString} {base pool : Word} {s : RunState}

/-- The TLS block is in the arena, and moves the bump pointer by two pages. -/
theorem tls_block_frame (host_ok : Word → Word → BitVec 32 → Bool) (m : MemoryManager) :
    let r := TLSEmu.allocate_tls_block host_ok 4096#64 m
    r.2.mmap_base_ = m.mmap_base_ + 8192#64 ∧
      ∀ a, 8192 ≤ (a - m.mmap_base_).toNat → r.2.host a = m.host a := by
  have hsize : TLSEmu.tls_size 4096#64 = 4160#64 := by decide
  have hpages : MemoryManager.page_align 4160#64 = 8192#64 := by decide
  obtain ⟨haddr, hbase, -⟩ := MemoryManager.mmap_spec (m := m) host_ok 4160#64
    (PROT_READ ||| PROT_WRITE) 0#64
  have hhost := MemoryManager.mmap_host (m := m) host_ok 4160#64 (PROT_READ ||| PROT_WRITE) 0#64
  rw [if_neg (not_not_intro rfl), hpages] at hbase
  rw [hpages, MemoryManager.mmap_addr, if_neg (not_not_intro rfl)] at hhost
  rw [MemoryManager.mmap_addr, if_neg (not_not_intro rfl)] at haddr
  unfold TLSEmu.allocate_tls_block
  rw [hsize]
  generalize m.mmap host_ok 4160#64 (PROT_READ ||| PROT_WRITE) 0#64 = r at haddr hbase hhost ⊢
  obtain ⟨addr, m'⟩ := r
  dsimp only at haddr hbase hhost ⊢
  have hout : ∀ a : Word, 8192 ≤ (a - m.mmap_base_).toNat → m'.host a = m.host a := by
    intro a ha
    rw [hhost]
    split_ifs
    · exact fill_of_le ha
    · rfl
  split_ifs with h0
  · exact ⟨hbase, hout⟩
  · refine ⟨hbase, fun a ha => ?_⟩
    have hat : addr = m.mmap_base_ := by
      split_ifs at haddr
      · exact haddr
      · exact absurd haddr h0
    have hle : (4160#64 : Word).toNat ≤ 8192 := by decide
    rw [hat]
    show fill m'.host m.mmap_base_ (4160#64 : Word).toNat (fun _ => 0#8) a = m.host a
    rw [fill_of_le (Nat.le_trans hle ha), hout a ha]

/-- The TLS block of a dynamic program, as far as the stack is concerned. -/
theorem tls_frame (host_ok : Word → Word → BitVec 32 → Bool) (dynamic : Bool) (m : MemoryManager) :
    let r := if dynamic then TLSEmu.allocate_tls_block host_ok 4096#64 m else (0#64, m)
    ∃ d : Word, d.toNat ≤ 8192 ∧ r.2.mmap_base_ = m.mmap_base_ + d ∧
      ∀ a, 8192 ≤ (a - m.mmap_base_).toNat → r.2.host a = m.host a := by
  cases dynamic with
  | false => exact ⟨0#64, by decide, (BitVec.add_zero _).symm, fun _ _ => rfl⟩
  | true =>
    obtain ⟨hbase, hout⟩ := tls_block_frame host_ok m
    exact ⟨8192#64, by decide, hbase, hout⟩

/-- Outside the arena, the stack of `main` is not. -/
theorem stack_outside {a x d : Word} (hd : d.toNat ≤ 8192) (ha : 0x202000 ≤ (a - x).toNat) :
    0x200000 ≤ (a - (x + d)).toNat := by
  have hlt := a.isLt
  have hx := x.isLt
  rw [BitVec.toNat_sub] at ha ⊢
  rw [BitVec.toNat_add]
  omega

/-- The context that `run` starts with. -/
theorem guest_regs_entry {ctx : CPUContext} (hctx : ∀ i < 32, ctx.word i = 0#64) (entry_point pc : Word)
    (stack : GuestStack) : guest_regs (((((ctx.set_pc entry_point).set 31 stack.sp).set 33 0#64).set_x 0
      stack.auxv_start).set_pc pc) = entry_regs stack := by
  funext r
  have hlt := r.isLt
  have h0 : r.toNat = 0 ↔ r = 0#5 := ⟨fun h => BitVec.eq_of_toNat_eq h, fun h => h ▸ rfl⟩
  have h31 : r.toNat = 31 ↔ r = 31#5 := ⟨fun h => BitVec.eq_of_toNat_eq h, fun h => h ▸ rfl⟩
  have h32 : r.toNat ≠ 32 := Nat.ne_of_lt hlt
  have h33 : r.toNat ≠ 33 := Nat.ne_of_lt (Nat.lt_succ_of_lt hlt)
  unfold guest_regs entry_regs CPUContext.set_pc CPUContext.set_x
  simp only [CPUContext.set_word, if_neg h32, if_neg h33, h0, h31, hctx _ hlt]

/-- The context that `main` gets is zero but for the TLS base. -/
theorem tls_ctx_word (tls_block_addr : Word) {i : ℕ} (hi : i ≠ 101) :
    (if tls_block_addr ≠ 0#64 then CPUContext.zero.set 101 tls_block_addr
      else CPUContext.zero).word i = 0#64 := by
  split_ifs
  · exact if_neg hi
  · rfl

/-- The state of `boot`. -/
theorem booted_of_boot (hhost : HostPages host.ok)
    (hempty : ∀ addr prot, host.ok addr 0#64 prot = false)
    (hok : ∀ ph ∈ loads (headers data), SegmentOk data ph)
    (hd : (loads (headers data)).Pairwise PagesApart)
    (harena : host.arena = some base) (hpool : host.pool = some pool)
    (h : boot host cache_size_mb elf_info (some data) argv = some s) :
    Booted data base pool (cache_entries cache_size_mb) s := by
  have hinit : (MemoryManager.init host.mem base total_size).regions_ = [] := rfl
  have hbump : (MemoryManager.init host.mem base total_size).mmap_base_ = base + total_size / 2#64 := rfl
  unfold boot at h
  rw [harena, hpool] at h
  simp only [Option.bind_eq_bind, Option.bind_some] at h
  generalize MemoryManager.init host.mem base total_size = m₀ at h hinit hbump
  obtain ⟨⟨ok, info, m⟩, hload, h⟩ := Option.bind_eq_some_iff.mp h
  cases ok with
  | false => cases h
  | true =>
    obtain ⟨hentry, hbump', hsegments⟩ := loaded_of_load hempty hinit hok hd hload
    rw [hbump] at hbump'
    obtain ⟨d, hd, hbase, hout⟩ := tls_frame host.ok info.is_dynamic m
    generalize (if info.is_dynamic = true then TLSEmu.allocate_tls_block host.ok 4096#64 m
        else (0#64, m)) = r at h hbase hout
    obtain ⟨tls_block_addr, m₁⟩ := r
    dsimp only at h hbase hout
    obtain ⟨entry, hmain, he⟩ := Option.bind_eq_some_iff.mp h
    obtain rfl := Option.some.inj he
    match argv, hmain with
    | argv0 :: argv1 :: rest, hmain =>
      have hctx := main_ctx hhost hmain
      refine ⟨?_, ⟨info, tls_block_addr, argv1, m₁.mmap_base_, ?_⟩, ?_, rfl, ?_⟩
      · show entry.ctx.pc = _
        rw [hctx, ← hentry]
        rfl
      · dsimp only
        rw [hctx]
        exact guest_regs_entry (fun i hi => tls_ctx_word _ (by omega)) _ _ _
      · intro ph hph htype i hi harena
        rw [← (hsegments ph hph htype).bytes i hi]
        have hin : 0x202000 ≤ (off ph.vaddr i - (base + total_size / 2#64)).toNat :=
          Nat.le_of_not_lt harena
        have hstack : 0x200000 ≤ (off ph.vaddr i - m₁.mmap_base_).toNat := by
          rw [hbase, hbump']
          exact stack_outside hd hin
        rw [← hbump'] at hin
        exact (main_outside hhost hmain hstack).trans (hout _ (Nat.le_trans (by decide) hin))
      · have hflags : (entry.ctx.set_pc entry.ctx.pc).word 103 = 0#64 := by
          rw [hctx]
          exact tls_ctx_word _ (by decide)
        refine ⟨?_, ?_, (by decide : 0 < max_iter)⟩
        · rw [CPUContext.crashed, CPUContext.state_flags, hflags]
          rfl
        · rw [CPUContext.exited, CPUContext.state_flags, hflags]
          rfl

/-! ## Programs of the file -/

/-- The words of the program are in the file, at offset `o` of the segment. -/
structure InFile (data : List Byte) (ph : ELFProgramHeader) (o : ℕ) (p : A64.Program) : Prop where
  mem : ph ∈ headers data
  load : ph.type = PT_LOAD
  base : p.base = off ph.vaddr o
  le : o + 4 * p.words.length ≤ ph.filesz.toNat
  bytes : ∀ k w, p.words[k]? = some w → ∀ i < 4,
    data.getD (ph.offset.toNat + (o + 4 * k + i)) 0#8 = byteAt w i

variable {p : A64.Program} {ph : ELFProgramHeader} {o capacity : ℕ} {c : Word}

/-- The engine starts with the program in memory. -/
theorem Booted.starts (h : Booted data base pool capacity s) (hp : InFile data ph o p)
    (hfile : ph.filesz.toNat ≤ ph.memsz.toNat) (hl : Layout p c pool)
    (harena : ∀ a, InProgram p a → ¬ InArena base a) : Starts p c pool s := by
  refine ⟨hl, fun k w hw => read32_of_bytes fun i hi => ?_, capacity, h.cache⟩
  have hlt := (List.getElem?_eq_some_iff.mp hw).1
  have hle := hp.le
  have hfits := p.fits
  have hmem := ph.memsz.isLt
  have haddr : p.addr k + BitVec.ofNat 64 i = off ph.vaddr (o + 4 * k + i) := by
    rw [A64.Program.addr, hp.base]
    simp only [off, BitVec.add_assoc, ← BitVec.ofNat_add]
  have hin : InProgram p (p.addr k + BitVec.ofNat 64 i) := by
    rw [InProgram, A64.Program.addr, BitVec.add_assoc, ← BitVec.ofNat_add,
      show p.base + BitVec.ofNat 64 (4 * k + i) = off p.base (4 * k + i) from rfl,
      off_sub_self (by omega)]
    omega
  have hout := harena _ hin
  rw [haddr] at hout ⊢
  rw [h.segments ph hp.mem hp.load _ (by omega) hout, if_pos (by omega), hp.bytes k w hw i hi]

/-- **From the file to A64**: the engine that `main` starts on a file whose segments are in order
executes the program of the file as A64 says, from the entry point on, as long as no branch back is
left to the interpreter; none is if the cache has room for the program. -/
theorem boot_follows (hhost : HostPages host.ok)
    (hempty : ∀ addr prot, host.ok addr 0#64 prot = false)
    (hok : ∀ ph ∈ loads (headers data), SegmentOk data ph)
    (hd : (loads (headers data)).Pairwise PagesApart)
    (hbase : host.arena = some base) (hpool : host.pool = some pool)
    (hboot : boot host cache_size_mb elf_info (some data) argv = some s) (hp : InFile data ph o p)
    (hl : Layout p c pool) (harena : ∀ a, InProgram p a → ¬ InArena base a)
    {es : List (RunState × HostAnswer × Cpu)} {s' : RunState} (h : Loop c s es s')
    (hes : ∀ e ∈ es, OnProgram p c pool e.2.1 e.1) (hgo : s'.ctx.crashed = false) :
    Booted data base pool (cache_entries cache_size_mb) s ∧
      (Trace.Always (Simulates p c pool s) es s' ↔ ∀ e ∈ es, ¬ e.1.GoesBack) ∧
      (Room p (.init (cache_entries cache_size_mb) pool) → Simulates p c pool s es s') := by
  have hbooted := booted_of_boot hhost hempty hok hd hbase hpool hboot
  have hsegment : ph ∈ loads (headers data) := List.mem_filter.mpr ⟨hp.mem, by simp [hp.load]⟩
  have hstarts := hbooted.starts hp (hok ph hsegment).filesz_le hl harena
  refine ⟨hbooted, hstarts.simulates_iff h hes hgo, fun hroom => hstarts.simulates ?_ h hes hgo⟩
  rwa [hbooted.cache]

/-- A static file of one segment at 0x400000, with `exit_program` behind the headers. -/
def exit_elf : List Byte :=
  [0x7F, 0x45, 0x4C, 0x46, 2, 1, 1, 0, 0, 0, 0, 0, 0, 0, 0, 0,
    2, 0, 183, 0, 1, 0, 0, 0, 0x78, 0, 0x40, 0, 0, 0, 0, 0,
    64, 0, 0, 0, 0, 0, 0, 0, 0, 0, 0, 0, 0, 0, 0, 0,
    0, 0, 0, 0, 64, 0, 56, 0, 1, 0, 0, 0, 0, 0, 0, 0,
    1, 0, 0, 0, 5, 0, 0, 0, 0, 0, 0, 0, 0, 0, 0, 0,
    0, 0, 0x40, 0, 0, 0, 0, 0, 0, 0, 0x40, 0, 0, 0, 0, 0,
    132, 0, 0, 0, 0, 0, 0, 0, 132, 0, 0, 0, 0, 0, 0, 0,
    0, 0x10, 0, 0, 0, 0, 0, 0, 0xA8, 0x0B, 0x80, 0xD2, 0x60, 0, 0x80, 0xD2,
    1, 0, 0, 0xD4]

def exit_segment : ELFProgramHeader where
  type := PT_LOAD
  flags := PF_R ||| PF_X
  offset := 0#64
  vaddr := 0x400000#64
  paddr := 0x400000#64
  filesz := 132#64
  memsz := 132#64
  align := 0x1000#64

def exit_host : Host where
  ok := MemoryManager.maps_user
  mem _ := 0#8
  arena := some 0x700000000000#64
  pool := some 0x710000000000#64

def exit_code : A64.Program := { exit_program with base := 0x400078#64, fits := by decide }

theorem exit_headers : headers exit_elf = [exit_segment] := by decide +kernel

theorem exit_inFile : InFile exit_elf exit_segment 120 exit_code := by
  refine ⟨exit_headers ▸ List.mem_singleton_self _, rfl, rfl, by decide, fun k w hw i hi => ?_⟩
  have hlt : k < 3 := (List.getElem?_eq_some_iff.mp hw).1
  obtain rfl | rfl | rfl : k = 0 ∨ k = 1 ∨ k = 2 := by omega
  all_goals
    obtain rfl := Option.some.inj hw
    revert i
    decide

theorem exit_layout : Layout exit_code 0x7FFF00000000#64 0x710000000000#64 := by
  have hlen : exit_code.words.length = 3 := rfl
  have hbase : exit_code.base = 0x400078#64 := rfl
  have hsize : TranslationCache.DEFAULT_CODE_POOL_SIZE = 67108864 := rfl
  refine ⟨⟨by decide, by decide⟩, fun a hctx hpool => ?_, fun a hprog hown => ?_⟩
  · simp only [InCtx, InPool, CPUContext.words, hsize, BitVec.toNat_sub, BitVec.toNat_ofNat] at *
    omega
  · simp only [InProgram, Own, InCtx, InPool, CPUContext.words, hsize, hlen, hbase, BitVec.toNat_sub,
      BitVec.toNat_ofNat] at *
    omega

/-- The first round of `exit_elf`. -/
theorem boot_follows_exit : ∃ s e s',
    boot exit_host 64#32 static_elf (some exit_elf) [a_out, a_out] = some s ∧
    Loop 0x7FFF00000000#64 s [e] s' ∧
    Simulates exit_code 0x7FFF00000000#64 0x710000000000#64 s [e] s' := by
  have hsome : (boot exit_host 64#32 static_elf (some exit_elf) [a_out, a_out]).isSome = true := by
    decide +kernel
  obtain ⟨s, hboot⟩ := Option.isSome_iff_exists.mp hsome
  have hempty : ∀ addr prot, exit_host.ok addr 0#64 prot = false := by
    intro addr prot
    exact decide_eq_false fun h => absurd h.2.1 (by decide)
  have hloads : loads (headers exit_elf) = [exit_segment] := by
    rw [exit_headers]
    rfl
  have hok : ∀ ph ∈ loads (headers exit_elf), SegmentOk exit_elf ph := by
    rw [hloads]
    exact List.forall_mem_singleton.mpr
      ⟨Nat.le_refl 132, Nat.le_refl 132, by decide, by decide⟩
  have hd : (loads (headers exit_elf)).Pairwise PagesApart := by
    rw [hloads]
    exact List.pairwise_singleton _ _
  have hlen : exit_code.words.length = 3 := rfl
  have hcode : exit_code.base = 0x400078#64 := rfl
  have htotal : total_size / 2#64 = 0x80000000#64 := by decide
  have harena : ∀ a, InProgram exit_code a → ¬ InArena 0x700000000000#64 a := by
    intro a hprog hin
    simp only [InProgram, InArena, htotal, hlen, hcode, BitVec.toNat_sub, BitVec.toNat_add,
      BitVec.toNat_ofNat] at *
    omega
  have hroom : Room exit_code (.init (cache_entries 64#32) 0x710000000000#64) :=
    ⟨by decide, by decide⟩
  have hbooted := booted_of_boot hostPages_user hempty hok hd rfl rfl hboot
  have hstarts := hbooted.starts exit_inFile (by decide) exit_layout harena
  have hk : s.ctx.pc = exit_code.addr 0 := hbooted.pc
  have hlt : 0 < exit_code.words.length := by decide
  obtain ⟨cpu, s', hi, hgo⟩ :=
    hstarts.works.progress exit_layout hk hlt hbooted.running granted
  have hword := hstarts.works.read hk (show exit_code.words[0]? = some 0xD2800BA8#32 from rfl)
  have hon : OnProgram exit_code 0x7FFF00000000#64 0x710000000000#64 granted s := by
    refine ⟨by rw [hk]; decide, fun hsvc => ?_⟩
    obtain ⟨-, raw, hread, hraw⟩ := hsvc
    obtain rfl := Option.some.inj (hword.symm.trans hread)
    exact absurd hraw (by decide)
  obtain ⟨-, -, hsim⟩ := boot_follows hostPages_user hempty hok hd rfl rfl hboot exit_inFile exit_layout
    harena (.one hi) (List.forall_mem_singleton.mpr hon) hgo
  exact ⟨s, _, s', hboot, .one hi, hsim hroom⟩

end Boot

end Main

end Bbarm64
