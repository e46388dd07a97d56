import Bbarm64.Core.AddressSpace
import Bbarm64.Engine.Loop

/-!
# Engine.Protected — bytes that the guest may not write

The rounds of the loop are mapping calls for the system calls that map, and accesses for everything else
(`iterates_map`), so a run of the loop carries the address space of the guest along.  The
interpreter and the handlers ask the regions of the manager before they store.  While these are the
address space, the engine does not change a byte of a page without write permission (`protected_kept`).
-/

namespace Bbarm64

open X86 ARM64Decoder MemoryManager SyscallHandler

/-- Only the contents and the marks for translated pages differ. -/
def MemoryManager.KeepsMaps (m m' : MemoryManager) : Prop :=
  m' = m.apply (.access m'.host m'.translated_pages_)

section KeepsMaps

variable {m m₁ m₂ : MemoryManager}

theorem MemoryManager.KeepsMaps.refl (m : MemoryManager) : m.KeepsMaps m := rfl

theorem MemoryManager.KeepsMaps.trans (h₁ : m.KeepsMaps m₁) (h₂ : m₁.KeepsMaps m₂) :
    m.KeepsMaps m₂ := by
  unfold KeepsMaps at *
  rw [h₂, h₁]
  rfl

theorem MemoryManager.write_u_keepsMaps {n : ℕ} (k : ℕ) (m : MemoryManager) (addr : Word)
    (val : BitVec n) : m.KeepsMaps (m.write_u k addr val).2 := by
  unfold write_u
  split_ifs <;> rfl

theorem MemoryManager.write_bytes_keepsMaps (m : MemoryManager) (addr len : Word) (src : ℕ → Byte) :
    m.KeepsMaps (m.write_bytes addr len src).2 := by
  unfold write_bytes
  split_ifs <;> rfl

end KeepsMaps

namespace ExecEngine

/-! ## Mapping calls of a round -/

section Maps

variable {c : Word} {answer : HostAnswer} {cpu : Cpu} {s s' : RunState} {ctx : CPUContext}
  {mem : MemoryManager}

theorem execute_decoded_keepsMaps (g : Guest) (d : DecodedInstr) :
    g.2.KeepsMaps (execute_decoded g d).2 := by
  by_cases h73 : d.opcode = 0x73#8
  · rw [execute_str64 h73]
    exact write_u_keepsMaps _ _ _ _
  by_cases h72 : d.opcode = 0x72#8
  · rw [execute_str32 h72]
    exact write_u_keepsMaps _ _ _ _
  by_cases h70 : d.opcode = 0x70#8
  · rw [execute_strb h70]
    exact write_u_keepsMaps _ _ _ _
  by_cases h71 : d.opcode = 0x71#8
  · rw [execute_strh h71]
    exact write_u_keepsMaps _ _ _ _
  by_cases h81 : d.opcode = 0x81#8
  · rw [execute_stp h81]
    exact (write_u_keepsMaps _ _ _ _).trans (write_u_keepsMaps _ _ _ _)
  · have hkeep : (execute_decoded g d).2 = g.2 := execute_decoded_keepsMem h73 h72 h70 h71 h81
    rw [hkeep]
    exact .refl _

theorem translate_block_keepsMaps (t : TranslationCache) (mem : MemoryManager) (pc : Word) :
    mem.KeepsMaps (translate_block t mem pc).mem := by
  have hmark : ∀ m : MemoryManager, m.KeepsMaps (m.mark_translated_page pc) := by
    intro m
    unfold mark_translated_page
    dsimp only
    split_ifs <;> rfl
  have hhost : ∀ host, mem.KeepsMaps { mem with host } := fun _ => rfl
  unfold translate_block
  dsimp only
  by_cases hds : (collect mem max_instr pc).isEmpty = true
  · rw [if_pos hds]
    exact .refl mem
  rw [if_neg hds]
  cases IRBuilder.build (collect mem max_instr pc) pc with
  | none => exact .refl mem
  | some ir_block =>
    dsimp only
    by_cases hnull : (t.alloc_host_code slot_size).1 = 0#64
    · rw [if_pos hnull]
      exact .refl mem
    · rw [if_neg hnull]
      exact (hhost _).trans (hmark _)

/-- The mapping call that a system call makes. -/
def svc_map (answer : HostAnswer) (ctx : CPUContext) (mem : MemoryManager) : MapCall :=
  let arm_nr := (ctx.x 8).setWidth 32
  if arm_nr = 222#32 then .mmap answer.mmap_ok (ctx.x 1) ((ctx.x 2).setWidth 32) (ctx.x 0)
  else if arm_nr = 226#32 then
    .mprotect (answer.ret.setWidth 32) (ctx.x 0) (ctx.x 1) ((ctx.x 2).setWidth 32)
  else if arm_nr = 215#32 then
    .munmap (answer.ret.setWidth 32) answer.host (ctx.x 0) (ctx.x 1)
  else if arm_nr = 214#32 ∧ ctx.x 0 ≠ 0#64 then .set_brk (ctx.x 0)
  else
    let mem' := (execute answer ctx mem).2.2
    .access mem'.host mem'.translated_pages_

theorem handle_read_keepsMaps (answer : HostAnswer) (ctx : CPUContext) (mem : MemoryManager) :
    mem.KeepsMaps (handle_read answer ctx mem).2.2 := by
  unfold handle_read
  by_cases hbuf : ctx.x 2 > stack_buf ∧ ¬ answer.malloc_ok
  · rw [if_pos hbuf]
    exact .refl mem
  rw [if_neg hbuf]
  dsimp only
  by_cases hret : (0#64).slt answer.ret = true
  · rw [if_pos hret]
    exact mem.write_bytes_keepsMaps _ _ _
  · rw [if_neg hret]
    exact .refl mem

/-- A system call that does not map. -/
theorem execute_keepsMaps (h222 : (ctx.x 8).setWidth 32 ≠ 222#32) (h226 : (ctx.x 8).setWidth 32 ≠ 226#32)
    (h215 : (ctx.x 8).setWidth 32 ≠ 215#32) (hbrk : (ctx.x 8).setWidth 32 = 214#32 → ctx.x 0 = 0#64) :
    mem.KeepsMaps (execute answer ctx mem).2.2 := by
  unfold execute
  dsimp only
  generalize (ctx.x 8).setWidth 32 = nr at *
  rw [if_neg h222, if_neg h226, if_neg h215]
  by_cases hneg : translate_syscall_nr nr < 0
  · rw [if_pos hneg]
    exact .refl mem
  rw [if_neg hneg]
  by_cases h63 : nr = 63#32
  · rw [if_pos h63]
    exact handle_read_keepsMaps answer ctx mem
  rw [if_neg h63]
  by_cases h64 : nr = 64#32
  · rw [if_pos h64, handle_write_host]
    exact .refl mem
  rw [if_neg h64]
  by_cases h214 : nr = 214#32
  · rw [if_pos h214, handle_brk, if_pos (hbrk h214)]
    exact .refl mem
  rw [if_neg h214]
  by_cases h216 : nr = 216#32
  · rw [if_pos h216]
    exact .refl _
  rw [if_neg h216]
  by_cases hexit : nr = 93#32 ∨ nr = 94#32
  · rw [if_pos hexit]
    exact .refl mem
  · rw [if_neg hexit]
    exact .refl _

/-- **A system call** changes the maps like its mapping call. -/
theorem execute_map (answer : HostAnswer) (ctx : CPUContext) (mem : MemoryManager) :
    (execute answer ctx mem).2.2 = mem.apply (svc_map answer ctx mem).op := by
  by_cases h222 : (ctx.x 8).setWidth 32 = 222#32
  · unfold svc_map execute
    rw [h222]
    rfl
  by_cases h226 : (ctx.x 8).setWidth 32 = 226#32
  · unfold svc_map execute
    rw [h226]
    rfl
  by_cases h215 : (ctx.x 8).setWidth 32 = 215#32
  · unfold svc_map execute
    rw [h215]
    rfl
  by_cases hbrk : (ctx.x 8).setWidth 32 = 214#32 ∧ ctx.x 0 ≠ 0#64
  · have hexec : execute answer ctx mem = handle_brk ctx mem := by
      unfold execute
      rw [hbrk.1]
      rfl
    rw [hexec, svc_map, if_neg h222, if_neg h226, if_neg h215, if_pos hbrk, handle_brk, if_neg hbrk.2]
    rfl
  · rw [svc_map, if_neg h222, if_neg h226, if_neg h215, if_neg hbrk]
    refine execute_keepsMaps h222 h226 h215 fun h214 => ?_
    exact not_not.mp fun h0 => hbrk ⟨h214, h0⟩

theorem executes_keepsMaps {block : BlockInfo} {g g' : Guest} (h : Executes c cpu block g g') :
    g.2.KeepsMaps g'.2 := by
  cases h with
  | skip _ => exact .refl _
  | run _ _ _ hl => cases hl <;> rfl

/-- The mapping call of a round. -/
def round_map (answer : HostAnswer) (s s' : RunState) : MapCall :=
  if s.AtSvc then svc_map answer (s.ctx.set_pc (s.ctx.pc + 4#64)) s.mem
  else .access s'.mem.host s'.mem.translated_pages_

/-- **A round** changes the maps like its mapping call. -/
theorem iterates_map (h : Iterates c answer cpu s s') :
    s'.mem = s.mem.apply (round_map answer s s').op := by
  unfold round_map
  by_cases hs : s.AtSvc
  · rw [if_pos hs, (iterates_svc_iff (iterates_running h) hs).mp h]
    exact execute_map answer (s.ctx.set_pc (s.ctx.pc + 4#64)) s.mem
  · rw [if_neg hs]
    show s.mem.KeepsMaps s'.mem
    have htranslate := translate_block_keepsMaps s.cache s.mem s.ctx.pc
    cases h with
    | hit _ _ hx => exact executes_keepsMaps hx
    | svc _ hs' _ => exact absurd hs' hs
    | translated _ _ hr _ hx =>
      subst hr
      exact htranslate.trans (executes_keepsMaps hx)
    | interpreted _ _ hr _ _ hg =>
      subst hr hg
      exact htranslate.trans (execute_decoded_keepsMaps _ _)
    | unknown _ _ hr _ _ =>
      subst hr
      exact htranslate

end Maps

/-! ## Bytes without write permission -/

/-- The page of the byte is mapped, and may not be written. -/
def Denies (f : Space) (a : Word) : Prop := ∃ p, f a = some p ∧ grants p PROT_WRITE = false

/-- A mapping call of the round takes whole regions. -/
def TakesWhole (answer : HostAnswer) (s : RunState) : Prop :=
  s.AtSvc → s.mem.Whole (svc_map answer (s.ctx.set_pc (s.ctx.pc + 4#64)) s.mem)

/-- What the host runs for the guest keeps off such bytes: the code of a block, which asks no one
before it stores, and the kernel in a system call. -/
structure HostSpares (f : Space) (answer : HostAnswer) (cpu : Cpu) (mem : MemoryManager) : Prop where
  code : ∀ a, Denies f a → ¬ Stores cpu a
  calls : ∀ a, Denies f a → answer.host a = mem.host a

/-- What a `read` brings does not go beyond the end of the address space. -/
def ReadFits (answer : HostAnswer) (s : RunState) : Prop :=
  s.AtSvc → (s.ctx.x 8).setWidth 32 = 63#32 → (0#64).slt answer.ret = true →
    (s.ctx.x 1).toNat + answer.ret.toNat < 2 ^ 64

section Kept

variable {c a pool : Word} {f : Space} {answer : HostAnswer} {cpu : Cpu} {s s' : RunState}
  {ctx : CPUContext} {mem : MemoryManager}

/-- A range with the byte in it is not granted. -/
theorem not_storesAt (ht : mem.Tracks f) (hd : Denies f a) {addr : Word} {k : ℕ} (hk : k < 2 ^ 64)
    (hw : addr.toNat + k < 2 ^ 64) : ¬ mem.StoresAt addr k a := by
  rintro ⟨hgrant, ha⟩
  obtain ⟨p, hp, hdeny⟩ := hd
  have hlen : (BitVec.ofNat 64 k).toNat = k := by
    rw [BitVec.toNat_ofNat, Nat.mod_eq_of_lt hk]
  have hgranted := granted_of_tracks ht (by rwa [hlen]) hgrant (by rwa [hlen])
  have hoff : off addr (a - addr).toNat = a := by
    rw [off, BitVec.ofNat_toNat, BitVec.setWidth_eq, BitVec.add_comm]
    exact BitVec.sub_add_cancel a addr
  rw [hoff, hp, Option.any_some, hdeny] at hgranted
  cases hgranted

/-- So is a store of the interpreter, of at most 8 bytes. -/
theorem not_storesAt_small (ht : mem.Tracks f) (hd : Denies f a) (hlo : 8 ≤ a.toNat)
    (hhi : a.toNat + 8 < 2 ^ 64) {addr : Word} {k : ℕ} (hk : k ≤ 8) : ¬ mem.StoresAt addr k a := by
  rintro ⟨hgrant, ha⟩
  refine not_storesAt ht hd (by omega) ?_ ⟨hgrant, ha⟩
  rw [BitVec.toNat_sub] at ha
  have := addr.isLt
  omega

theorem not_storesTo (ht : mem.Tracks f) (hd : Denies f a) (hlo : 8 ≤ a.toNat)
    (hhi : a.toNat + 8 < 2 ^ 64) (d : DecodedInstr) : ¬ StoresTo (ctx, mem) d a := by
  have hno : ∀ addr k, k ≤ 8 → ¬ mem.StoresAt addr k a :=
    fun addr k hk => not_storesAt_small ht hd hlo hhi hk
  unfold StoresTo
  dsimp only
  split_ifs
  · exact hno _ _ (by decide)
  · exact hno _ _ (by decide)
  · exact hno _ _ (by decide)
  · exact hno _ _ (by decide)
  · exact not_or.mpr ⟨hno _ _ (by decide), hno _ _ (by decide)⟩
  · exact id

/-- A free range does not hold the byte. -/
theorem not_free (ht : mem.Tracks f) (hd : Denies f a) {region : MemRegion} (ha : region.Covers a) :
    ¬ mem.Free region := by
  intro hfree
  obtain ⟨p, hp, -⟩ := hd
  have hnone := ht.outside a fun r hr hra => hfree r hr a ⟨hra, ha⟩
  cases hp.symm.trans hnone

/-- An `mmap` that takes whole regions does not go there. -/
theorem not_mapped (ht : mem.Tracks f) (hd : Denies f a)
    {host_ok : Word → Word → BitVec 32 → Bool} {size hint : Word} {prot : BitVec 32}
    (hwhole : mem.Whole (.mmap host_ok size prot hint)) :
    ¬ (mmap_addr mem hint ≠ 0#64 ∧ host_ok (mmap_addr mem hint) (page_align size) prot = true ∧
      (a - mmap_addr mem hint).toNat < (page_align size).toNat) := by
  rintro ⟨h0, hok, hin⟩
  have hcovers : (mem.mmap_region size prot hint).Covers a := hin
  have hmaps : mem.Maps host_ok size prot hint := ⟨h0, hok⟩
  exact not_free ht hd hcovers (hwhole hmaps)

/-- **A system call** leaves such a byte alone. -/
theorem execute_kept (ht : mem.Tracks f) (hd : Denies f a)
    (hwhole : mem.Whole (svc_map answer ctx mem)) (hhost : answer.host a = mem.host a)
    (hread : (ctx.x 8).setWidth 32 = 63#32 → (0#64).slt answer.ret = true →
      (ctx.x 1).toNat + answer.ret.toNat < 2 ^ 64) :
    (execute answer ctx mem).2.2.host a = mem.host a := by
  by_cases h215 : (ctx.x 8).setWidth 32 = 215#32
  · -- the memory behind the call is what the host leaves
    rw [execute_map, svc_map, if_neg (by rw [h215]; decide), if_neg (by rw [h215]; decide),
      if_pos h215]
    show (mem.munmap _ _ _ _).2.host a = _
    unfold munmap
    dsimp only
    exact hhost
  refine execute_host ?_
  unfold SvcWrites
  unfold svc_map at hwhole
  dsimp only at hwhole ⊢
  generalize (ctx.x 8).setWidth 32 = nr at *
  split_ifs with hneg h63 h64 h222 h226 h214 h216 hexit
  · exact id
  · rintro ⟨hret, hst⟩
    exact not_storesAt ht hd answer.ret.isLt (hread h63 hret) hst
  · exact id
  · rw [if_pos h222] at hwhole
    exact not_mapped ht hd hwhole
  · exact id
  · exact id
  · exact not_not.mpr hhost
  · exact id
  · exact not_not.mpr hhost

/-- **A round** leaves it alone. -/
theorem iterates_kept (hi : Iterates c answer cpu s s') (ht : s.mem.Tracks f) (hd : Denies f a)
    (hpool : Pool pool s.cache.code_pool_used_ s.cache) (hwhole : TakesWhole answer s)
    (hhost : HostSpares f answer cpu s.mem) (hread : ReadFits answer s) (hlo : 8 ≤ a.toNat)
    (hhi : a.toNat + 8 < 2 ^ 64) (hctx : ¬ InCtx c a) (hout : ¬ InPool pool a) :
    s'.mem.host a = s.mem.host a := by
  by_cases hs : s.AtSvc
  · rw [(iterates_svc_iff (iterates_running hi) hs).mp hi]
    exact execute_kept ht hd (hwhole hs) (hhost.calls a hd) (hread hs)
  · refine iterates_host hi fun hw => ?_
    cases hw with
    | ctx h => exact hctx h
    | block _ h => exact hhost.code a hd h
    | slot _ hb h =>
      cases translate_block_takes hpool s.mem s.ctx.pc with
      | refused hnone _ => cases hnone.symm.trans hb
      | slot hb' _ hcode hin _ =>
        obtain rfl := Option.some.inj (hb.symm.trans hb')
        exact hout (inPool_of_inSlot hin (hcode ▸ h))
    | interpreted _ _ _ h => exact not_storesTo ht hd hlo hhi _ h
    | svc hs' _ => exact hs hs'

theorem pool_round (h : Pool pool s.cache.code_pool_used_ s.cache) (hi : Iterates c answer cpu s s') :
    Pool pool s'.cache.code_pool_used_ s'.cache := by
  cases iterates_turns hi with
  | keeps _ _ hpool =>
    refine ⟨hpool.pool.trans h.pool, hpool.size.trans h.size, Nat.le_refl _, ?_⟩
    rw [hpool.used]
    exact h.le
  | translates _ hcache =>
    rw [hcache]
    cases translate_block_takes h s.mem s.ctx.pc with
    | refused _ hp => exact ⟨hp.pool, hp.size, Nat.le_refl _, hp.le⟩
    | slot _ _ _ _ hp => exact ⟨hp.pool, hp.size, Nat.le_refl _, hp.le⟩

end Kept

/-! ## Runs -/

/-- The runs of the loop from `s₀`, with the address space of the guest, `f₀` at first. -/
def SpaceLoop (c : Word) (s₀ : RunState) (f₀ : Space) :
    List ((RunState × Space) × HostAnswer × Cpu) → RunState × Space → Prop :=
  Trace (· = (s₀, f₀)) fun s x s' => Iterates c x.1 x.2 s.1 s'.1 ∧
    s'.2 = s.2.call s.1.mem (round_map x.1 s.1 s'.1)

section Runs

variable {c pool a : Word} {s₀ : RunState} {f₀ : Space} {s : RunState × Space}
  {es : List ((RunState × Space) × HostAnswer × Cpu)}

theorem SpaceLoop.one {answer : HostAnswer} {cpu : Cpu} {s : RunState}
    (h : Iterates c answer cpu s₀ s) : SpaceLoop c s₀ f₀ [((s₀, f₀), answer, cpu)]
      (s, f₀.call s₀.mem (round_map answer s₀ s)) := by
  have hnil : SpaceLoop c s₀ f₀ [] (s₀, f₀) := .nil rfl
  exact Trace.snoc hnil ⟨h, rfl⟩

/-- **The address space in the loop**: a round keeps the regions the address space exactly if its
mapping call takes whole regions. -/
theorem tracks_round_iff {answer : HostAnswer} {cpu : Cpu} {s s' : RunState} {f : Space}
    (hi : Iterates c answer cpu s s') (ht : s.mem.Tracks f) :
    s'.mem.Tracks (f.call s.mem (round_map answer s s')) ↔ TakesWhole answer s := by
  rw [iterates_map hi, tracks_call_iff ht, TakesWhole, round_map]
  split_ifs with hs
  · rw [imp_iff_right hs]
  · exact iff_of_true trivial fun h => absurd h hs

/-- **Protected bytes**: in a run from an empty cache whose mapping calls take whole regions, a byte of
a page that stays without write permission is not changed, if what the host runs keeps off such bytes:
no store of the interpreter, no system call and no new block goes there.  The byte is apart from the
context object, from the pool and from both ends of the address space. -/
theorem protected_kept {capacity : ℕ} (hcache : s₀.cache = .init capacity pool)
    (ht : s₀.mem.Tracks f₀) (h : SpaceLoop c s₀ f₀ es s)
    (hes : ∀ e ∈ es, TakesWhole e.2.1 e.1.1 ∧ HostSpares e.1.2 e.2.1 e.2.2 e.1.1.mem ∧
      ReadFits e.2.1 e.1.1) (hlo : 8 ≤ a.toNat) (hhi : a.toNat + 8 < 2 ^ 64) (hctx : ¬ InCtx c a)
    (hpool : ¬ InPool pool a) (hdenies : ∀ e ∈ es, Denies e.1.2 a) :
    Trace.Throughout (fun s => s.1.mem.host a = s₀.mem.host a) es s := by
  have hinv : Trace.Throughout (fun s => (s.1.mem.Tracks s.2 ∧
      Pool pool s.1.cache.code_pool_used_ s.1.cache) ∧ s.1.mem.host a = s₀.mem.host a) es s := by
    refine Trace.inv_of_good (G := fun s x => (TakesWhole x.1 s.1 ∧
      HostSpares s.2 x.1 x.2 s.1.mem ∧ ReadFits x.1 s.1) ∧ Denies s.2 a) ?_ ?_ h
      fun e he => ⟨hes e he, hdenies e he⟩
    · rintro _ rfl
      refine ⟨⟨ht, ?_⟩, rfl⟩
      rw [hcache]
      exact ⟨rfl, rfl, Nat.le_refl _, Nat.zero_le _⟩
    · rintro ⟨s, f⟩ x ⟨s', f'⟩ ⟨⟨hs, hp⟩, hsame⟩ ⟨⟨hwhole, hhost, hread⟩, hd⟩ ⟨hi, hf⟩
      have hi : Iterates c x.1 x.2 s s' := hi
      have hf : f' = f.call s.mem (round_map x.1 s s') := hf
      subst hf
      have hkept := iterates_kept hi hs hd hp hwhole hhost hread hlo hhi hctx hpool
      exact ⟨⟨(tracks_round_iff hi hs).mpr hwhole, pool_round hp hi⟩, hkept.trans hsame⟩
  exact ⟨fun e he => (hinv.1 e he).2, hinv.2.2⟩

/-- `svc #0` at 0 for a `read` of 16 bytes to 0x5000000, where a page is mapped read-only. -/
def guarded : RunState where
  ctx := ((CPUContext.zero.set_x 8 63#64).set_x 1 0x5000000#64).set_x 2 16#64
  mem := { (svc_state 63#64 0#64).mem with
    regions_ := [{ addr := 0x5000000#64, size := 0x1000#64, perms := PROT_READ }] }
  cache := .init 4 0x10000#64
  iter := 0

/-- Its address space. -/
def guarded_space : Space :=
  Pieces.overlay (MemRegion.Covers ⟨0x5000000#64, 0x1000#64, PROT_READ, false⟩) PROT_READ fun _ => none

/-- The host delivers 16 bytes. -/
def delivered : HostAnswer :=
  { granted with ret := 16#64, host := guarded.mem.host, data := fun _ => 0xFF#8 }

/-- The read is refused, and the page stays as it is. -/
theorem protected_kept_read : ∃ s, SpaceLoop 0x8000#64 guarded guarded_space
      [((guarded, guarded_space), delivered, ⟨0x10#64, .cleared⟩)] s ∧
    s.1.mem.host 0x5000008#64 = guarded.mem.host 0x5000008#64 := by
  have hgo : guarded.Running := ⟨by decide, by decide, by decide⟩
  have hs : guarded.AtSvc := ⟨by decide, 0xD4000001#32, by decide, by decide⟩
  have hi : Iterates 0x8000#64 delivered ⟨0x10#64, .cleared⟩ guarded _ := .svc hgo hs rfl
  have ht : guarded.mem.Tracks guarded_space :=
    (Pieces.represents_concat_iff Pieces.represents_nil _).mpr (List.forall_mem_nil _)
  have hrun : SpaceLoop 0x8000#64 guarded guarded_space _ _ := .one hi
  have hctx : ¬ InCtx 0x8000#64 0x5000008#64 := by
    unfold InCtx
    decide
  have hpool : ¬ InPool 0x10000#64 0x5000008#64 := by
    unfold InPool
    decide
  -- no instruction is at 0x10
  have hidle : ∀ a, ¬ Stores ⟨0x10#64, .cleared⟩ a := by
    rintro a ⟨b, i, n, hb, hnext, -⟩
    have hnone : (⟨0x10#64, .cleared⟩ : Cpu).next = none := by decide
    rcases Relation.ReflTransGen.cases_head hb with rfl | ⟨d, hd, -⟩
    · cases hnone.symm.trans hnext
    · rw [cycle, hnone] at hd
      cases hd
  have hspares : HostSpares guarded_space delivered ⟨0x10#64, .cleared⟩ guarded.mem :=
    ⟨fun a _ => hidle a, fun _ _ => rfl⟩
  exact ⟨_, hrun, (protected_kept rfl ht hrun
    (List.forall_mem_singleton.mpr ⟨fun _ => trivial, hspares, fun _ _ _ => by decide⟩) (by decide)
    (by decide) hctx hpool (List.forall_mem_singleton.mpr ⟨PROT_READ, by decide, by decide⟩)).2⟩

end Runs

end ExecEngine

end Bbarm64
