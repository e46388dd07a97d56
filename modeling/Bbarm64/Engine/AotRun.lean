import Bbarm64.Cache.Aot
import Bbarm64.Engine.Loop

/-!
# Engine.AotRun — blocks that were saved and loaded again

The code of a block does not depend on the address it is emitted for (`code_bytes_eq`).  So a block that
was saved to the AOT directory, and is loaded to wherever the host maps it, does what it did in its slot
(`aot_follows`).
-/

namespace Bbarm64

open X86 ARM64Decoder TranslationCache

namespace ExecEngine

/-- What is saved of the block, right behind its translation. -/
def saved (r : Translation) (block : BlockInfo) : AotBlock where
  host := r.mem.host
  arm_pc := block.arm_pc
  host_code := block.host_code
  host_code_size := block.host_code_size
  arm_instr_count := block.arm_instr_count

/-- The last save for the address is loaded. -/
theorem load_of_last {aot_dir : List Byte} (hdir : aot_dir.length ≤ 490) {fs : HostFiles}
    (hfs : ∀ name, fs (c_str aot_dir ++ [0x2F#8] ++ name ++ fae) = none) {earlier later : List AotBlock}
    {b : AotBlock} {pc : Word} (hlater : ∀ b' ∈ later, b'.arm_pc ≠ pc) (hpc : b.arm_pc = pc)
    {mmap_ok : BitVec 32 → Bool} (hmmap : mmap_ok b.host_code_size = true) (junk : AotLocals)
    (out_size out_instr_count : BitVec 32) :
    load_aot_block ((earlier ++ b :: later).foldl (fun fs b => b.save aot_dir fs) fs) mmap_ok junk pc
      out_size out_instr_count aot_dir = (some b.code, b.host_code_size, b.arm_instr_count) := by
  subst hpc
  have hempty : ∀ pc, fs (aot_path aot_dir pc) = Option.map AotBlock.file none := by
    intro pc
    rw [aot_path_eq hdir]
    exact hfs (hex16 pc)
  have hlog : KeyedLog.replay (save_log (earlier ++ b :: later)) b.arm_pc = some b :=
    KeyedLog.replay_eq_some_iff.mpr ⟨save_log earlier, save_log later, List.map_append,
      fun u hu => ⟨not_sets hlater u hu, not_drops u hu⟩⟩
  have hfiles := files_of_saves hdir hempty (earlier ++ b :: later) b.arm_pc
  rw [← KeyedLog.replay, hlog] at hfiles
  exact load_file hfiles hmmap junk out_size out_instr_count

section Saved

variable {t : TranslationCache} {mem : MemoryManager} {pc : Word} {block : BlockInfo}

/-- **The bytes of the file** are the encoding of the block. -/
theorem saved_code (hb : (translate_block t mem pc).block = some block)
    (hfits : Fits (collect mem max_instr pc) pc) :
    (saved (translate_block t mem pc) block).code =
      encodeAll (blockInstrs (collect mem max_instr pc) pc) := by
  obtain ⟨hcode, hsize, -⟩ := translate_block_codeAt hb
  have hds : ∀ d ∈ collect mem max_instr pc, WellDecoded d := collect_wellDecoded
  have hnull : block.host_code ≠ 0#64 := by
    obtain ⟨_, _, _, -, -, hnull, -, -, rfl⟩ := translate_block_block hb
    exact hnull
  rw [block_code_eq hds hnull ((fits_iff hds).mp hfits)] at hcode hsize
  generalize encodeAll (blockInstrs (collect mem max_instr pc) pc) = code at hcode hsize
  refine List.ext_getElem? fun i => ?_
  show ((List.range block.host_code_size.toNat).map fun i =>
    (translate_block t mem pc).mem.host (off block.host_code i))[i]? = code[i]?
  rw [hsize, List.getElem?_map]
  by_cases hi : i < code.length
  · have hb := List.getElem?_eq_getElem hi
    rw [List.getElem?_range hi, Option.map_some, hcode i _ hb, hb]
  · rw [List.getElem?_eq_none (by rw [List.length_range]; omega), List.getElem?_eq_none (by omega)]
    rfl

/-- **The code is position independent**: with the bytes of the file at any other address, the block
runs undisturbed there, unless it stores there itself. -/
theorem loaded_undisturbed {ds : List DecodedInstr} (hds : ∀ d ∈ ds, WellDecoded d) (hfits : Fits ds pc)
    {code : Word} (hnull : code ≠ 0#64) {st : State}
    (hcode : CodeAt st.mem code (encodeAll (blockInstrs ds pc)))
    (hst : ∀ i t, Performs (encodeAll (blockInstrs ds pc)) st i t → ∀ a, InSlot a code →
      ¬ i.StoresAt t a) : Undisturbed ds pc code st := by
  refine ⟨hds, hfits, hnull, ⟨st.mem, ?_⟩, hst⟩
  rwa [block_code_eq hds hnull ((fits_iff hds).mp hfits)]

/-- **A block of a program, saved and loaded again**: after any saves for other addresses, a load gives
its code and its length.  Wherever the host maps the code, apart from the context object, every
execution of it that does not crash leaves what A64 says of the words it was translated from, and there
is one. -/
theorem aot_follows {is : List A64.Insn} (hrow : Row is (collect mem max_instr pc))
    (hb : (translate_block t mem pc).block = some block) {aot_dir : List Byte}
    (hdir : aot_dir.length ≤ 490) {fs : HostFiles}
    (hfs : ∀ name, fs (c_str aot_dir ++ [0x2F#8] ++ name ++ fae) = none) {earlier later : List AotBlock}
    (hlater : ∀ b ∈ later, b.arm_pc ≠ pc) {mmap_ok : BitVec 32 → Bool}
    (hmmap : ∀ size, 1 ≤ size.toNat → size.toNat < 2 ^ 31 → mmap_ok size = true) (junk : AotLocals)
    (out_size out_instr_count : BitVec 32) :
    ∃ code size n, load_aot_block
        ((earlier ++ saved (translate_block t mem pc) block :: later).foldl
          (fun fs b => b.save aot_dir fs) fs) mmap_ok junk pc out_size out_instr_count aot_dir =
      (some code, size, n) ∧ size.toNat = code.length ∧ n.toNat = is.length ∧
      ∀ c host_code g cpu, host_code ≠ 0#64 → CodeAt g.2.host host_code code →
        (∀ a, InCtx c a → ¬ InSlot a host_code) → Enters c host_code g cpu → g.1.pc = pc →
        (∀ g', Leaves c g cpu g' → g'.1.crashed = false → Follows c g g' (A64.run is (guest g.1))) ∧
          ∃ g', Leaves c g cpu g' ∧ Follows c g g' (A64.run is (guest g.1)) := by
  have hlen : (collect mem max_instr pc).length ≤ max_instr := collect_length_le
  have hfits : Fits (collect mem max_instr pc) pc := hrow.fits hlen
  have hds : ∀ d ∈ collect mem max_instr pc, WellDecoded d := hrow.wellDecoded
  have hcode := saved_code hb hfits
  have hsize : block.host_code_size.toNat = (saved (translate_block t mem pc) block).code.length :=
    ((saved (translate_block t mem pc) block).code_length).symm
  obtain ⟨-, hcount, hle⟩ := translate_block_codeAt hb
  have hpc : (saved (translate_block t mem pc) block).arm_pc = pc := by
    obtain ⟨_, _, _, -, -, -, -, -, rfl⟩ := translate_block_block hb
    rfl
  refine ⟨_, _, _, load_of_last hdir hfs hlater hpc (hmmap _ ?_ ?_) junk out_size out_instr_count,
    hsize, (count_eq_length hb).trans hrow.decodes.length_eq.symm, ?_⟩
  · show 1 ≤ block.host_code_size.toNat
    rw [hsize, hcode]
    exact Nat.le_trans (Nat.succ_pos _) (length_le_size (blockInstrs (collect mem max_instr pc) pc))
  · show block.host_code_size.toNat < 2 ^ 31
    have hslot : slot_size = 4096 := rfl
    have hpow : 4096 < 2 ^ 31 := by decide
    exact Nat.lt_of_le_of_lt (hcount.trans_le hle) (hslot ▸ hpow)
  intro c host_code g cpu hnull hat hapart he hgo
  rw [hcode] at hat
  -- the context object is not in the code
  have hout : ∀ a, InSlot a host_code → 8 * CPUContext.words ≤ (a - c).toNat :=
    fun a ha => Nat.le_of_not_lt fun hc => hapart a hc ha
  refine hrow.leaves hlen (loaded_undisturbed hds hfits hnull (hat.congr fun i hi => ?_) ?_) he hgo
  · refine he.host _ (hout _ ?_)
    have hfit : size (blockInstrs (collect mem max_instr pc) pc) ≤ slot_size := (fits_iff hds).mp hfits
    have hi : i < size (blockInstrs (collect mem max_instr pc) pc) := hi
    have hslot : slot_size = 4096 := rfl
    rw [InSlot, off_sub_self (by omega)]
    omega
  · intro i s hp a ha hs
    have hlt := hrow.performs_storesAt hp hs
    rw [he.rdi] at hlt
    exact Nat.not_lt.mpr (hout a ha) hlt

/-- The block of the two MOVZ of `exit_program`, loaded to 0x7000000. -/
theorem aot_follows_exit : ∃ block is code size n g cpu,
    let r := translate_block exit_start.cache exit_start.mem 0x1000#64
    r.block = some block ∧ load_aot_block ((saved r block).save [0x64#8] fun _ => none)
      (fun size => 1 ≤ size.toNat) ⟨0#32, 0#64, 0#32⟩ 0x1000#64 0#32 0#32 [0x64#8] =
        (some code, size, n) ∧ CodeAt g.2.host 0x7000000#64 code ∧
    ∃ g', Leaves 0x8000#64 g cpu g' ∧ Follows 0x8000#64 g g' (A64.run is (guest g.1)) := by
  have hl := exit_starts.layout
  have hword : exit_start.mem.read_u32 exit_start.ctx.pc = some 0xD2800BA8#32 := by decide
  have hat : exit_start.AtCode 0xD2800BA8#32 := ⟨rfl, hword, by decide⟩
  obtain ⟨⟨-, hsome⟩, -⟩ := (exit_starts.serves exit_room).translate (k := 0) hl rfl (by decide) hat
  obtain ⟨block, hb⟩ := Option.isSome_iff_exists.mp hsome
  obtain ⟨is, -, hrow⟩ := rowAt_collect (k := 0) exit_starts.program rfl (by decide)
  have hdir : ([0x64#8] : List Byte).length ≤ 490 := by decide
  obtain ⟨code, size, n, hload, hsize, -, hrun⟩ := @aot_follows _ _ _ _ _ hrow hb _ hdir (fun _ => none)
    (fun _ => rfl) [] [] (List.forall_mem_nil _) (fun size => 1 ≤ size.toNat)
    (fun _ hpos _ => decide_eq_true hpos) ⟨0#32, 0#64, 0#32⟩ 0#32 0#32
  let host := fill exit_start.mem.host 0x7000000#64 code.length fun i => code.getD i 0#8
  have hbound := size.isLt
  have hcode : CodeAt host 0x7000000#64 code := codeAt_fill _ _ (by omega)
  have hapart : ∀ a, InCtx 0x8000#64 a → ¬ InSlot a 0x7000000#64 := by
    intro a hctx hslot
    simp only [InCtx, InSlot, CPUContext.words, slot_size, BitVec.toNat_sub, BitVec.toNat_ofNat] at *
    omega
  let g : Guest := (exit_start.ctx, { exit_start.mem with host })
  have he : Enters 0x8000#64 0x7000000#64 g (entering 0x8000#64 0x7000000#64 g) := enters_entering _ _ _
  exact ⟨block, is, code, size, n, g, _, hb, hload, hcode,
    (hrun _ _ _ _ (by decide) hcode hapart he rfl).2⟩

end Saved

end ExecEngine

end Bbarm64
