import Bbarm64.Lib.Files
import Bbarm64.Lib.KeyedLog
import Bbarm64.X86.Codec

/-!
# Cache.Aot — `save_aot_block` and `load_aot_block`

A block goes to a file of its own: magic, guest address, code size and instruction count, then the
code.  Each directory is a store of blocks by guest address (`files_of_saves`), since the name of a
file determines the address (`aot_path_inj`) and loading undoes saving.

Two names of a directory are two files.  The calls to the file system complete; whether `open` for
writing and the anonymous `::mmap` succeed is an argument.
-/

namespace Bbarm64

open X86 KeyedLog

namespace TranslationCache

/-! ## Names -/

/-- The C string of a `std::string`: it ends at a NUL. -/
def c_str (s : List Byte) : List Byte := s.takeWhile (· ≠ 0#8)

def hex_digit (d : BitVec 4) : Byte :=
  if d < 10#4 then 0x30#8 + d.setWidth 8 else 0x57#8 + d.setWidth 8

/-- `%016lx` -/
def hex16 (v : Word) : List Byte :=
  (List.range 16).map fun i => hex_digit (v.extractLsb' (4 * (15 - i)) 4)

/-- `.fae` -/
def fae : List Byte := [0x2E#8, 0x66#8, 0x61#8, 0x65#8]

/-- `sizeof(path)` -/
def path_size : ℕ := 512

/-- `snprintf(path, sizeof(path), "%s/%016lx.fae", aot_dir.c_str(), arm_pc)`, without the
terminator. -/
def aot_path (aot_dir : List Byte) (arm_pc : Word) : List Byte :=
  (c_str aot_dir ++ [0x2F#8] ++ hex16 arm_pc ++ fae).take (path_size - 1)

/-! ## Saving and loading -/

/-- `FAEC` -/
def aot_magic : BitVec 32 := 0x46414543#32

abbrev HostFiles := Files (List Byte) Byte

/-- The bytes of a block. -/
def code_bytes (host : Mem) (host_code : Word) (host_code_size : BitVec 32) : List Byte :=
  (List.range host_code_size.toNat).map fun i => host (off host_code i)

def save_aot_block (fs : HostFiles) (open_ok : Bool) (host : Mem) (arm_pc host_code : Word)
    (host_code_size arm_instr_count : BitVec 32) (aot_dir : List Byte) : Bool × HostFiles :=
  if open_ok then
    let (fd, fs) := fs.create (aot_path aot_dir arm_pc)
    -- Write header
    let (fd, fs) := fs.write fd (le32 aot_magic)
    let (fd, fs) := fs.write fd (le64 arm_pc)
    let (fd, fs) := fs.write fd (le32 host_code_size)
    let (fd, fs) := fs.write fd (le32 arm_instr_count)
    -- Write code
    (true, (fs.write fd (code_bytes host host_code host_code_size)).2)
  else (false, fs)

/-- What the uninitialised locals of `load_aot_block` happen to hold. -/
structure AotLocals where
  magic : BitVec 32
  stored_pc : Word
  host_size : BitVec 32

/-- A variable with value `old`, after a read of `bytes` into it. -/
def into32 (old : BitVec 32) (bytes : List Byte) : BitVec 32 :=
  (getLe32 (bytes ++ (le32 old).drop bytes.length)).getD old

def into64 (old : Word) (bytes : List Byte) : Word :=
  (getLe64 (bytes ++ (le64 old).drop bytes.length)).getD old

/-- The code, or the null pointer; `out_size` and `out_instr_count`. -/
abbrev AotLoad := Option (List Byte) × BitVec 32 × BitVec 32

def load_aot_block (fs : HostFiles) (mmap_ok : BitVec 32 → Bool) (junk : AotLocals) (arm_pc : Word)
    (out_size out_instr_count : BitVec 32) (aot_dir : List Byte) : AotLoad :=
  match fs.openRead (aot_path aot_dir arm_pc) with
  | none => (none, out_size, out_instr_count)
  | some fd =>
    -- Read and verify header
    let (bytes, fd) := fs.read fd 4
    if bytes.length ≠ 4 ∨ into32 junk.magic bytes ≠ aot_magic then (none, out_size, out_instr_count)
    else
      let (bytes, fd) := fs.read fd 8
      let stored_pc := into64 junk.stored_pc bytes
      let (bytes, fd) := fs.read fd 4
      let host_size := into32 junk.host_size bytes
      let (bytes, fd) := fs.read fd 4
      let out_instr_count := into32 out_instr_count bytes
      if stored_pc ≠ arm_pc then (none, out_size, out_instr_count)
      else if !mmap_ok host_size then (none, out_size, out_instr_count)
      else
        -- Read code
        let (code, _) := fs.read fd host_size.toNat
        if code.length ≠ host_size.toNat then (none, out_size, out_instr_count)
        else (some code, host_size, out_instr_count)

/-! ## One file -/

/-- What a `save_aot_block` call saves. -/
structure AotBlock where
  host : Mem
  arm_pc : Word
  host_code : Word
  host_code_size : BitVec 32
  arm_instr_count : BitVec 32

namespace AotBlock

def code (b : AotBlock) : List Byte := code_bytes b.host b.host_code b.host_code_size

/-- The file of a block. -/
def file (b : AotBlock) : List Byte :=
  le32 aot_magic ++ le64 b.arm_pc ++ le32 b.host_code_size ++ le32 b.arm_instr_count ++ b.code

/-- The files behind the call. -/
def save (aot_dir : List Byte) (fs : HostFiles) (b : AotBlock) : HostFiles :=
  (save_aot_block fs true b.host b.arm_pc b.host_code b.host_code_size b.arm_instr_count aot_dir).2

@[simp] theorem code_length (b : AotBlock) : b.code.length = b.host_code_size.toNat := by
  simp [code, code_bytes]

/-- A save leaves the file of its block under its path. -/
theorem save_eq (aot_dir : List Byte) (fs : HostFiles) (b : AotBlock) :
    b.save aot_dir fs = fs.put (aot_path aot_dir b.arm_pc) b.file := by
  have hstart : ∀ name : List Byte,
      fs.create name = (⟨name, ([] : List Byte).length⟩, fs.put name []) := fun _ => rfl
  simp only [save, save_aot_block, if_true, hstart, Files.write_put]
  rfl

end AotBlock

@[simp] theorem into32_le32 (old v : BitVec 32) : into32 old (le32 v) = v := by
  rw [into32, getLe32_le32, Option.getD_some]

@[simp] theorem into64_le64 (old v : Word) : into64 old (le64 v) = v := by
  rw [into64, getLe64_le64, Option.getD_some]

section Load

variable {fs : HostFiles} {mmap_ok : BitVec 32 → Bool} {aot_dir : List Byte}

/-- **Loading undoes saving.** -/
theorem load_file {b : AotBlock} (hfile : fs (aot_path aot_dir b.arm_pc) = some b.file)
    (hmap : mmap_ok b.host_code_size = true) (junk : AotLocals)
    (out_size out_instr_count : BitVec 32) :
    load_aot_block fs mmap_ok junk b.arm_pc out_size out_instr_count aot_dir =
      (some b.code, b.host_code_size, b.arm_instr_count) := by
  obtain ⟨fd, hopen, hrest⟩ := Files.openRead_eq_some hfile
  simp only [AotBlock.file, List.append_assoc] at hrest
  obtain ⟨fd₁, hread₁, hrest⟩ := Files.read_of_rest hrest (le32_length _)
  obtain ⟨fd₂, hread₂, hrest⟩ := Files.read_of_rest hrest (le64_length _)
  obtain ⟨fd₃, hread₃, hrest⟩ := Files.read_of_rest hrest (le32_length _)
  obtain ⟨fd₄, hread₄, hrest⟩ := Files.read_of_rest hrest (le32_length _)
  obtain ⟨fd₅, hread₅, -⟩ := Files.read_of_rest (hrest.trans (List.append_nil _).symm) b.code_length
  simp [load_aot_block, hopen, hread₁, hread₂, hread₃, hread₄, hread₅, hmap]

theorem load_none {arm_pc : Word} (hfile : fs (aot_path aot_dir arm_pc) = none) (junk : AotLocals)
    (out_size out_instr_count : BitVec 32) :
    (load_aot_block fs mmap_ok junk arm_pc out_size out_instr_count aot_dir).1 = none := by
  rw [load_aot_block, Files.openRead_eq_none hfile]

end Load

/-! ## Cut files -/

section Cut

variable {fs : HostFiles} {mmap_ok : BitVec 32 → Bool} {aot_dir : List Byte}

/-- What a load returns for a file of any content: each read gives the bytes that are there, and a
variable keeps what it held behind them. -/
theorem load_eq {arm_pc : Word} {content : List Byte}
    (hfile : fs (aot_path aot_dir arm_pc) = some content) (junk : AotLocals)
    (out_size out_instr_count : BitVec 32) :
    let host_size := into32 junk.host_size ((content.drop 12).take 4)
    let code := (content.drop 20).take host_size.toNat
    (load_aot_block fs mmap_ok junk arm_pc out_size out_instr_count aot_dir).1 =
      if ((content.take 4).length = 4 ∧ into32 junk.magic (content.take 4) = aot_magic) ∧
        into64 junk.stored_pc ((content.drop 4).take 8) = arm_pc ∧ mmap_ok host_size = true ∧
        code.length = host_size.toNat then some code
      else none := by
  intro host_size code
  obtain ⟨fd, hopen, hrest⟩ := Files.openRead_eq_some hfile
  obtain ⟨fd₁, hread₁, hrest₁⟩ := fs.read_rest fd 4
  rw [hrest] at hread₁ hrest₁
  obtain ⟨fd₂, hread₂, hrest₂⟩ := fs.read_rest fd₁ 8
  rw [hrest₁] at hread₂ hrest₂
  obtain ⟨fd₃, hread₃, hrest₃⟩ := fs.read_rest fd₂ 4
  have hat₂ : fs.rest fd₂ = content.drop 12 := hrest₂.trans List.drop_drop
  rw [hat₂] at hread₃ hrest₃
  obtain ⟨fd₄, hread₄, hrest₄⟩ := fs.read_rest fd₃ 4
  have hat₃ : fs.rest fd₃ = content.drop 16 := hrest₃.trans List.drop_drop
  rw [hat₃] at hread₄ hrest₄
  have hcode : (fs.read fd₄ host_size.toNat).1 = code := by
    show (fs.rest fd₄).take host_size.toNat = code
    rw [hrest₄, List.drop_drop]
  unfold load_aot_block
  simp only [hopen, hread₁, hread₂, hread₃, hread₄]
  change Prod.fst (ite _ _ (ite _ _ (ite ((!mmap_ok host_size) = true) _
    (ite ((fs.read fd₄ host_size.toNat).1.length ≠ host_size.toNat) _ _)))) = _
  rw [hcode]
  by_cases hmagic : (content.take 4).length = 4 ∧ into32 junk.magic (content.take 4) = aot_magic
  · rw [if_neg (not_or.mpr ⟨not_not_intro hmagic.1, not_not_intro hmagic.2⟩)]
    by_cases hpc : into64 junk.stored_pc ((content.drop 4).take 8) = arm_pc
    · rw [if_neg (not_not_intro hpc)]
      by_cases hmap : mmap_ok host_size = true
      · by_cases hlen : code.length = host_size.toNat
        · simp [hmagic, hpc, hmap, hlen]
        · simp [hmap, hlen]
      · simp [hmap]
    · simp [hpc]
  · rw [if_pos (not_and_or.mp hmagic), if_neg fun h => hmagic h.1]

theorem AotBlock.file_length (b : AotBlock) : b.file.length = 20 + b.host_code_size.toNat := by
  simp only [AotBlock.file, List.length_append, le32_length, le64_length, AotBlock.code_length]

/-- The size field of a file. -/
theorem AotBlock.file_size (b : AotBlock) : (b.file.drop 12).take 4 = le32 b.host_code_size := by
  have hsplit : b.file = (le32 aot_magic ++ le64 b.arm_pc) ++
      (le32 b.host_code_size ++ (le32 b.arm_instr_count ++ b.code)) := by
    simp only [AotBlock.file, List.append_assoc]
  have hhead : (le32 aot_magic ++ le64 b.arm_pc).length = 12 := by
    rw [List.length_append, le32_length, le64_length]
  rw [hsplit, ← hhead, List.drop_left, ← le32_length b.host_code_size, List.take_left]

/-- **Cut files are refused**: a load of a saved file from which bytes are missing at the end returns the
null pointer, wherever the cut is and whatever the locals hold.  `::mmap` refuses an empty mapping. -/
theorem load_cut {b : AotBlock} (hsize : 1 ≤ b.host_code_size.toNat) {saved : HostFiles}
    {content cut : List Byte}
    (hsaved : b.save aot_dir saved (aot_path aot_dir b.arm_pc) = some content)
    (hcut : cut <+: content) (hne : cut ≠ content)
    (hfile : fs (aot_path aot_dir b.arm_pc) = some cut) (hmap : mmap_ok 0#32 = false)
    (junk : AotLocals) (out_size out_instr_count : BitVec 32) :
    (load_aot_block fs mmap_ok junk b.arm_pc out_size out_instr_count aot_dir).1 = none := by
  rw [AotBlock.save_eq, Files.put_same] at hsaved
  obtain rfl := Option.some.inj hsaved
  have hlt : cut.length < 20 + b.host_code_size.toNat := by
    rw [← b.file_length]
    exact Nat.lt_of_le_of_ne hcut.length_le fun he => hne (hcut.eq_of_length he)
  rw [load_eq hfile, if_neg]
  rintro ⟨-, -, hok, hlen⟩
  rw [List.length_take, List.length_drop] at hlen
  by_cases hheader : 16 ≤ cut.length
  · -- the size is there, and then the code is too short
    have hfield : (cut.drop 12).take 4 = le32 b.host_code_size := by
      obtain ⟨tail, htail⟩ := hcut
      have hdrop : 4 ≤ (cut.drop 12).length := by
        rw [List.length_drop]
        omega
      rw [← b.file_size, ← htail, List.drop_append_of_le_length (by omega),
        List.take_append_of_le_length hdrop]
    rw [hfield, into32_le32] at hlen
    omega
  · -- the file ends before the code, so only an empty mapping would be full
    have hzero : into32 junk.host_size ((cut.drop 12).take 4) = 0#32 := by
      apply BitVec.eq_of_toNat_eq
      rw [BitVec.toNat_ofNat]
      omega
    rw [hzero, hmap] at hok
    cases hok

/-- `size` bytes of NOPs for the guest address. -/
def nops (arm_pc : Word) (size : BitVec 32) : AotBlock :=
  ⟨fun _ => 0x90#8, arm_pc, 0x1000#64, size, 1#32⟩

/-- A cut within the size field, where the local happens to hold the size of the block. -/
theorem load_cut_in_size :
    (load_aot_block (fun _ => some ((nops 0x400000#64 3#32).file.take 14)) (fun size => 1 ≤ size.toNat)
      ⟨aot_magic, 0x400000#64, 3#32⟩ 0x400000#64 0#32 0#32 [0x64#8]).1 = none := by
  have hsaved : (nops 0x400000#64 3#32).save [0x64#8] (fun _ => none)
      (aot_path [0x64#8] 0x400000#64) = some (nops 0x400000#64 3#32).file := by
    rw [AotBlock.save_eq]
    exact Files.put_same _ _ _
  exact load_cut (by decide) hsaved (List.take_prefix 14 _) (by decide) rfl (by decide) _ _ _

end Cut

/-! ## Names determine addresses -/

theorem hex_digit_inj : ∀ d e : BitVec 4, hex_digit d = hex_digit e → d = e := by decide

theorem hex16_length (v : Word) : (hex16 v).length = 16 := by simp [hex16]

/-- The sixteen digits are the number. -/
theorem hex16_inj {v w : Word} (h : hex16 v = hex16 w) : v = w := by
  have hdigit : ∀ i < 16, v.extractLsb' (4 * i) 4 = w.extractLsb' (4 * i) 4 := by
    intro i hi
    have hmem : 15 - i ∈ List.range 16 := List.mem_range.mpr (by omega)
    have he := hex_digit_inj _ _ (List.map_inj_left.mp h _ hmem)
    rwa [Nat.sub_sub_self (by omega)] at he
  apply BitVec.eq_of_getLsbD_eq
  intro j hj
  have he := congrArg (·.getLsbD (j % 4)) (hdigit (j / 4) (by omega))
  simpa only [BitVec.getLsbD_extractLsb', Nat.mod_lt _ (Nat.zero_lt_succ 3), decide_true,
    Bool.true_and, Nat.div_add_mod] using he

theorem c_str_length_le (s : List Byte) : (c_str s).length ≤ s.length :=
  (List.takeWhile_sublist _).length_le

/-- The buffer is large enough. -/
theorem aot_path_eq {aot_dir : List Byte} (hdir : aot_dir.length ≤ 490) (arm_pc : Word) :
    aot_path aot_dir arm_pc = c_str aot_dir ++ [0x2F#8] ++ hex16 arm_pc ++ fae := by
  have hlen := c_str_length_le aot_dir
  refine List.take_of_length_le ?_
  simp only [List.length_append, hex16_length, fae, List.length_cons,
    List.length_nil, path_size]
  omega

theorem aot_path_inj {aot_dir : List Byte} (hdir : aot_dir.length ≤ 490) {p q : Word}
    (h : aot_path aot_dir p = aot_path aot_dir q) : p = q := by
  rw [aot_path_eq hdir, aot_path_eq hdir] at h
  exact hex16_inj (List.append_cancel_left (List.append_cancel_right h))

/-! ## The directory as a store -/

/-- The saves of a sequence, as updates of a store of blocks by guest address. -/
def save_log (blocks : List AotBlock) : List (Update Word AotBlock) :=
  blocks.map fun b => .set b.arm_pc b

/-- **One save** of the directory is one update of the store. -/
theorem save_refines {aot_dir : List Byte} (hdir : aot_dir.length ≤ 490) {fs : HostFiles}
    {m : Word → Option AotBlock} (h : ∀ pc, fs (aot_path aot_dir pc) = (m pc).map AotBlock.file)
    (b : AotBlock) (pc : Word) : b.save aot_dir fs (aot_path aot_dir pc) =
      ((Update.set b.arm_pc b).apply m pc).map AotBlock.file := by
  rw [AotBlock.save_eq, Update.apply]
  by_cases hpc : pc = b.arm_pc
  · rw [hpc, Files.put_same, Function.update_self, Option.map_some]
  · rw [Files.put_of_ne _ fun he => hpc (aot_path_inj hdir he), Function.update_of_ne hpc, h]

/-- **A run of saves** is the run of the store. -/
theorem files_of_saves {aot_dir : List Byte} (hdir : aot_dir.length ≤ 490) {fs : HostFiles}
    {m : Word → Option AotBlock} (h : ∀ pc, fs (aot_path aot_dir pc) = (m pc).map AotBlock.file)
    (blocks : List AotBlock) (pc : Word) :
    blocks.foldl (fun fs b => b.save aot_dir fs) fs (aot_path aot_dir pc) =
      (replayFrom m (save_log blocks) pc).map AotBlock.file := by
  induction blocks generalizing fs m with
  | nil => exact h pc
  | cons b blocks ih => exact ih (save_refines hdir h b)

theorem not_sets {blocks : List AotBlock} {pc : Word} (h : ∀ b ∈ blocks, b.arm_pc ≠ pc) :
    ∀ u ∈ save_log blocks, ¬ u.Sets pc := by
  intro u hu
  obtain ⟨b, hb, rfl⟩ := List.mem_map.mp hu
  rintro ⟨b', he⟩
  cases he
  exact h b hb rfl

theorem not_drops {blocks : List AotBlock} {pc : Word} :
    ∀ u ∈ save_log blocks, ¬ u.Drops pc := by
  intro u hu
  obtain ⟨b, -, rfl⟩ := List.mem_map.mp hu
  exact id

/-- **The last save is loaded**: in a directory without `.fae` files at first, a load returns the last
block saved for the address, and the null pointer for an address never saved. -/
theorem load_last_save {aot_dir : List Byte} (hdir : aot_dir.length ≤ 490) {fs : HostFiles}
    (hfs : ∀ name, fs (c_str aot_dir ++ [0x2F#8] ++ name ++ fae) = none) {blocks : List AotBlock}
    (hsize : ∀ b ∈ blocks, 1 ≤ b.host_code_size.toNat ∧ b.host_code_size.toNat < 2 ^ 31)
    {mmap_ok : BitVec 32 → Bool}
    (hmmap : ∀ size, 1 ≤ size.toNat → size.toNat < 2 ^ 31 → mmap_ok size = true)
    (junk : AotLocals) (pc : Word) (out_size out_instr_count : BitVec 32) :
    let load := load_aot_block (blocks.foldl (fun fs b => b.save aot_dir fs) fs) mmap_ok junk pc
      out_size out_instr_count aot_dir
    (∀ earlier b later, blocks = earlier ++ b :: later → b.arm_pc = pc →
        (∀ b' ∈ later, b'.arm_pc ≠ pc) →
        load = (some b.code, b.host_code_size, b.arm_instr_count)) ∧
      ((∀ b ∈ blocks, b.arm_pc ≠ pc) → load.1 = none) := by
  have hempty : ∀ pc, fs (aot_path aot_dir pc) = Option.map AotBlock.file none := by
    intro pc
    rw [aot_path_eq hdir]
    exact hfs (hex16 pc)
  have hfiles := files_of_saves hdir hempty blocks pc
  constructor
  · rintro earlier b later rfl rfl hlater
    have hlog : replay (save_log (earlier ++ b :: later)) b.arm_pc = some b := by
      refine replay_eq_some_iff.mpr ⟨save_log earlier, save_log later, List.map_append, ?_⟩
      exact fun u hu => ⟨not_sets hlater u hu, not_drops u hu⟩
    rw [← replay, hlog] at hfiles
    obtain ⟨hpos, hlt⟩ := hsize b List.mem_append_cons_self
    exact load_file hfiles (hmmap _ hpos hlt) junk out_size out_instr_count
  · intro hnone
    rcases replayFrom_of_not_sets (m := fun _ => none) (not_sets hnone) with ⟨-, h⟩ | ⟨-, h⟩
    · rw [h] at hfiles
      exact load_none hfiles junk out_size out_instr_count
    · rw [h] at hfiles
      exact load_none hfiles junk out_size out_instr_count

/-- A save over a longer file, in the directory `d`. -/
theorem load_last_save_shorter :
    load_aot_block ([nops 0x400000#64 3#32, nops 0x400010#64 2#32, nops 0x400000#64 1#32].foldl
        (fun fs b => b.save [0x64#8] fs) fun _ => none) (fun size => 1 ≤ size.toNat)
        ⟨0#32, 0#64, 0#32⟩ 0x400000#64 0#32 0#32 [0x64#8] = (some [0x90#8], 1#32, 1#32) :=
  (load_last_save (by decide) (fun _ => rfl) (by decide) (fun _ hpos _ => decide_eq_true hpos)
    ⟨0#32, 0#64, 0#32⟩ 0x400000#64 0#32 0#32).1
      [nops 0x400000#64 3#32, nops 0x400010#64 2#32] (nops 0x400000#64 1#32) [] rfl rfl
      (List.forall_mem_nil _)

end TranslationCache

end Bbarm64
