import Bbarm64.Engine.Extent
import Bbarm64.Elf.Segments
import Mathlib.Logic.Relation

/-!
# Engine.Pages — which pages of a block are marked

`translate_block` marks the page in which the block starts.  A block of up to 64 instructions may end
in the next page, and nothing marks that one: all pages of a block are marked, then and behind further
translations, exactly if the block ends in its first page or the last one was marked before
(`pages_marked_iff`).
-/

namespace Bbarm64

open X86 IRBuilder

/-! ## Marks -/

namespace MemoryManager

variable {m : MemoryManager} {a b : Word}

theorem page_eq_iff : a &&& PAGE_MASK = b &&& PAGE_MASK ↔ a.toNat / 4096 = b.toNat / 4096 := by
  have hpage : ∀ v : Word, (v &&& PAGE_MASK).toNat = v.toNat / 4096 * 4096 := ELFLoader.and_not_mask
  rw [← BitVec.toNat_inj, hpage, hpage]
  omega

theorem is_translated_page_iff : m.is_translated_page a = true ↔ a &&& PAGE_MASK ∈ m.translated_pages_ := by
  simp [is_translated_page]

/-- A mark is added to those that are there. -/
theorem is_translated_page_mark : (m.mark_translated_page b).is_translated_page a = true ↔
    a &&& PAGE_MASK = b &&& PAGE_MASK ∨ m.is_translated_page a = true := by
  rw [is_translated_page_iff, is_translated_page_iff]
  unfold mark_translated_page
  dsimp only
  split_ifs with h
  · refine ⟨.inr, fun ha => ha.elim (fun he => ?_) id⟩
    rw [he]
    exact h
  · rw [List.mem_append, List.mem_singleton, or_comm]

end MemoryManager

namespace ExecEngine

/-- A further call of `translate_block`, at any address. -/
def Translating (s s' : TranslationCache × MemoryManager) : Prop :=
  ∃ pc, s' = ((translate_block s.1 s.2 pc).cache, (translate_block s.1 s.2 pc).mem)

/-- Every page of the block is marked behind the call, and behind any further ones. -/
def PagesMarked (cache : TranslationCache) (mem : MemoryManager) (pc : Word) (block : BlockInfo) :
    Prop :=
  ∀ s, Relation.ReflTransGen Translating
      ((translate_block cache mem pc).cache, (translate_block cache mem pc).mem) s →
    ∀ i < 4 * block.arm_instr_count.toNat, s.2.is_translated_page (off pc i) = true

/-- The instructions to translate end in the page of the first one, or the page of the last one is
marked already. -/
def PagesKnown (mem : MemoryManager) (pc : Word) : Prop :=
  let n := (collect mem max_instr pc).length
  pc.toNat % 4096 + 4 * n ≤ 4096 ∨ mem.is_translated_page (off pc (4 * n - 1)) = true

section Pages

variable {cache : TranslationCache} {mem : MemoryManager} {pc a : Word} {block : BlockInfo}

/-- **One call** marks the page of the first instruction, if it makes a block. -/
theorem is_translated_page_translate : (translate_block cache mem pc).mem.is_translated_page a = true ↔
    (translate_block cache mem pc).block.isSome ∧ a &&& PAGE_MASK = pc &&& PAGE_MASK ∨
      mem.is_translated_page a = true := by
  obtain ⟨ir_block, hbuild, -⟩ := build_spec (collect mem max_instr pc) pc
  unfold translate_block
  simp only [hbuild]
  have hhost : ∀ host, ({ mem with host } : MemoryManager).is_translated_page a =
      mem.is_translated_page a := fun _ => rfl
  split_ifs
  · simp
  · simp
  · rw [MemoryManager.is_translated_page_mark, hhost, Option.isSome_some, eq_self, true_and]

/-- Marks stay. -/
theorem is_translated_page_of_translating {s s' : TranslationCache × MemoryManager}
    (h : Relation.ReflTransGen Translating s s') (ha : s.2.is_translated_page a = true) :
    s'.2.is_translated_page a = true := by
  induction h with
  | refl => exact ha
  | tail _ hstep ih =>
    obtain ⟨pc, rfl⟩ := hstep
    exact is_translated_page_translate.mpr (.inr ih)

/-- The pages of the addresses in a block. -/
theorem off_page_iff {i : ℕ} (hi : i < 256) :
    off pc i &&& PAGE_MASK = pc &&& PAGE_MASK ↔ pc.toNat % 4096 + i < 4096 := by
  have hpc := pc.isLt
  rw [MemoryManager.page_eq_iff, off, BitVec.toNat_add, BitVec.toNat_ofNat]
  omega

/-- Behind the first page, a block has one more. -/
theorem off_page_eq {i j : ℕ} (hi : i < 256) (hj : j < 256) (hi' : 4096 ≤ pc.toNat % 4096 + i)
    (hj' : 4096 ≤ pc.toNat % 4096 + j) : off pc i &&& PAGE_MASK = off pc j &&& PAGE_MASK := by
  have hpc := pc.isLt
  rw [MemoryManager.page_eq_iff, off, off, BitVec.toNat_add, BitVec.toNat_add, BitVec.toNat_ofNat,
    BitVec.toNat_ofNat]
  omega

/-- **The pages of a block** are marked behind the call, and behind further ones, exactly if the block
ends in the page it starts in or the page it ends in was marked before. -/
theorem pages_marked_iff (h : (translate_block cache mem pc).block = some block) :
    PagesMarked cache mem pc block ↔ PagesKnown mem pc := by
  have hcount := count_eq_length h
  have hle : (collect mem max_instr pc).length ≤ 64 := collect_length_le
  have hpos := (translate_block_extent h).1
  rw [hcount] at hpos
  unfold PagesMarked PagesKnown
  rw [hcount]
  dsimp only
  generalize (collect mem max_instr pc).length = n at hpos hle ⊢
  have hsome : (translate_block cache mem pc).block.isSome := by
    rw [h]
    rfl
  constructor
  · intro hmarked
    have hlast := hmarked _ .refl (4 * n - 1) (by omega)
    rw [is_translated_page_translate, off_page_iff (by omega)] at hlast
    refine hlast.imp (fun hin => ?_) id
    omega
  · intro hknown s hs i hi
    refine is_translated_page_of_translating hs (is_translated_page_translate.mpr ?_)
    by_cases hin : pc.toNat % 4096 + i < 4096
    · exact .inl ⟨hsome, (off_page_iff (by omega)).mpr hin⟩
    · have hmark := hknown.resolve_left (by omega)
      have hpage : off pc i &&& PAGE_MASK = off pc (4 * n - 1) &&& PAGE_MASK :=
        off_page_eq (by omega) (by omega) (by omega) (by omega)
      refine .inr ?_
      rw [MemoryManager.is_translated_page_iff] at hmark ⊢
      rw [hpage]
      exact hmark

end Pages

/-- 64 `nop`s at the start of a page. -/
theorem pages_marked_iff_nops :
    ∃ block, (translate_block (.init 16 0x10000#64) nops 0x1000#64).block = some block ∧
      PagesMarked (.init 16 0x10000#64) nops 0x1000#64 block := by
  have hnull : ((TranslationCache.init 16 0x10000#64).alloc_host_code slot_size).1 ≠ 0#64 := by decide
  obtain ⟨block, h⟩ := exists_block collect_nops hnull
  have hle : (collect nops max_instr 0x1000#64).length ≤ 64 := collect_length_le
  have hstart : (0x1000#64).toNat % 4096 = 0 := by decide
  refine ⟨block, h, (pages_marked_iff h).mpr (.inl ?_)⟩
  omega

theorem collect_nops_end : (collect nops max_instr 0x1FFC#64).length = 64 := by decide +kernel

/-- Of 64 `nop`s at the end of a page, 63 are in the next one. -/
theorem not_pages_marked :
    ∃ block, (translate_block (.init 16 0x10000#64) nops 0x1FFC#64).block = some block ∧
      ¬ PagesMarked (.init 16 0x10000#64) nops 0x1FFC#64 block := by
  have hnull : ((TranslationCache.init 16 0x10000#64).alloc_host_code slot_size).1 ≠ 0#64 := by decide
  have hds : collect nops max_instr 0x1FFC#64 ≠ [] := by
    intro hnil
    have hlen := collect_nops_end
    rw [hnil] at hlen
    cases hlen
  obtain ⟨block, h⟩ := exists_block hds hnull
  have hcount : block.arm_instr_count.toNat = 64 := (count_eq_length h).trans collect_nops_end
  refine ⟨block, h, fun hmarked => ?_⟩
  have hsecond := hmarked _ .refl 4 (by omega)
  rw [is_translated_page_translate, off_page_iff (by decide)] at hsecond
  rcases hsecond with ⟨-, hin⟩ | hbefore
  · exact absurd hin (by decide)
  · cases hbefore

end ExecEngine

end Bbarm64
