import Bbarm64.Lib.Trace
import Bbarm64.X86.Memory

/-!
# Rust.Alloc — the allocator of the library

`rust_alloc`, `rust_free` and `rust_realloc` compute the layout of a block from the caller's size and align
each time, and fall back to the layout of a `u8` where there is none.  A block for which there is none is
then backed by one byte.  The layouts fit each other, and every block is as large as it was asked for, in
runs whose calls ask for valid layouts or for one byte, and only there (`runs_sound`).
-/

namespace Bbarm64

open X86

namespace RustAlloc

/-- The size rounded up to the next multiple of the align. -/
def round_up (size align : ℕ) : ℕ := (size + align - 1) / align * align

/-- The align is a power of two, and the size rounded up does not overflow `isize`. -/
def ValidLayout (size align : Word) : Prop :=
  (∃ k < 64, align.toNat = 2 ^ k) ∧ round_up size.toNat align.toNat < 2 ^ 63

instance (size align : Word) : Decidable (ValidLayout size align) :=
  inferInstanceAs (Decidable (_ ∧ _))

/-- `std::alloc::Layout` -/
@[ext] structure Layout where
  size : Word
  align : Word
  valid : ValidLayout size align

namespace Layout

def from_size_align (size align : Word) : Option Layout :=
  if h : ValidLayout size align then some ⟨size, align, h⟩ else none

/-- `Layout::new::<u8>()` -/
def u8 : Layout := ⟨1#64, 1#64, by decide⟩

/-- `Layout::from_size_align(size, align).unwrap_or(Layout::new::<u8>())` -/
def or_u8 (size align : Word) : Layout := (from_size_align size align).getD u8

end Layout

/-- A call of the global allocator. -/
inductive AllocCall where
  | alloc (layout : Layout)
  | dealloc (ptr : Word) (layout : Layout)
  | realloc (ptr : Word) (layout : Layout) (new_size : Word)

/-! ## The functions of the library, by the call they make -/

def rust_alloc (size align : Word) : Option AllocCall :=
  if size = 0#64 then none else some (.alloc (.or_u8 size align))

def rust_free (ptr size align : Word) : Option AllocCall :=
  if ptr = 0#64 ∨ size = 0#64 then none else some (.dealloc ptr (.or_u8 size align))

def rust_realloc (ptr old_size new_size align : Word) : Option AllocCall :=
  if ptr = 0#64 then rust_alloc new_size align
  else if new_size = 0#64 then rust_free ptr old_size align
  else some (.realloc ptr (.or_u8 old_size align) new_size)

/-- A call of the caller. -/
inductive Call where
  | alloc (size align : Word)
  | free (ptr size align : Word)
  | realloc (ptr old_size new_size align : Word)

namespace Call

def run : Call → Option AllocCall
  | alloc size align => rust_alloc size align
  | free ptr size align => rust_free ptr size align
  | realloc ptr old_size new_size align => rust_realloc ptr old_size new_size align

/-- The size and the align that the caller asks for. -/
def size : Call → Word
  | alloc size _ => size
  | free _ _ _ => 0#64
  | realloc _ _ new_size _ => new_size

def align : Call → Word
  | alloc _ align => align
  | free _ _ align => align
  | realloc _ _ _ align => align

end Call

/-! ## Runs -/

/-- A block in use: the size asked for last and the align asked for first, and the layout that it has. -/
structure Block where
  size : Word
  align : Word
  layout : Layout

/-- The blocks in use, by their address. -/
abbrev Blocks := Word → Option Block

/-- The caller passes null, or the current size and the original align of a block. -/
def Owned (s : Blocks) (ptr size align : Word) : Prop :=
  ptr = 0#64 ∨ ∃ b, s ptr = some b ∧ b.size = size ∧ b.align = align

def Passes (s : Blocks) : Call → Prop
  | .alloc _ _ => True
  | .free ptr size align => Owned s ptr size align
  | .realloc ptr old_size _ align => Owned s ptr old_size align

/-- `layout` is the one that the block has. -/
def Has (s : Blocks) (ptr : Word) (layout : Layout) : Prop := ∃ b, s ptr = some b ∧ b.layout = layout

/-- What the global allocator does, for a caller that asked for `size` bytes and `align`.  A call that
returns null makes the process abort, so that it has no outcome.  `realloc` keeps the align; it promises
this for a new size that does not overflow, and for the layout that the block has. -/
inductive Answers (s : Blocks) (size align : Word) : AllocCall → Blocks → Prop where
  | alloc {ptr : Word} {layout : Layout} (hnull : ptr ≠ 0#64) (hnew : s ptr = none) :
    Answers s size align (.alloc layout) (Function.update s ptr (some ⟨size, align, layout⟩))
  | dealloc {ptr : Word} {layout : Layout} :
    Answers s size align (.dealloc ptr layout) (Function.update s ptr none)
  | realloc {ptr new_ptr : Word} {layout got : Layout} {new_size : Word} (hnull : new_ptr ≠ 0#64)
    (hnew : new_ptr = ptr ∨ s new_ptr = none)
    (hgot : Has s ptr layout → ValidLayout new_size layout.align →
      got.size = new_size ∧ got.align = layout.align) :
    Answers s size align (.realloc ptr layout new_size)
      (Function.update (Function.update s ptr none) new_ptr (some ⟨size, align, got⟩))

/-- A call of the caller that returns. -/
def Step (s : Blocks) (call : Call) (t : Blocks) : Prop :=
  Passes s call ∧ match call.run with
    | none => t = s
    | some c => Answers s call.size call.align c t

/-- The runs from an empty heap. -/
def Runs : List (Blocks × Call) → Blocks → Prop := Trace (· = fun _ => none) Step

/-! ## Soundness -/

/-- The allocator gets the layout that the block has. -/
def LayoutKept (s : Blocks) : Option AllocCall → Prop
  | none | some (.alloc _) => True
  | some (.dealloc ptr layout) | some (.realloc ptr layout _) => Has s ptr layout

/-- `P` holds of every block. -/
def All (P : Block → Prop) (s : Blocks) : Prop := ∀ ptr b, s ptr = some b → P b

/-- The block is as large as it was asked for. -/
def Block.Backed (b : Block) : Prop := b.size ≤ b.layout.size

/-- There is a layout, or one byte will do. -/
def Fits (size align : Word) : Prop := size = 1#64 ∨ ValidLayout size align

/-- The align of a block: 1 where there is no layout, of whatever size. -/
def kept_align (align : Word) : Word := if ValidLayout 1#64 align then align else 1#64

/-- The sizes and aligns of the call have layouts, or the size is 1; and a new size has one with the align
that the block has. -/
def Call.Fitting : Call → Prop
  | .alloc size align => size = 0#64 ∨ Fits size align
  | .free ptr size align => ptr = 0#64 ∨ Fits size align
  | .realloc ptr old_size new_size align =>
    if ptr = 0#64 then new_size = 0#64 ∨ Fits new_size align
    else Fits old_size align ∧ (new_size = 0#64 ∨ ValidLayout new_size (kept_align align))

/-- The layout of a block is the one asked for, with the align 1 where there is none. -/
structure Block.Regular (b : Block) : Prop where
  pos : b.size ≠ 0#64
  size : b.layout.size = b.size
  align : b.layout.align = kept_align b.align

theorem valid_one {size align : Word} (h : ValidLayout size align) (hsize : size ≠ 0#64) :
    ValidLayout 1#64 align := by
  refine ⟨h.1, Nat.lt_of_le_of_lt ?_ h.2⟩
  have hpos : 1 ≤ size.toNat := Nat.one_le_iff_ne_zero.mpr fun h0 => hsize (BitVec.eq_of_toNat_eq h0)
  refine Nat.mul_le_mul_right _ (Nat.div_le_div_right ?_)
  exact Nat.sub_le_sub_right (Nat.add_le_add_right hpos _) 1

theorem valid_one_kept (align : Word) : ValidLayout 1#64 (kept_align align) := by
  unfold kept_align
  split_ifs with h
  · exact h
  · decide

theorem kept_align_of_valid {size align : Word} (h : ValidLayout size align) (hsize : size ≠ 0#64) :
    kept_align align = align := if_pos (valid_one h hsize)

namespace Layout

theorem or_u8_of_valid {size align : Word} (h : ValidLayout size align) :
    or_u8 size align = ⟨size, align, h⟩ := by
  rw [or_u8, from_size_align, dif_pos h, Option.getD_some]

theorem or_u8_of_not {size align : Word} (h : ¬ ValidLayout size align) : or_u8 size align = u8 := by
  rw [or_u8, from_size_align, dif_neg h, Option.getD_none]

end Layout

/-- The call is made with the layout of its block, and whatever it returns is backed. -/
def Sound (s : Blocks) (call : Call) : Prop :=
  LayoutKept s call.run ∧ ∀ t, Step s call t → All Block.Backed t

section Blocks

variable {size align : Word}

/-- A new block has the bytes that it was asked for exactly if there is a layout, or one byte will do. -/
theorem backed_or_u8_iff (hsize : size ≠ 0#64) :
    (⟨size, align, .or_u8 size align⟩ : Block).Backed ↔ Fits size align := by
  unfold Block.Backed Fits
  by_cases h : ValidLayout size align
  · rw [Layout.or_u8_of_valid h]
    exact iff_of_true (BitVec.le_refl _) (.inr h)
  · rw [Layout.or_u8_of_not h, or_iff_left h]
    show size ≤ 1#64 ↔ size = 1#64
    bv_omega

theorem regular_or_u8 (hsize : size ≠ 0#64) (hfits : Fits size align) :
    (⟨size, align, .or_u8 size align⟩ : Block).Regular := by
  by_cases h : ValidLayout size align
  · rw [Layout.or_u8_of_valid h]
    exact ⟨hsize, rfl, (kept_align_of_valid h hsize).symm⟩
  · obtain rfl := hfits.resolve_right h
    rw [Layout.or_u8_of_not h]
    exact ⟨hsize, rfl, (if_neg h).symm⟩

/-- The layout that is computed for a block again is the one it has. -/
theorem Block.Regular.layout_eq_iff {b : Block} (hb : b.Regular) :
    b.layout = .or_u8 b.size b.align ↔ Fits b.size b.align := by
  unfold Fits
  by_cases h : ValidLayout b.size b.align
  · rw [Layout.or_u8_of_valid h]
    exact iff_of_true (Layout.ext hb.size (hb.align.trans (kept_align_of_valid h hb.pos))) (.inr h)
  · rw [Layout.or_u8_of_not h, or_iff_left h]
    constructor
    · intro heq
      rw [← hb.size, heq]
      rfl
    · intro hone
      rw [hone] at h
      exact Layout.ext (hb.size.trans hone) (hb.align.trans (if_neg h))

theorem Block.Regular.backed {b : Block} (hb : b.Regular) : b.Backed := by
  rw [Block.Backed, hb.size]
  exact BitVec.le_refl _

/-- A change of one entry. -/
theorem All.update {P : Block → Prop} {s : Blocks} (h : All P s) (ptr : Word) {o : Option Block}
    (ho : ∀ b, o = some b → P b) : All P (Function.update s ptr o) := by
  intro p b hb
  by_cases hp : p = ptr
  · rw [hp, Function.update_self] at hb
    exact ho b hb
  · rw [Function.update_of_ne hp] at hb
    exact h p b hb

end Blocks

section Step

variable {s t : Blocks} {call : Call} {ptr size align new_size : Word}

/-- The block that the caller passes, and the layout that is computed for it. -/
theorem has_or_u8_iff (hs : All Block.Regular s) (hown : Owned s ptr size align) (hptr : ptr ≠ 0#64) :
    size ≠ 0#64 ∧ (Has s ptr (.or_u8 size align) ↔ Fits size align) ∧
      ∀ layout, Has s ptr layout → layout.align = kept_align align := by
  obtain ⟨b, hb, rfl, rfl⟩ := hown.resolve_left hptr
  have hreg := hs ptr b hb
  have hlayout : ∀ layout, Has s ptr layout ↔ b.layout = layout := by
    intro layout
    constructor
    · rintro ⟨b', hb', hl⟩
      obtain rfl := Option.some.inj (hb.symm.trans hb')
      exact hl
    · exact fun hl => ⟨b, hb, hl⟩
  refine ⟨hreg.pos, (hlayout _).trans hreg.layout_eq_iff, fun layout hhas => ?_⟩
  rw [← (hlayout layout).mp hhas]
  exact hreg.align

theorem All.backed (hs : All Block.Regular s) : All Block.Backed s :=
  fun ptr b hb => (hs ptr b hb).backed

theorem realloc_null_run (hptr : ptr = 0#64) :
    (Call.realloc ptr size new_size align).run = rust_alloc new_size align := if_pos hptr

theorem realloc_zero_run (hptr : ptr ≠ 0#64) (hnew : new_size = 0#64) :
    (Call.realloc ptr size new_size align).run = rust_free ptr size align :=
  (if_neg hptr).trans (if_pos hnew)

/-! ## One call

`rust_realloc` allocates for a null pointer and frees for the size 0, so the lemmas on these are about
every call that runs as one. -/

section Alloc

variable (hrun : call.run = rust_alloc size align) (hsize : call.size = size)
  (halign : call.align = align)
include hrun hsize halign

theorem alloc_cases (hstep : Step s call t) : size = 0#64 ∧ t = s ∨
    size ≠ 0#64 ∧ ∃ ptr, t = Function.update s ptr (some ⟨size, align, .or_u8 size align⟩) := by
  obtain ⟨-, hres⟩ := hstep
  rw [hrun, hsize, halign, rust_alloc] at hres
  split_ifs at hres with h0
  · exact .inl ⟨h0, hres⟩
  · cases hres with
    | alloc hnull hnew => exact .inr ⟨h0, _, rfl⟩

theorem alloc_regular (hs : All Block.Regular s) (hstep : Step s call t)
    (hfit : size = 0#64 ∨ Fits size align) : All Block.Regular t := by
  rcases alloc_cases hrun hsize halign hstep with ⟨-, rfl⟩ | ⟨h0, ptr, rfl⟩
  · exact hs
  · refine hs.update ptr fun b hb => ?_
    obtain rfl := Option.some.inj hb
    exact regular_or_u8 h0 (hfit.resolve_left h0)

theorem alloc_sound_iff (hs : All Block.Regular s) (hstep : Step s call t) :
    Sound s call ↔ size = 0#64 ∨ Fits size align := by
  constructor
  · rintro ⟨-, hbacked⟩
    refine or_iff_not_imp_left.mpr fun h0 => ?_
    rcases alloc_cases hrun hsize halign hstep with ⟨h, -⟩ | ⟨-, ptr, rfl⟩
    · exact absurd h h0
    · exact (backed_or_u8_iff h0).mp (hbacked _ hstep ptr _ (Function.update_self ptr _ s))
  · intro hfit
    refine ⟨?_, fun t' ht' => (alloc_regular hrun hsize halign hs ht' hfit).backed⟩
    rw [hrun, rust_alloc]
    split_ifs
    · exact trivial
    · exact trivial

end Alloc

section Free

variable (hrun : call.run = rust_free ptr size align)
include hrun

theorem free_cases (hstep : Step s call t) : t = s ∨ t = Function.update s ptr none := by
  obtain ⟨-, hres⟩ := hstep
  rw [hrun, rust_free] at hres
  split_ifs at hres with h0
  · exact .inl hres
  · cases hres with
    | dealloc => exact .inr rfl

theorem free_regular (hs : All Block.Regular s) (hstep : Step s call t) : All Block.Regular t := by
  rcases free_cases hrun hstep with rfl | rfl
  · exact hs
  · refine hs.update ptr fun b hb => ?_
    cases hb

theorem free_sound_iff (hs : All Block.Regular s) (hown : Owned s ptr size align) :
    Sound s call ↔ ptr = 0#64 ∨ Fits size align := by
  have hbacked : ∀ t, Step s call t → All Block.Backed t := fun t ht => (free_regular hrun hs ht).backed
  rw [Sound, and_iff_left hbacked, hrun, rust_free]
  by_cases hptr : ptr = 0#64
  · rw [if_pos (.inl hptr)]
    exact iff_of_true trivial (.inl hptr)
  · obtain ⟨hsize, hhas, -⟩ := has_or_u8_iff hs hown hptr
    rw [if_neg (not_or_intro hptr hsize), or_iff_right hptr]
    exact hhas

end Free

section Realloc

variable (hptr : ptr ≠ 0#64) (hnew : new_size ≠ 0#64)
include hptr hnew

theorem realloc_run : (Call.realloc ptr size new_size align).run =
    some (.realloc ptr (.or_u8 size align) new_size) := by
  show rust_realloc ptr size new_size align = _
  rw [rust_realloc, if_neg hptr, if_neg hnew]

/-- The old block is gone, and the new one has the new size and the old align if the allocator promises
so. -/
theorem realloc_cases (hs : All Block.Regular s) (hstep : Step s (.realloc ptr size new_size align) t)
    (hfit : Fits size align) : ∃ new_ptr got, new_ptr ≠ 0#64 ∧ (new_ptr = ptr ∨ s new_ptr = none) ∧
    (ValidLayout new_size (kept_align align) → got.size = new_size ∧ got.align = kept_align align) ∧
    t = Function.update (Function.update s ptr none) new_ptr (some ⟨new_size, align, got⟩) := by
  obtain ⟨hown, hres⟩ := hstep
  obtain ⟨-, hhas, halign⟩ := has_or_u8_iff hs hown hptr
  rw [realloc_run hptr hnew] at hres
  cases hres with
  | realloc hnull hfree hgot =>
    have hlayout := hhas.mpr hfit
    rw [halign _ hlayout] at hgot
    exact ⟨_, _, hnull, hfree, hgot hlayout, rfl⟩

theorem realloc_regular (hs : All Block.Regular s)
    (hstep : Step s (.realloc ptr size new_size align) t) (hfit : Fits size align)
    (hvalid : ValidLayout new_size (kept_align align)) : All Block.Regular t := by
  obtain ⟨new_ptr, got, -, -, hgot, rfl⟩ := realloc_cases hptr hnew hs hstep hfit
  have hfreed : All Block.Regular (Function.update s ptr none) := hs.update ptr fun b hb => by cases hb
  refine hfreed.update new_ptr fun b hb => ?_
  obtain rfl := Option.some.inj hb
  exact ⟨hnew, (hgot hvalid).1, (hgot hvalid).2⟩

theorem realloc_sound_iff (hs : All Block.Regular s)
    (hstep : Step s (.realloc ptr size new_size align) t) :
    Sound s (.realloc ptr size new_size align) ↔
      Fits size align ∧ ValidLayout new_size (kept_align align) := by
  obtain ⟨-, hhas, halign⟩ := has_or_u8_iff hs hstep.1 hptr
  rw [Sound, realloc_run hptr hnew]
  constructor
  · rintro ⟨hlayout, hbacked⟩
    have hfit : Fits size align := hhas.mp hlayout
    refine ⟨hfit, ?_⟩
    by_contra hinvalid
    -- without its promise the allocator may return a block of one byte
    obtain ⟨new_ptr, got, hnull, hfree, -, -⟩ := realloc_cases hptr hnew hs hstep hfit
    have hanswer : Answers s new_size align (.realloc ptr (.or_u8 size align) new_size)
        (Function.update (Function.update s ptr none) new_ptr (some ⟨new_size, align, .u8⟩)) := by
      refine .realloc hnull hfree fun hkept hvalid => ?_
      rw [halign _ hkept] at hvalid
      exact absurd hvalid hinvalid
    have hstep' : Step s (.realloc ptr size new_size align) _ :=
      ⟨hstep.1, by rw [realloc_run hptr hnew]; exact hanswer⟩
    have hone : new_size ≤ 1#64 := hbacked _ hstep' new_ptr _ (Function.update_self new_ptr _ _)
    have heq : new_size = 1#64 := by
      bv_omega
    rw [heq] at hinvalid
    exact hinvalid (valid_one_kept align)
  · rintro ⟨hfit, hvalid⟩
    exact ⟨hhas.mpr hfit, fun t' ht' => (realloc_regular hptr hnew hs ht' hfit hvalid).backed⟩

end Realloc

/-- **One call** is sound, whatever the allocator answers, exactly if it fits. -/
theorem sound_iff (hs : All Block.Regular s) (hstep : Step s call t) : Sound s call ↔ call.Fitting := by
  cases call with
  | alloc size align => exact alloc_sound_iff rfl rfl rfl hs hstep
  | free ptr size align => exact free_sound_iff rfl hs hstep.1
  | realloc ptr old_size new_size align =>
    simp only [Call.Fitting]
    by_cases hptr : ptr = 0#64
    · rw [if_pos hptr]
      exact alloc_sound_iff (realloc_null_run hptr) rfl rfl hs hstep
    · rw [if_neg hptr]
      by_cases hnew : new_size = 0#64
      · rw [free_sound_iff (realloc_zero_run hptr hnew) hs hstep.1, or_iff_right hptr,
          and_iff_left (.inl hnew)]
      · rw [realloc_sound_iff hptr hnew hs hstep, or_iff_right hnew]

/-- **A call that fits** keeps the blocks regular. -/
theorem regular_step (hs : All Block.Regular s) (hfit : call.Fitting) (hstep : Step s call t) :
    All Block.Regular t := by
  cases call with
  | alloc size align => exact alloc_regular rfl rfl rfl hs hstep hfit
  | free ptr size align => exact free_regular rfl hs hstep
  | realloc ptr old_size new_size align =>
    simp only [Call.Fitting] at hfit
    by_cases hptr : ptr = 0#64
    · rw [if_pos hptr] at hfit
      exact alloc_regular (realloc_null_run hptr) rfl rfl hs hstep hfit
    · rw [if_neg hptr] at hfit
      by_cases hnew : new_size = 0#64
      · exact free_regular (realloc_zero_run hptr hnew) hs hstep
      · exact realloc_regular hptr hnew hs hstep hfit.1 (hfit.2.resolve_left hnew)

/-- **Runs of calls that fit** keep every block backed and are made with the layouts of the blocks; and a
next call that returns is sound, whatever the allocator answers, exactly if it fits. -/
theorem runs_sound {es : List (Blocks × Call)} (h : Runs es s) (hfit : ∀ e ∈ es, e.2.Fitting) :
    (∀ e ∈ es, LayoutKept e.1 e.2.run) ∧ Trace.Throughout (All Block.Backed) es s ∧
      ∀ call t, Step s call t → (Sound s call ↔ call.Fitting) := by
  have hreg : Trace.Throughout (All Block.Regular) es s := by
    refine Trace.inv_of_good (G := fun _ call => call.Fitting) ?_ ?_ h hfit
    · rintro _ rfl ptr b hb
      cases hb
    · exact fun s call t hs hcall hstep => regular_step hs hcall hstep
  refine ⟨fun e he => ?_, ⟨fun e he => (hreg.1 e he).backed, hreg.2.backed⟩, fun call t hstep =>
    sound_iff hreg.2 hstep⟩
  obtain ⟨t, hstep⟩ := h.exists_step he
  exact ((sound_iff (hreg.1 e he) hstep).mpr (hfit e he)).1

end Step

/-- A block of 16 bytes at 0x1000. -/
def sixteen : Blocks :=
  Function.update (fun _ => none) 0x1000#64 (some ⟨16#64, 8#64, .or_u8 16#64 8#64⟩)

/-- It has grown to 100 bytes and moved to 0x2000. -/
def hundred : Blocks :=
  Function.update (Function.update sixteen 0x1000#64 none) 0x2000#64
    (some ⟨100#64, 8#64, ⟨100#64, 8#64, by decide⟩⟩)

theorem sixteen_step : Step (fun _ => none) (.alloc 16#64 8#64) sixteen :=
  ⟨trivial, .alloc (by decide) rfl⟩

theorem hundred_step : Step sixteen (.realloc 0x1000#64 16#64 100#64 8#64) hundred := by
  have hblock : sixteen 0x1000#64 = some ⟨16#64, 8#64, .or_u8 16#64 8#64⟩ := Function.update_self _ _ _
  have hfree : sixteen 0x2000#64 = none := Function.update_of_ne (by decide) _ _
  refine ⟨.inr ⟨_, hblock, rfl, rfl⟩, .realloc (by decide) (.inr hfree) fun _ _ => ⟨rfl, ?_⟩⟩
  rw [Layout.or_u8_of_valid (by decide : ValidLayout 16#64 8#64)]

theorem freed_step :
    Step hundred (.free 0x2000#64 100#64 8#64) (Function.update hundred 0x2000#64 none) := by
  have hblock : hundred 0x2000#64 = some ⟨100#64, 8#64, ⟨100#64, 8#64, by decide⟩⟩ :=
    Function.update_self _ _ _
  exact ⟨.inr ⟨_, hblock, rfl, rfl⟩, .dealloc⟩

/-- A block of 16 bytes that grows to 100, moves and is freed. -/
theorem runs_sound_three : ∃ es s, Runs es s ∧
    es.map (·.2) = [.alloc 16#64 8#64, .realloc 0x1000#64 16#64 100#64 8#64, .free 0x2000#64 100#64 8#64] ∧
    (∀ e ∈ es, LayoutKept e.1 e.2.run) ∧ Trace.Throughout (All Block.Backed) es s ∧
      ∀ call t, Step s call t → (Sound s call ↔ call.Fitting) := by
  have hvalid : ValidLayout 16#64 8#64 := by decide
  have hgrown : ValidLayout 100#64 8#64 := by decide
  have hrun : Runs _ _ := .snoc (.snoc (.snoc (.nil rfl) sixteen_step) hundred_step) freed_step
  refine ⟨_, _, hrun, rfl, runs_sound hrun fun e he => ?_⟩
  simp only [List.nil_append, List.mem_append, List.mem_singleton] at he
  rcases he with (rfl | rfl) | rfl
  · exact .inr (.inr hvalid)
  · refine ⟨.inr hvalid, .inr ?_⟩
    rw [kept_align_of_valid hvalid (by decide)]
    exact hgrown
  · exact .inr (.inr hgrown)

/-- For an align of 3 there is no layout: a block of 100 bytes is backed by one. -/
theorem one_byte_for_hundred : ∃ es s, Runs es s ∧ es.map (·.2) = [.alloc 100#64 3#64] ∧
    ∃ b, s 0x1000#64 = some b ∧ b.size = 100#64 ∧ b.layout.size = 1#64 := by
  have hstep : Step (fun _ => none) (.alloc 100#64 3#64)
      (Function.update (fun _ => none) 0x1000#64 (some ⟨100#64, 3#64, .or_u8 100#64 3#64⟩)) :=
    ⟨trivial, .alloc (by decide) rfl⟩
  refine ⟨_, _, .snoc (.nil rfl) hstep, rfl, _, Function.update_self _ _ _, rfl, ?_⟩
  rw [Layout.or_u8_of_not (by decide)]
  rfl

end RustAlloc

end Bbarm64
