import Bbarm64.Core.Access
import Bbarm64.Core.Protect
import Bbarm64.Lib.Pieces
import Mathlib.Data.List.Find

/-!
# Core.AddressSpace — the recorded regions and the address space of the guest

The host keeps the address space: which bytes are mapped, and with which protection.  The manager
keeps a list of regions, and `check_perms` answers from it.  Over a run of mapping calls the list is
the address space exactly as long as every call goes to a free range or takes whole regions
(`address_space_iff`), and then `check_perms` answers within a page as the address space does
(`address_space_answers`).
-/

namespace Bbarm64

open X86

namespace MemoryManager

/-- The protection of each mapped byte. -/
abbrev Space := Word → Option (BitVec 32)

/-- The byte is in the pages of a call that the host accepted. -/
def Accepted (ret : BitVec 32) (addr size b : Word) : Prop := ret = 0#32 ∧ InPages addr size b

instance (ret : BitVec 32) (addr size : Word) : DecidablePred (Accepted ret addr size) :=
  fun _ => inferInstanceAs (Decidable (_ ∧ _ ∧ _))

/-- A mapping call with all its arguments, with what the host answers; and everything that changes only
the contents of memory and the marks for translated pages. -/
inductive MapCall where
  | mmap (host_ok : Word → Word → BitVec 32 → Bool) (size : Word) (prot : BitVec 32)
    (hint_addr : Word)
  | munmap (ret : BitVec 32) (host : Mem) (addr size : Word)
  | mprotect (ret : BitVec 32) (addr size : Word) (prot : BitVec 32)
  | set_brk (new_brk : Word)
  | access (host : Mem) (pages : List Word)

/-- The manager records a new protection whatever the size is. -/
def MapCall.op : MapCall → MapOp
  | .mmap host_ok size prot hint_addr => .mmap host_ok size prot hint_addr
  | .munmap ret host addr size => .munmap ret host addr size
  | .mprotect ret addr _ prot => .mprotect ret addr prot
  | .set_brk new_brk => .set_brk new_brk
  | .access host pages => .access host pages

/-- The address space behind the call. -/
def Space.call (f : Space) (m : MemoryManager) : MapCall → Space
  | .mmap host_ok size prot hint_addr =>
    if m.Maps host_ok size prot hint_addr then
      Pieces.overlay (m.mmap_region size prot hint_addr).Covers prot f
    else f
  | .munmap ret _ addr size => Pieces.without (Accepted ret addr size) f
  | .mprotect ret addr size prot => Pieces.revalue (Accepted ret addr size) prot f
  | .set_brk _ | .access _ _ => f

/-- The regions are the address space. -/
def Tracks (m : MemoryManager) (f : Space) : Prop :=
  Pieces.Represents MemRegion.Covers MemRegion.perms m.regions_ f

/-- An `mmap` that succeeds goes to a free range.  The bytes of a region that starts in the range of a
`munmap` are unmapped, and no others.  The bytes of the region whose protection an `mprotect` sets get
it from the host, and no others; or they have it. -/
def Whole (m : MemoryManager) : MapCall → Prop
  | .mmap host_ok size prot hint_addr =>
    m.Maps host_ok size prot hint_addr → m.Free (m.mmap_region size prot hint_addr)
  | .munmap ret _ addr size => ∀ r ∈ m.regions_, ∀ b, r.Covers b →
    (starts_in addr (page_align size) r = true ↔ Accepted ret addr size b)
  | .mprotect ret addr size prot => ∀ r ∈ m.regions_, ∀ b, r.Covers b →
    (target addr m.regions_ = some r ↔ Accepted ret addr size b) ∨ r.perms = prot
  | .set_brk _ | .access _ _ => True

/-! ## One call -/

section Calls

variable {m : MemoryManager} {f : Space}

theorem tracks_congr {m m' : MemoryManager} (h : m'.regions_ = m.regions_) :
    m'.Tracks f ↔ m.Tracks f := by
  rw [Tracks, Tracks, h]

theorem tracks_mmap_iff (h : m.Tracks f) (host_ok : Word → Word → BitVec 32 → Bool) (size : Word)
    (prot : BitVec 32) (hint_addr : Word) :
    (m.mmap host_ok size prot hint_addr).2.Tracks (f.call m (.mmap host_ok size prot hint_addr)) ↔
      m.Whole (.mmap host_ok size prot hint_addr) := by
  unfold Tracks Whole Space.call
  rw [mmap_regions]
  by_cases hmaps : m.Maps host_ok size prot hint_addr
  · simp only [if_pos hmaps]
    rw [imp_iff_right hmaps]
    exact Pieces.represents_concat_iff h (m.mmap_region size prot hint_addr)
  · simp only [if_neg hmaps]
    exact iff_of_true h fun hm => absurd hm hmaps

theorem tracks_munmap_iff (h : m.Tracks f) (ret : BitVec 32) (host : Mem) (addr size : Word) :
    (m.munmap ret host addr size).2.Tracks (f.call m (.munmap ret host addr size)) ↔
      m.Whole (.munmap ret host addr size) := by
  rw [Tracks, munmap_regions]
  exact Pieces.represents_filter_iff h (starts_in addr (page_align size))

/-- The list of regions around the one whose protection is set. -/
theorem set_perms_cases (addr : Word) (prot : BitVec 32) (regions : List MemRegion) :
    (target addr regions = none ∧ set_perms addr prot regions = regions) ∨
      ∃ l₁ r l₂, target addr regions = some r ∧ regions = l₁ ++ r :: l₂ ∧
        set_perms addr prot regions = l₁ ++ { r with perms := prot } :: l₂ := by
  induction regions with
  | nil => exact .inl ⟨rfl, rfl⟩
  | cons q regions ih =>
    unfold set_perms
    rw [target, List.find?_cons]
    by_cases hq : q.addr = addr
    · rw [decide_eq_true hq, if_pos hq]
      exact .inr ⟨[], q, regions, rfl, rfl, rfl⟩
    · rw [decide_eq_false hq, if_neg hq]
      rcases ih with ⟨hnone, hsame⟩ | ⟨l₁, r, l₂, hsome, hl, hset⟩
      · exact .inl ⟨hnone, congrArg (q :: ·) hsame⟩
      · exact .inr ⟨q :: l₁, r, l₂, hsome, congrArg (q :: ·) hl, congrArg (q :: ·) hset⟩

theorem tracks_mprotect_iff (h : m.Tracks f) (ret : BitVec 32) (addr size : Word) (prot : BitVec 32) :
    (m.mprotect ret addr prot).2.Tracks (f.call m (.mprotect ret addr size prot)) ↔
      m.Whole (.mprotect ret addr size prot) := by
  show Pieces.Represents MemRegion.Covers MemRegion.perms (set_perms addr prot m.regions_)
    (Pieces.revalue (Accepted ret addr size) prot f) ↔ ∀ q ∈ m.regions_, ∀ b, q.Covers b →
      (target addr m.regions_ = some q ↔ Accepted ret addr size b) ∨ q.perms = prot
  rcases set_perms_cases addr prot m.regions_ with ⟨hnone, hsame⟩ | ⟨l₁, r, l₂, hsome, hl, hset⟩
  · rw [hsame, hnone, Pieces.represents_revalue_iff h]
    have hno : ∀ q : MemRegion, ¬ none = some q := fun _ he => nomatch he
    simp only [hno, false_iff, ← imp_iff_not_or]
  · have h : Pieces.Represents MemRegion.Covers MemRegion.perms (l₁ ++ r :: l₂) f := hl ▸ h
    have hothers : ∀ q ∈ l₁ ++ l₂, ∀ b, q.Covers b → r ≠ q := by
      rintro q hq b hb rfl
      exact h.apart.not_mem_rest hb hq
    have hiff := Pieces.represents_replace_iff (S := Accepted ret addr size)
      (r := { r with perms := prot }) h rfl
    rw [hset, hsome, hl]
    refine hiff.trans ⟨?_, fun hall => ⟨fun b hb => ?_, fun q hq b hb hin => ?_⟩⟩
    · rintro ⟨hthis, hrest⟩ q hq b hb
      rcases Pieces.mem_replace.mp hq with rfl | hq
      · exact (hthis b hb).imp_left fun hin => iff_of_true rfl hin
      · by_cases hin : Accepted ret addr size b
        · exact .inr (hrest q hq b hb hin)
        · exact .inl (iff_of_false (fun he => hothers q hq b hb (Option.some.inj he)) hin)
    · exact (hall r (Pieces.mem_replace.mpr (.inl rfl)) b hb).imp_left fun hi => hi.mp rfl
    · refine (hall q (Pieces.mem_replace.mpr (.inr hq)) b hb).resolve_left fun hi => ?_
      exact hothers q hq b hb (Option.some.inj (hi.mpr hin))

/-- **One call** keeps the regions the address space exactly if it takes whole regions. -/
theorem tracks_call_iff (h : m.Tracks f) (call : MapCall) :
    (m.apply call.op).Tracks (f.call m call) ↔ m.Whole call := by
  cases call with
  | mmap host_ok size prot hint_addr => exact tracks_mmap_iff h host_ok size prot hint_addr
  | munmap ret host addr size => exact tracks_munmap_iff h ret host addr size
  | mprotect ret addr size prot => exact tracks_mprotect_iff h ret addr size prot
  | set_brk new_brk =>
    refine iff_of_true ((tracks_congr ?_).mpr h) trivial
    show (m.set_brk new_brk).2.regions_ = m.regions_
    unfold set_brk
    split_ifs <;> rfl
  | access host pages => exact iff_of_true h trivial

end Calls

/-! ## Runs -/

/-- The runs from `init`, with the address space that the host keeps. -/
def SpaceRuns (host : Mem) (base total_size : Word) :
    List ((MemoryManager × Space) × MapCall) → MemoryManager × Space → Prop :=
  Trace (· = (init host base total_size, fun _ => none))
    fun s call s' => s' = (s.1.apply call.op, s.2.call s.1 call)

section Runs

variable {host : Mem} {base total_size : Word} {es : List ((MemoryManager × Space) × MapCall)}
  {s : MemoryManager × Space}

theorem SpaceRuns.runs (h : SpaceRuns host base total_size es s) :
    Runs host base total_size (es.map fun e => (e.1.1, e.2.op)) s.1 := by
  induction h with
  | nil h =>
    subst h
    exact .nil rfl
  | snoc _ ht ih =>
    subst ht
    rw [List.map_append]
    exact ih.snoc rfl

/-- **The address space**: throughout a run the regions are the address space, byte by byte, exactly if
every call of the run goes to a free range or takes whole regions. -/
theorem address_space_iff (h : SpaceRuns host base total_size es s) :
    Trace.Throughout (fun s => s.1.Tracks s.2) es s ↔ ∀ e ∈ es, e.1.1.Whole e.2 := by
  refine Trace.safe_iff (I := fun _ => True) (G := fun s call => s.1.Whole call) ?_
    (fun _ _ _ _ _ => trivial) ?_ h
  · rintro _ rfl
    exact ⟨trivial, Pieces.represents_nil⟩
  · rintro s call _ _ hs rfl
    exact tracks_call_iff hs call

theorem SpaceRuns.call (h : SpaceRuns host base total_size es s) (call : MapCall) :
    SpaceRuns host base total_size (es ++ [(s, call)]) (s.1.apply call.op, s.2.call s.1 call) :=
  h.snoc rfl

end Runs

/-- `mmap` of three read-write pages at 0x10000. -/
def map_three : MapCall := .mmap maps_user 0x3000#64 (PROT_READ ||| PROT_WRITE) 0x10000#64

/-- `mprotect` of the three pages, to read-only. -/
def protect_three : MapCall := .mprotect 0#32 0x10000#64 0x3000#64 PROT_READ

def fresh_space : MemoryManager × Space := (fresh, fun _ => none)

def three_space : MemoryManager × Space :=
  (fresh.apply map_three.op, fresh_space.2.call fresh map_three)

/-- The two calls. -/
theorem runs_three : SpaceRuns (fun _ => 0#8) 0x100000000#64 0x100000000#64
    [(fresh_space, map_three), (three_space, protect_three)]
    (three_space.1.apply protect_three.op, three_space.2.call three_space.1 protect_three) :=
  (SpaceRuns.call (.nil rfl) map_three).call protect_three

/-- Both take whole regions. -/
theorem three_whole : ∀ e ∈ [(fresh_space, map_three), (three_space, protect_three)],
    e.1.1.Whole e.2 := by
  have hsize : (page_align 0x3000#64).toNat = 0x3000 := by decide
  have hpages : ∀ b : Word, (b - 0x10000#64).toNat < (page_align 0x3000#64).toNat ↔
      Accepted 0#32 0x10000#64 0x3000#64 b := by
    intro b
    rw [sub_toNat_lt_iff (by decide), hsize, Accepted, and_iff_right rfl]
    simp only [InPages, BitVec.toNat_ofNat]
  refine List.forall_mem_cons.mpr ⟨?_, List.forall_mem_singleton.mpr ?_⟩
  · intro _ r hr
    cases hr
  · intro r hr b hb
    obtain rfl := List.mem_singleton.mp hr
    exact .inl (iff_of_true rfl ((hpages b).mp hb))

/-- Mapped and protected. -/
theorem address_space_iff_three : ∃ es s, SpaceRuns (fun _ => 0#8) 0x100000000#64 0x100000000#64 es s ∧
    es.map (·.2) = [map_three, protect_three] ∧
    (Trace.Throughout (fun s => s.1.Tracks s.2) es s ↔ ∀ e ∈ es, e.1.1.Whole e.2) :=
  ⟨_, _, runs_three, rfl, address_space_iff runs_three⟩

/-! ## Answers -/

section Answers

variable {regions : List MemRegion} {f : Space} {needed : BitVec 32}

/-- A region of whole pages contains a range within a page exactly if it holds the first byte. -/
theorem contains_in_page_iff {r : MemRegion} (hr : OnPages r.addr r.size) {a : Word} {k : ℕ}
    (hk : 0 < k) (hpage : a.toNat % 4096 + k ≤ 4096) (hw : a.toNat + k < 2 ^ 64) :
    (r.addr ≤ a ∧ a + BitVec.ofNat 64 k ≤ r.addr + r.size) ↔ r.Covers a := by
  obtain ⟨haddr, hsize, hwrap⟩ := hr
  rw [MemRegion.Covers, sub_toNat_lt_iff (Nat.le_of_lt hwrap), BitVec.le_def, BitVec.le_def,
    BitVec.toNat_add, BitVec.toNat_add, BitVec.toNat_ofNat]
  omega

/-- Within a page, the first byte answers. -/
theorem check_of_tracks (h : Pieces.Represents MemRegion.Covers MemRegion.perms regions f)
    (hr : ∀ r ∈ regions, OnPages r.addr r.size) {a : Word} {k : ℕ} (hk : 0 < k)
    (hpage : a.toNat % 4096 + k ≤ 4096) (hw : a.toNat + k < 2 ^ 64) :
    check_perms_in a (BitVec.ofNat 64 k) needed regions = (f a).any (grants · needed) := by
  have hfind : answering a (BitVec.ofNat 64 k) regions = regions.find? (MemRegion.Covers · a) := by
    refine List.find?_congr fun r hmem => ?_
    exact decide_eq_decide.mpr (contains_in_page_iff (hr r hmem) hk hpage hw)
  rw [check_perms_in_eq, hfind, h.eq_find?, Option.any_map]
  rfl

/-- Each byte of a granted range. -/
theorem granted_of_tracks (h : Pieces.Represents MemRegion.Covers MemRegion.perms regions f)
    {addr len : Word} (hw : addr.toNat + len.toNat < 2 ^ 64)
    (hgrant : check_perms_in addr len needed regions = true) {i : ℕ} (hi : i < len.toNat) :
    (f (off addr i)).any (grants · needed) = true := by
  rw [check_perms_in_eq] at hgrant
  obtain ⟨r, hr, hallow⟩ := (Option.any_eq_true _ _).mp hgrant
  have hin := List.find?_some hr
  rw [decide_eq_true_iff] at hin
  have hcovers := covers_of_contains hw hin.1 hin.2 hi
  rw [h.inside r (List.mem_of_find?_eq_some hr) _ hcovers]
  exact hallow

end Answers

/-- The host maps whole pages of the address space. -/
def MapCall.MapsPages (call : MapCall) : Prop := call.op.MapsIn OnPages

/-- **Answers**: behind a run whose calls take whole regions, with a host that maps whole pages,
`check_perms` answers for an access within a page as the address space does, and it grants no range that
holds a byte which the address space does not grant, unless the range wraps. -/
theorem address_space_answers {host : Mem} {base total_size : Word}
    {es : List ((MemoryManager × Space) × MapCall)} {s : MemoryManager × Space}
    (h : SpaceRuns host base total_size es s) (hes : ∀ e ∈ es, e.1.1.Whole e.2)
    (hpages : ∀ e ∈ es, e.2.MapsPages) (needed : BitVec 32) :
    (∀ a k, 0 < k → a.toNat % 4096 + k ≤ 4096 → a.toNat + k < 2 ^ 64 →
      s.1.check_perms a (BitVec.ofNat 64 k) needed = (s.2 a).any (grants · needed)) ∧
    ∀ addr len : Word, addr.toNat + len.toNat < 2 ^ 64 → s.1.check_perms addr len needed = true →
      ∀ i < len.toNat, (s.2 (off addr i)).any (grants · needed) = true := by
  have htracks : Trace.Throughout (fun s => s.1.Tracks s.2) es s := by
    refine Trace.inv_of_good (G := fun s call => s.1.Whole call) ?_ ?_ h hes
    · rintro _ rfl
      exact Pieces.represents_nil
    · rintro s call _ hs hwhole rfl
      exact (tracks_call_iff hs call).mpr hwhole
  have hr : ∀ r ∈ s.1.regions_, OnPages r.addr r.size := by
    refine ranges_of_runs (P := OnPages) h.runs fun e he => ?_
    obtain ⟨e', he', rfl⟩ := List.mem_map.mp he
    exact hpages e' he'
  exact ⟨fun a k hk hpage hw => check_of_tracks htracks.2 hr hk hpage hw,
    fun addr len hw hgrant i hi => granted_of_tracks htracks.2 hw hgrant hi⟩

/-- A store to the last word of the protected pages is refused. -/
theorem address_space_answers_three : ∃ es s,
    SpaceRuns (fun _ => 0#8) 0x100000000#64 0x100000000#64 es s ∧
    es.map (·.2) = [map_three, protect_three] ∧
    s.1.check_perms 0x12FF8#64 8#64 PROT_WRITE = (s.2 0x12FF8#64).any (grants · PROT_WRITE) ∧
    s.2 0x12FF8#64 = some PROT_READ := by
  have hmap : map_three.MapsPages := by
    intro addr prot hok
    simp only [maps_user, decide_eq_true_eq] at hok
    obtain ⟨haddr, -, hlt⟩ := hok
    refine ⟨Nat.dvd_of_mod_eq_zero ?_, by decide, by omega⟩
    rw [← ELFLoader.and_mask, haddr]
    rfl
  have hpages : ∀ e ∈ [(fresh_space, map_three), (three_space, protect_three)], e.2.MapsPages :=
    List.forall_mem_cons.mpr ⟨hmap, List.forall_mem_singleton.mpr trivial⟩
  refine ⟨_, _, runs_three, rfl, ?_, by decide⟩
  exact (address_space_answers runs_three three_whole hpages PROT_WRITE).1 0x12FF8#64 8 (by decide)
    (by decide) (by decide)

end MemoryManager

end Bbarm64
