import Mathlib.Algebra.Group.Nat.Defs
import Mathlib.Tactic.Common
import Mathlib.Logic.Function.Basic

/-!
# X86.Memory — flat byte memory with little-endian words

`Mem` maps a 64-bit address to a byte.  `read32`/`read64` assemble bytes least significant first and
`writeN k` stores the low `k` bytes of a value.  `word m c o` is the 64-bit word at byte offset `o`
of an object at `c`; `Outside c n m m'` says that only the `n` bytes from `c` on may have changed.
All address arithmetic wraps, and distances are taken modulo `2 ^ 64`.
-/

namespace X86

abbrev Byte := BitVec 8
abbrev Word := BitVec 64
abbrev Mem := BitVec 64 → BitVec 8

/-- Byte `i` of `v`, counted from the least significant one. -/
def byteAt {n : ℕ} (v : BitVec n) (i : ℕ) : Byte := v.extractLsb' (8 * i) 8

/-- The four bytes of `v`, least significant first. -/
def le32 (v : BitVec 32) : List Byte := [byteAt v 0, byteAt v 1, byteAt v 2, byteAt v 3]

/-- The eight bytes of `v`, least significant first. -/
def le64 (v : BitVec 64) : List Byte :=
  le32 (v.extractLsb' 0 32) ++ le32 (v.extractLsb' 32 32)

def read16 (m : Mem) (a : Word) : BitVec 16 := m (a + 1#64) ++ m a

def read32 (m : Mem) (a : Word) : BitVec 32 := m (a + 3#64) ++ m (a + 2#64) ++ m (a + 1#64) ++ m a

def read64 (m : Mem) (a : Word) : BitVec 64 := read32 m (a + 4#64) ++ read32 m a

/-- Store the low `k` bytes of `v` at `a`. -/
def writeN {n : ℕ} (k : ℕ) (m : Mem) (a : Word) (v : BitVec n) : Mem :=
  fun b => if (b - a).toNat < k then byteAt v (b - a).toNat else m b

/-- Store `f 0`, …, `f (n - 1)` at `a` and up. -/
def fill (m : Mem) (a : Word) (n : ℕ) (f : ℕ → Byte) : Mem :=
  fun b => if (b - a).toNat < n then f (b - a).toNat else m b

/-! ### Bytes of a value -/

@[simp] theorem le32_length (v : BitVec 32) : (le32 v).length = 4 := rfl

@[simp] theorem le64_length (v : BitVec 64) : (le64 v).length = 8 := rfl

theorem byteAt_append32 (v : BitVec 32) :
    byteAt v 3 ++ byteAt v 2 ++ byteAt v 1 ++ byteAt v 0 = v := by
  unfold byteAt
  rw [BitVec.extractLsb'_append_extractLsb'_eq_extractLsb' (by rfl),
    BitVec.extractLsb'_append_extractLsb'_eq_extractLsb' (by rfl),
    BitVec.extractLsb'_append_extractLsb'_eq_extractLsb' (by rfl)]
  simp

theorem extract_append64 (v : BitVec 64) : v.extractLsb' 32 32 ++ v.extractLsb' 0 32 = v := by
  rw [BitVec.extractLsb'_append_extractLsb'_eq_extractLsb' (by rfl)]
  simp

theorem byteAt_extract32 (v : BitVec 64) {s i : ℕ} (hi : i < 4) :
    byteAt (v.extractLsb' (8 * s) 32) i = byteAt v (s + i) := by
  unfold byteAt
  refine BitVec.eq_of_getLsbD_eq fun j hj => ?_
  have e : 8 * s + (8 * i + j) = 8 * (s + i) + j := by omega
  simp [hj, e, show 8 * i + j < 32 by omega]

theorem le32_getElem? (v : BitVec 32) {i : ℕ} (hi : i < 4) : (le32 v)[i]? = some (byteAt v i) := by
  match i with
  | 0 | 1 | 2 | 3 => rfl

theorem le64_getElem? (v : BitVec 64) {i : ℕ} (hi : i < 8) : (le64 v)[i]? = some (byteAt v i) := by
  by_cases hlo : i < 4
  · rw [le64, List.getElem?_append_left hlo, le32_getElem? _ hlo, byteAt_extract32 (s := 0) v hlo,
      Nat.zero_add]
  · have hge : (le32 (v.extractLsb' 0 32)).length ≤ i := Nat.le_of_not_lt hlo
    rw [le64, List.getElem?_append_right hge, le32_length, le32_getElem? _ (by omega),
      byteAt_extract32 (s := 4) v (by omega), Nat.add_sub_cancel' (Nat.le_of_not_lt hlo)]

/-! ### Writing then reading -/

/-- An address by its distance from another. -/
theorem add_sub_toNat (a b : Word) : a + BitVec.ofNat 64 (b - a).toNat = b := by
  rw [BitVec.ofNat_toNat, BitVec.setWidth_eq, BitVec.add_comm, BitVec.sub_add_cancel]

theorem writeN_self {n k i : ℕ} (m : Mem) (a : Word) (v : BitVec n) (hi : i < k) (hk : k ≤ 8) :
    writeN k m a v (a + BitVec.ofNat 64 i) = byteAt v i := by
  have e : (a + BitVec.ofNat 64 i - a).toNat = i := by
    rw [BitVec.add_comm, BitVec.add_sub_cancel, BitVec.toNat_ofNat]
    omega
  rw [writeN, e, if_pos hi]

theorem writeN_of_le {n k : ℕ} {m : Mem} {a b : Word} {v : BitVec n} (h : k ≤ (b - a).toNat) :
    writeN k m a v b = m b := by
  unfold writeN
  rw [if_neg (Nat.not_lt.mpr h)]

theorem fill_of_le {m : Mem} {a b : Word} {n : ℕ} {f : ℕ → Byte} (h : n ≤ (b - a).toNat) :
    fill m a n f b = m b := by
  unfold fill
  rw [if_neg (Nat.not_lt.mpr h)]

/-- A range that does not wrap, by numbers. -/
theorem sub_toNat_lt_iff {a x : Word} {n : ℕ} (h : x.toNat + n ≤ 2 ^ 64) :
    (a - x).toNat < n ↔ x.toNat ≤ a.toNat ∧ a.toNat < x.toNat + n := by
  have ha := a.isLt
  have hx := x.isLt
  rw [BitVec.toNat_sub]
  omega

theorem fill_eq {m : Mem} {a x : Word} {n : ℕ} {f : ℕ → Byte} (h : x.toNat + n ≤ 2 ^ 64) :
    fill m x n f a =
      if x.toNat ≤ a.toNat ∧ a.toNat < x.toNat + n then f (a.toNat - x.toNat) else m a := by
  unfold fill
  simp only [sub_toNat_lt_iff h]
  split_ifs with hin
  · rw [BitVec.toNat_sub_of_le (BitVec.le_def.mpr hin.1)]
  · rfl

theorem read32_congr {m m' : Mem} {a a' : Word}
    (h : ∀ i < 4, m (a + BitVec.ofNat 64 i) = m' (a' + BitVec.ofNat 64 i)) :
    read32 m a = read32 m' a' := by
  have h0 := h 0 (by omega)
  have h1 := h 1 (by omega)
  have h2 := h 2 (by omega)
  have h3 := h 3 (by omega)
  simp only [BitVec.add_zero] at h0 h1 h2 h3
  simp only [read32, h0, h1, h2, h3]

theorem read64_congr {m m' : Mem} {a a' : Word}
    (h : ∀ i < 8, m (a + BitVec.ofNat 64 i) = m' (a' + BitVec.ofNat 64 i)) :
    read64 m a = read64 m' a' := by
  have hlo : read32 m a = read32 m' a' := read32_congr fun i hi => h i (by omega)
  have hhi : read32 m (a + 4#64) = read32 m' (a' + 4#64) := by
    refine read32_congr fun i hi => ?_
    have e : ∀ x : Word, x + 4#64 + BitVec.ofNat 64 i = x + BitVec.ofNat 64 (4 + i) := by
      intro x
      rw [BitVec.add_assoc, BitVec.ofNat_add]
    rw [e, e]
    exact h (4 + i) (by omega)
  simp only [read64, hlo, hhi]

theorem read32_of_bytes {m : Mem} {a : Word} {v : BitVec 32}
    (h : ∀ i < 4, m (a + BitVec.ofNat 64 i) = byteAt v i) : read32 m a = v := by
  have h0 := h 0 (by omega)
  have h1 := h 1 (by omega)
  have h2 := h 2 (by omega)
  have h3 := h 3 (by omega)
  simp only [BitVec.add_zero] at h0 h1 h2 h3
  simp only [read32, h0, h1, h2, h3, byteAt_append32]

@[simp] theorem read64_writeN (m : Mem) (a : Word) (v : BitVec 64) :
    read64 (writeN 8 m a v) a = v := by
  have hlo : read32 (writeN 8 m a v) a = v.extractLsb' 0 32 := by
    refine read32_of_bytes fun i hi => ?_
    rw [writeN_self m a v (by omega) (Nat.le_refl 8), byteAt_extract32 (s := 0) v hi, Nat.zero_add]
  have hhi : read32 (writeN 8 m a v) (a + 4#64) = v.extractLsb' 32 32 := by
    refine read32_of_bytes fun i hi => ?_
    have e : a + 4#64 + BitVec.ofNat 64 i = a + BitVec.ofNat 64 (4 + i) := by
      rw [BitVec.add_assoc, BitVec.ofNat_add]
    rw [e, writeN_self m a v (by omega) (Nat.le_refl 8), byteAt_extract32 (s := 4) v hi]
  rw [read64, hlo, hhi, extract_append64]

/-- A store of `k` bytes at `b` is not seen by a 64-bit read at `a` when it starts behind the eight
bytes read and ends before them (on the address circle). -/
theorem read64_writeN_disjoint {n k : ℕ} {m : Mem} {a b : Word} {v : BitVec n}
    (h : ∀ i < 8, k ≤ (a + BitVec.ofNat 64 i - b).toNat) :
    read64 (writeN k m b v) a = read64 m a :=
  read64_congr fun i hi => writeN_of_le (h i hi)

/-! ### The bytes that were read -/

theorem byteAt_append_lo {n k : ℕ} (x : BitVec n) (y : BitVec k) {i : ℕ} (hi : 8 * i + 8 ≤ k) :
    byteAt (x ++ y) i = byteAt y i := by
  refine BitVec.eq_of_getLsbD_eq fun j hj => ?_
  simp [byteAt, BitVec.getLsbD_append, hj, show 8 * i + j < k by omega]

theorem byteAt_append_hi {n k : ℕ} (x : BitVec n) (y : BitVec (8 * k)) (i : ℕ) :
    byteAt (x ++ y) (k + i) = byteAt x i := by
  refine BitVec.eq_of_getLsbD_eq fun j hj => ?_
  have hge : ¬ 8 * (k + i) + j < 8 * k := by omega
  have he : 8 * (k + i) + j - 8 * k = 8 * i + j := by omega
  simp [byteAt, BitVec.getLsbD_append, hj, hge, he]

theorem byteAt_append_byte {n : ℕ} (x : BitVec n) (b : Byte) :
    byteAt (x ++ b) 0 = b ∧ ∀ i, byteAt (x ++ b) (i + 1) = byteAt x i := by
  refine ⟨(byteAt_append_lo x b (Nat.le_refl 8)).trans BitVec.extractLsb'_eq_self, fun i => ?_⟩
  rw [Nat.add_comm i 1]
  exact byteAt_append_hi (k := 1) x b i

/-- The bytes of a word that was read. -/
theorem byteAt_read32 (m : Mem) (a : Word) {i : ℕ} (hi : i < 4) :
    byteAt (read32 m a) i = m (a + BitVec.ofNat 64 i) := by
  unfold read32
  match i with
  | 0 => rw [(byteAt_append_byte _ _).1, BitVec.add_zero]
  | 1 => rw [(byteAt_append_byte _ _).2, (byteAt_append_byte _ _).1]
  | 2 => rw [(byteAt_append_byte _ _).2, (byteAt_append_byte _ _).2, (byteAt_append_byte _ _).1]
  | 3 =>
    rw [(byteAt_append_byte _ _).2, (byteAt_append_byte _ _).2, (byteAt_append_byte _ _).2]
    exact BitVec.extractLsb'_eq_self

theorem byteAt_read64 (m : Mem) (a : Word) {i : ℕ} (hi : i < 8) :
    byteAt (read64 m a) i = m (a + BitVec.ofNat 64 i) := by
  unfold read64
  by_cases hlo : i < 4
  · rw [byteAt_append_lo _ _ (by omega), byteAt_read32 m a hlo]
  · obtain ⟨j, rfl⟩ := Nat.exists_eq_add_of_le (Nat.le_of_not_lt hlo)
    rw [byteAt_append_hi (k := 4), byteAt_read32 m _ (by omega), BitVec.add_assoc, BitVec.ofNat_add]

/-- Two memories that have the same words have the same bytes. -/
theorem read64_eq_iff {m m' : Mem} {a a' : Word} : read64 m a = read64 m' a' ↔
    ∀ i < 8, m (a + BitVec.ofNat 64 i) = m' (a' + BitVec.ofNat 64 i) := by
  refine ⟨fun h i hi => ?_, read64_congr⟩
  rw [← byteAt_read64 m a hi, h, byteAt_read64 m' a' hi]

theorem byteAt_setWidth (v : Word) {i : ℕ} (hi : i < 4) : byteAt (v.setWidth 32) i = byteAt v i := by
  rw [BitVec.setWidth_eq_extractLsb' (by decide), byteAt_extract32 (s := 0) v hi, Nat.zero_add]

/-- Eight bytes read as four when the upper four are zero. -/
theorem read64_eq_setWidth_iff (m : Mem) (a : Word) :
    read64 m a = (read32 m a).setWidth 64 ↔ read32 m (a + 4#64) = 0#32 := by
  have hhi : (read64 m a).extractLsb' 32 32 = read32 m (a + 4#64) :=
    BitVec.extractLsb'_append_eq_left
  have hz : (read32 m a).setWidth 64 = 0#32 ++ read32 m a :=
    (BitVec.setWidth_eq_append (by decide)).trans rfl
  constructor
  · intro h
    rw [← hhi, h, hz]
    exact BitVec.extractLsb'_append_eq_left
  · intro h
    rw [read64, h, hz]

theorem read32_eq_iff {m : Mem} {a : Word} {v : BitVec 32} :
    read32 m a = v ↔ ∀ i < 4, m (a + BitVec.ofNat 64 i) = byteAt v i := by
  refine ⟨fun h i hi => ?_, read32_of_bytes⟩
  rw [← h, byteAt_read32 m a hi]

/-- A store of eight bytes is one of four when the upper four are there already. -/
theorem writeN_eight_eq_four {m : Mem} {a v : Word} (h : read32 m (a + 4#64) = v.extractLsb' 32 32) :
    writeN 8 m a v = writeN 4 m a v := by
  funext b
  unfold writeN
  by_cases h4 : (b - a).toNat < 4
  · rw [if_pos h4, if_pos (by omega)]
  by_cases h8 : (b - a).toNat < 8
  · rw [if_pos h8, if_neg h4]
    obtain ⟨i, hi⟩ := Nat.exists_eq_add_of_le (Nat.le_of_not_lt h4)
    have hb : a + 4#64 + BitVec.ofNat 64 i = b := by
      rw [BitVec.add_assoc, show 4#64 + BitVec.ofNat 64 i = BitVec.ofNat 64 (4 + i) by
        rw [BitVec.ofNat_add], ← hi, add_sub_toNat]
    have hbyte := read32_eq_iff.mp h i (by omega)
    rw [hb, byteAt_extract32 (s := 4) v (by omega)] at hbyte
    rw [hi, hbyte]
  · rw [if_neg h8, if_neg h4]

/-! ### Words apart -/

/-- The words at `p` and `q` have no byte in common. -/
def WordsApart (p q : Word) : Prop := ∀ i < 8, 8 ≤ (p + BitVec.ofNat 64 i - q).toNat

theorem WordsApart.symm {p q : Word} (h : WordsApart p q) : WordsApart q p := by
  intro j hj
  by_contra hlt
  have h' := h (q + BitVec.ofNat 64 j - p).toNat (by omega)
  have he : p + BitVec.ofNat 64 (q + BitVec.ofNat 64 j - p).toNat - q = BitVec.ofNat 64 j := by
    rw [add_sub_toNat, BitVec.add_comm, BitVec.add_sub_cancel]
  rw [he, BitVec.toNat_ofNat] at h'
  omega

/-- Addresses of the same low half. -/
theorem wordsApart_of_low {p q : Word} (h : p.setWidth 32 = q.setWidth 32) (hne : p ≠ q) :
    WordsApart p q := by
  intro i hi
  have hp := p.isLt
  have hq := q.isLt
  have hnat := congrArg BitVec.toNat h
  have hne' : p.toNat ≠ q.toNat := fun he => hne (BitVec.eq_of_toNat_eq he)
  simp only [BitVec.toNat_setWidth] at hnat
  simp only [BitVec.toNat_sub, BitVec.toNat_add, BitVec.toNat_ofNat]
  omega

/-- Low halves that are one word apart. -/
theorem wordsApart_of_low_add {p q : Word} (h : q.setWidth 32 = p.setWidth 32 + 8#32) :
    WordsApart p q := by
  intro i hi
  have hp := p.isLt
  have hq := q.isLt
  have hnat := congrArg BitVec.toNat h
  simp only [BitVec.toNat_setWidth, BitVec.toNat_add, BitVec.toNat_ofNat] at hnat
  simp only [BitVec.toNat_sub, BitVec.toNat_add, BitVec.toNat_ofNat]
  omega

theorem WordsApart.read {p q : Word} (h : WordsApart p q) (m : Mem) (v : Word) :
    read64 (writeN 8 m q v) p = read64 m p := read64_writeN_disjoint h

theorem writeN_read64 {m : Mem} {p v : Word} (h : read64 m p = v) : writeN 8 m p v = m := by
  funext b
  unfold writeN
  split_ifs with hb
  · rw [← h, byteAt_read64 m p hb, add_sub_toNat]
  · rfl

/-- The word at `p` is `v`, but for bytes of `R`. -/
def StoredOff (R : Word → Prop) (m : Mem) (p v : Word) : Prop :=
  ∀ i < 8, ¬ R (p + BitVec.ofNat 64 i) → m (p + BitVec.ofNat 64 i) = byteAt v i

theorem StoredOff.writeN {R : Word → Prop} {m : Mem} {p v : Word} (h : StoredOff R m p v) {b : Word}
    (hb : ¬ R b) : writeN 8 m p v b = m b := by
  unfold X86.writeN
  split_ifs with hlt
  · have hbyte := h _ hlt
    rw [add_sub_toNat] at hbyte
    exact (hbyte hb).symm
  · rfl

theorem WordsApart.storedOff {p q : Word} (h : WordsApart p q) {R : Word → Prop} {m : Mem}
    {v w : Word} (hp : StoredOff R m p v) : StoredOff R (X86.writeN 8 m q w) p v := by
  intro i hi hb
  rw [writeN_of_le (h i hi)]
  exact hp i hi hb

/-- Two words, each stored at one place or another: off `R` the memories are the same only where the
words are in place. -/
theorem writeN_two_off_iff {R : Word → Prop} {m : Mem} {p r q t v w : Word}
    (hp : p = r ∨ WordsApart p r) (hq : q = t ∨ WordsApart q t) (hpq : WordsApart p q)
    (hpt : WordsApart p t) (hrq : WordsApart r q) (hrt : WordsApart r t) :
    (∀ b, ¬ R b →
      writeN 8 (writeN 8 m p v) q w b = writeN 8 (writeN 8 m r v) t w b) ↔
      (p = r ∨ StoredOff R m p v ∧ StoredOff R m r v) ∧
        (q = t ∨ StoredOff R m q w ∧ StoredOff R m t w) := by
  have hself : ∀ (n : Mem) (a u : Word), ∀ i < 8,
      writeN 8 n a u (a + BitVec.ofNat 64 i) = byteAt u i :=
    fun n a u i hi => writeN_self n a u hi (Nat.le_refl 8)
  constructor
  · intro h
    constructor
    · refine hp.imp_right fun hpr => ⟨fun i hi hb => ?_, fun i hi hb => ?_⟩
      · have hbyte := h _ hb
        rw [writeN_of_le (hpq i hi), hself _ _ _ i hi, writeN_of_le (hpt i hi),
          writeN_of_le (hpr i hi)] at hbyte
        exact hbyte.symm
      · have hbyte := h _ hb
        rwa [writeN_of_le (hrq i hi), writeN_of_le (hpr.symm i hi), writeN_of_le (hrt i hi),
          hself _ _ _ i hi] at hbyte
    · refine hq.imp_right fun hqt => ⟨fun i hi hb => ?_, fun i hi hb => ?_⟩
      · have hbyte := h _ hb
        rw [hself _ _ _ i hi, writeN_of_le (hqt i hi), writeN_of_le (hrq.symm i hi)] at hbyte
        exact hbyte.symm
      · have hbyte := h _ hb
        rwa [writeN_of_le (hqt.symm i hi), writeN_of_le (hpt.symm i hi), hself _ _ _ i hi] at hbyte
  · rintro ⟨hv, hw⟩ b hb
    have hfirst : writeN 8 m p v b = writeN 8 m r v b := by
      rcases hv with rfl | ⟨h₁, h₂⟩
      · rfl
      · rw [h₁.writeN hb, h₂.writeN hb]
    rcases hw with rfl | ⟨h₁, h₂⟩
    · unfold writeN at hfirst ⊢
      rw [hfirst]
    · rw [(hpq.symm.storedOff h₁).writeN hb, (hrt.symm.storedOff h₂).writeN hb, hfirst]

/-! ### Words of an object -/

/-- The address `o` bytes into the object at `c`. -/
def off (c : Word) (o : ℕ) : Word := c + BitVec.ofNat 64 o

/-- The 64-bit word at byte offset `o` of the object at `c`. -/
def word (m : Mem) (c : Word) (o : ℕ) : Word := read64 m (off c o)

theorem off_sub_toNat {c : Word} {o p : ℕ} (hp : p ≤ o) (ho : o < 2 ^ 64) :
    (off c o - off c p).toNat = o - p := by
  simp only [off, BitVec.toNat_sub, BitVec.toNat_add, BitVec.toNat_ofNat]
  have := c.isLt
  omega

theorem off_sub_toNat_of_lt {c : Word} {o p : ℕ} (ho : o < p) (hp : p < 2 ^ 64) :
    (off c o - off c p).toNat = 2 ^ 64 - (p - o) := by
  simp only [off, BitVec.toNat_sub, BitVec.toNat_add, BitVec.toNat_ofNat]
  have := c.isLt
  omega

theorem off_add (c : Word) (o i : ℕ) : off c o + BitVec.ofNat 64 i = off c (o + i) := by
  rw [off, off, BitVec.add_assoc, BitVec.ofNat_add]

theorem off_toNat (c o : Word) : off c o.toNat = c + o := by
  rw [off, BitVec.ofNat_toNat, BitVec.setWidth_eq]

theorem off_off (c : Word) (o i : ℕ) : off (off c o) i = off c (o + i) := off_add c o i

theorem off_sub {c : Word} {o k : ℕ} (h : k ≤ o) : off c o - BitVec.ofNat 64 k = off c (o - k) := by
  have hadd : off c (o - k) + BitVec.ofNat 64 k = off c o := by rw [off_add, Nat.sub_add_cancel h]
  rw [← hadd, BitVec.add_sub_cancel]

theorem off_sub_self {a : Word} {i : ℕ} (hi : i < 2 ^ 64) : (off a i - a).toNat = i := by
  have ha := a.isLt
  simp only [off, BitVec.toNat_sub, BitVec.toNat_add, BitVec.toNat_ofNat]
  omega

theorem word_off (m : Mem) (c : Word) (o i : ℕ) : word m (off c o) i = read64 m (off c (o + i)) := by
  rw [word, off_off]

@[simp] theorem word_write_same (m : Mem) (c : Word) (o : ℕ) (v : BitVec 64) :
    word (writeN 8 m (off c o) v) c o = v := read64_writeN m _ v

theorem word_write_ne {m : Mem} {c : Word} {o p : ℕ} {v : BitVec 64}
    (hne : o + 8 ≤ p ∨ p + 8 ≤ o) (ho : o < 2 ^ 63) (hp : p < 2 ^ 63) :
    word (writeN 8 m (off c p) v) c o = word m c o := by
  refine read64_writeN_disjoint fun i hi => ?_
  rw [off_add]
  rcases hne with h | h
  · rw [off_sub_toNat_of_lt (by omega) (by omega)]
    omega
  · rw [off_sub_toNat (by omega) (by omega)]
    omega

/-! ### Filled ranges -/

theorem fill_succ (m : Mem) (a : Word) {n : ℕ} (hn : n < 2 ^ 64) (f : ℕ → Byte) :
    fill m a (n + 1) f = writeN 1 (fill m a n f) (off a n) (f n) := by
  funext b
  have hlast : (b - off a n).toNat < 1 ↔ (b - a).toNat = n := by
    have ha := a.isLt
    have hb := b.isLt
    simp only [off, BitVec.toNat_sub, BitVec.toNat_add, BitVec.toNat_ofNat]
    omega
  unfold writeN
  simp only [hlast]
  unfold fill
  by_cases hb : (b - a).toNat = n
  · have h0 : (b - off a n).toNat = 0 := Nat.lt_one_iff.mp (hlast.mpr hb)
    rw [if_pos hb, if_pos (by omega), h0, hb]
    exact BitVec.extractLsb'_eq_self.symm
  · have hlt : (b - a).toNat < n + 1 ↔ (b - a).toNat < n := by omega
    rw [if_neg hb]
    simp only [hlt]

/-- A word goes to memory byte by byte. -/
theorem writeN_le64 (m : Mem) (a val : Word) :
    writeN 8 m a val = fill m a 8 fun i => (le64 val).getD i 0#8 := by
  funext b
  unfold writeN fill
  split_ifs with h
  · show _ = (le64 val).getD (b - a).toNat 0#8
    rw [List.getD_eq_getElem?_getD, le64_getElem? val h, Option.getD_some]
  · rfl

/-- Cleared memory reads as zeros. -/
theorem word_fill_zero {host : Mem} {a : Word} {n o i : ℕ} (h : o + i + 8 ≤ n) (hn : n < 2 ^ 64) :
    word (fill host a n fun _ => 0#8) (off a o) i = 0#64 := by
  have hzero : (0#8 ++ 0#8 ++ 0#8 ++ 0#8) ++ (0#8 ++ 0#8 ++ 0#8 ++ 0#8) = 0#64 := by decide
  rw [word_off]
  refine Eq.trans (b := read64 (fun _ => 0#8) (off a (o + i))) ?_ hzero
  refine read64_congr fun j hj => ?_
  rw [off_add]
  exact if_pos (by rw [off_sub_self (by omega)]; omega)

/-! ### Frames -/

/-- Only the `n` bytes from `c` on may differ between `m` and `m'`. -/
def Outside (c : Word) (n : ℕ) (m m' : Mem) : Prop := ∀ b : Word, n ≤ (b - c).toNat → m' b = m b

theorem Outside.refl (c : Word) (n : ℕ) (m : Mem) : Outside c n m m := fun _ _ => rfl

theorem Outside.trans {c : Word} {n : ℕ} {m₁ m₂ m₃ : Mem} (h₁ : Outside c n m₁ m₂)
    (h₂ : Outside c n m₂ m₃) : Outside c n m₁ m₃ := fun b hb => (h₂ b hb).trans (h₁ b hb)

theorem outside_write {c : Word} {k n o : ℕ} {w : ℕ} (m : Mem) (v : BitVec w) (h : o + k ≤ n)
    (hn : n < 2 ^ 64) : Outside c n m (writeN k m (off c o) v) := by
  intro b hb
  refine writeN_of_le ?_
  simp only [off, BitVec.toNat_sub, BitVec.toNat_add, BitVec.toNat_ofNat] at hb ⊢
  have := c.isLt
  have := b.isLt
  omega

end X86
