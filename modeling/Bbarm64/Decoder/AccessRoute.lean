import Bbarm64.Decoder.ShiftedForms

/-!
# Decoder.AccessRoute — the words that decode as a load or store

`Grouped w r` says that the answer `r` makes a memory access of `w` only if A64 has `w` among the
loads and stores.  Bit 27 is set in every word that becomes an access, but nothing tests bit 25:
`decode` sends words to `decode_load_store` by their top three bits, and the words that
`RoutedAsAccess` describes get that far.
-/

namespace Bbarm64

open X86 A64

namespace ARM64Decoder

/-- The categories of memory accesses. -/
def IsAccess (category : InstrCategory) : Prop :=
  category = .LOAD_STORE ∨ category = .LOAD_STORE_PAIR

instance (category : InstrCategory) : Decidable (IsAccess category) :=
  inferInstanceAs (Decidable (_ ∨ _))

/-- An accepted access is one of A64's loads and stores. -/
def Grouped (w : BitVec 32) (r : Bool × DecodedInstr) : Prop :=
  r.1 = true → IsAccess r.2.category → InLoadStoreGroup w

/-- `op0` is `x1x1`, and bits 31:29 are 001, 010, 011 or 111; but the words with 0101 behind 001 or
010 are taken for logical operations, and those with 0111 behind 011 for TBZ. -/
def RoutedAsAccess (w : BitVec 32) : Prop :=
  let op1 := w.extractLsb' 29 3
  let op0 := w.extractLsb' 25 4
  w.getLsbD 27 = true ∧ w.getLsbD 25 = true ∧
    (op1 = 0b001#3 ∨ op1 = 0b010#3 ∨ op1 = 0b011#3 ∨ op1 = 0b111#3) ∧
    ¬ (op0 = 0b0101#4 ∧ (op1 = 0b001#3 ∨ op1 = 0b010#3)) ∧ ¬ (op0 = 0b0111#4 ∧ op1 = 0b011#3)

instance (w : BitVec 32) : Decidable (RoutedAsAccess w) := inferInstanceAs (Decidable (_ ∧ _))

section Route

variable {w : BitVec 32} {out : DecodedInstr}

/-! ## Words outside the group -/

/-- Bits 31:24 of the words that are taken for accesses, the S forms aside. -/
def access_tops : List (BitVec 32) :=
  [0x2E#32, 0x2F#32, 0x3A#32, 0x3B#32, 0x3E#32, 0x3F#32, 0x4E#32, 0x4F#32, 0x5A#32, 0x5B#32,
    0x5E#32, 0x5F#32, 0x7A#32, 0x7B#32, 0x7E#32, 0x7F#32, 0xEE#32, 0xEF#32, 0xFA#32, 0xFB#32, 0xFE#32,
    0xFF#32]

theorem top_of_routed (h : RoutedAsAccess w) :
    w >>> 24 ∈ access_tops ∨ w >>> 24 ∈ [0x6A#32, 0xEA#32, 0x6B#32, 0xEB#32] := by
  have key : ∀ v < 256, v / 8 % 2 = 1 ∧ v / 2 % 2 = 1 ∧
      (v / 32 = 1 ∨ v / 32 = 2 ∨ v / 32 = 3 ∨ v / 32 = 7) ∧
      ¬ (v / 2 % 16 = 5 ∧ (v / 32 = 1 ∨ v / 32 = 2)) ∧ ¬ (v / 2 % 16 = 7 ∧ v / 32 = 3) →
      BitVec.ofNat 32 v ∈ access_tops ∨ BitVec.ofNat 32 v ∈ [0x6A#32, 0xEA#32, 0x6B#32, 0xEB#32] := by
    decide +kernel
  obtain ⟨h27, h25, hop1, hdata, htest⟩ := h
  have hlt := w.isLt
  simp only [extract_eq_iff, BitVec.toNat_ofNat] at hop1 hdata htest
  rw [getLsbD_iff] at h27 h25
  rw [shiftRight_eq (by omega) (rfl : w.toNat / 2 ^ 24 = _)]
  exact key _ (by omega) (by omega)

theorem decode_access (h : w >>> 24 ∈ access_tops) :
    (decode w).1 = true ∧ (decode w).2.category = .LOAD_STORE := by
  simp only [access_tops, List.mem_cons, List.not_mem_nil, or_false] at h
  rcases h with h | h | h | h | h | h | h | h | h | h | h | h | h | h | h | h | h | h | h | h | h | h <;>
  · have hb := bits_shift h
    have hmov := not_movz h (by decide)
    simp +decide only [decode, decode_pcrel, decode_mid, decode_load_store, hb, hmov, orElseIf,
      if_true, if_false, false_and, true_and]

/-! ## Words that are not routed there -/

theorem Grouped.ite {c : Prop} [Decidable c] {a b : Bool × DecodedInstr} (ha : c → Grouped w a)
    (hb : ¬ c → Grouped w b) : Grouped w (if c then a else b) := by
  split_ifs with h
  · exact ha h
  · exact hb h

/-- The continuation runs when the category decoder did not know the word. -/
theorem Grouped.orElseIf {c : Prop} [Decidable c] {r k : DecodedInstr → Bool × DecodedInstr}
    (hr : c → Grouped w (r out)) (hk : ∀ o, (c → (r out).1 = false) → Grouped w (k o)) :
    Grouped w (orElseIf c r out k) := by
  unfold ARM64Decoder.orElseIf orElse
  split_ifs with hc ho
  · exact hr hc
  · exact hk _ fun _ => eq_false_of_ne_true ho
  · exact hk _ fun h => absurd h hc

theorem Grouped.found {x : Bool} {d : DecodedInstr} (category : InstrCategory)
    (hd : d.category = category) (hc : ¬ IsAccess category) : Grouped w (x, d) := by
  subst hd
  exact fun _ h => absurd h hc

theorem Grouped.refused {d : DecodedInstr} : Grouped w (false, d) := nofun

theorem Grouped.of_group {r : Bool × DecodedInstr} (h : InLoadStoreGroup w) : Grouped w r :=
  fun _ _ => h

theorem grouped_data_proc_reg : Grouped w (decode_data_proc_reg w out) := by
  unfold decode_data_proc_reg
  dsimp only
  refine .ite (fun _ => .found .INTEGER_ARITH rfl (by decide)) fun _ => ?_
  refine .ite (fun _ => .found .INTEGER_ARITH rfl (by decide)) fun _ => ?_
  refine .ite (fun _ => .found .LOGICAL rfl (by decide)) fun _ => ?_
  refine .ite (fun _ => .found .MOVE rfl (by decide)) fun _ => ?_
  refine .ite (fun _ => .found .INTEGER_ARITH rfl (by decide)) fun _ => ?_
  refine .ite (fun _ => .found .INTEGER_ARITH rfl (by decide)) fun _ => ?_
  refine .ite (fun _ => .found .SHIFT rfl (by decide)) fun _ => ?_
  refine .ite (fun _ => .found .COMPARE rfl (by decide)) fun _ => ?_
  refine .ite (fun _ => .found .COMPARE rfl (by decide)) fun _ => ?_
  exact .ite (fun _ => .found .BRANCH_COND rfl (by decide)) fun _ => .refused

theorem grouped_data_proc_imm : Grouped w (decode_data_proc_imm w out) := by
  unfold decode_data_proc_imm
  dsimp only
  have harith : ∀ {d : DecodedInstr}, d.category = .INTEGER_ARITH → Grouped w (true, d) :=
    fun hd => .found .INTEGER_ARITH hd (by decide)
  refine .ite (fun _ => harith rfl) fun _ => .ite (fun _ => harith rfl) fun _ => ?_
  refine .ite (fun _ => ?_) fun _ => ?_
  · refine .ite (fun _ => harith rfl) fun _ => .ite (fun _ => harith rfl) fun _ => ?_
    exact .ite (fun _ => harith rfl) fun _ => harith rfl
  · exact .ite (fun _ => .found .MOVE rfl (by decide)) fun _ => .refused

theorem grouped_branch : Grouped w (decode_branch w out) := by
  unfold decode_branch
  dsimp only
  have hbranch : ∀ {d : DecodedInstr}, d.category = .BRANCH → Grouped w (true, d) :=
    fun hd => .found .BRANCH hd (by decide)
  have hcond : ∀ {d : DecodedInstr}, d.category = .BRANCH_COND → Grouped w (true, d) :=
    fun hd => .found .BRANCH_COND hd (by decide)
  refine .ite (fun _ => hbranch rfl) fun _ => .ite (fun _ => hbranch rfl) fun _ => ?_
  refine .ite (fun _ => .ite (fun _ => hbranch rfl) fun _ => hbranch rfl) fun _ => ?_
  exact .ite (fun _ => hcond rfl) fun _ => .ite (fun _ => hcond rfl) fun _ => .refused

theorem grouped_system : Grouped w (decode_system w out) := by
  unfold decode_system
  dsimp only
  refine .ite (fun _ => .found .SYSTEM rfl (by decide)) fun _ => ?_
  exact .ite (fun _ => .found .SYSTEM rfl (by decide)) fun _ => .refused

theorem grouped_simd : Grouped w (decode_simd w out) := by
  unfold decode_simd
  dsimp only
  have hsimd : ∀ {d : DecodedInstr}, d.category = .SIMD_FP → Grouped w (true, d) :=
    fun hd => .found .SIMD_FP hd (by decide)
  refine .ite (fun _ => hsimd rfl) fun _ => .ite (fun _ => hsimd rfl) fun _ => ?_
  refine .ite (fun _ => hsimd rfl) fun _ => .ite (fun _ => hsimd rfl) fun _ => ?_
  refine .ite (fun _ => hsimd rfl) fun _ => .ite (fun _ => hsimd rfl) fun _ => ?_
  exact .ite (fun _ => hsimd rfl) fun _ => .refused

/-- `decode_load_store` accepts words with bit 27. -/
theorem grouped_load_store (h : w.getLsbD 27 = true → w.getLsbD 25 = false) :
    Grouped w (decode_load_store w out) := by
  have hgroup : ∀ {d : DecodedInstr}, w.getLsbD 27 = true → Grouped w (true, d) :=
    fun h27 => .of_group ⟨h27, h h27⟩
  have h28 : ∀ {v : BitVec 32}, bits w 28 26 = v → v.toNat / 2 % 2 = 1 → w.getLsbD 27 = true := by
    intro v hv hodd
    rw [bits_eq_iff (by decide)] at hv
    rw [getLsbD_iff]
    omega
  unfold decode_load_store
  dsimp only
  refine .ite (fun hb => hgroup (h28 hb (by decide))) fun _ => ?_
  refine .ite (fun hb => hgroup (h28 hb (by decide))) fun _ => ?_
  refine .ite (fun hb => hgroup (h28 hb (by decide))) fun _ => ?_
  refine .ite (fun hb => hgroup (h28 hb (by decide))) fun _ => ?_
  refine .ite (fun hb => hgroup ?_) fun _ => .refused
  rw [bits_eq_iff (by decide)] at hb
  rw [getLsbD_iff]
  change _ = 20 at hb
  omega

theorem grouped_pcrel (h : ¬ RoutedAsAccess w) : Grouped w (decode_pcrel w out) := by
  unfold decode_pcrel
  dsimp only
  refine .ite (fun _ => .found .MOVE rfl (by decide)) fun _ => ?_
  refine .ite (fun _ => .found .MOVE rfl (by decide)) fun _ => .ite (fun hlit => ?_) fun _ => .refused
  rw [bits_eq_iff (by decide)] at hlit
  change _ = 22 at hlit
  have h27 : w.getLsbD 27 = true := by
    rw [getLsbD_iff]
    omega
  refine .of_group ⟨h27, eq_false_of_ne_true fun h25 => h ⟨h27, h25, ?_⟩⟩
  simp only [extract_eq_iff, BitVec.toNat_ofNat]
  omega

theorem grouped_last : Grouped w (decode_last w out) := by
  unfold decode_last
  dsimp only
  refine .ite (fun _ => grouped_data_proc_imm) fun _ => .ite (fun _ => grouped_system) fun _ => ?_
  exact .orElseIf (fun _ => grouped_simd) fun _ _ => .refused

theorem grouped_mid (h : bits w 31 29 = 0b001#32 ∨ bits w 31 29 = 0b010#32 ∨
    bits w 31 29 = 0b011#32 ∨ bits w 31 29 = 0b111#32 → w.getLsbD 27 = true → w.getLsbD 25 = false) :
    Grouped w (decode_mid w out) := by
  unfold decode_mid decode_even
  dsimp only
  refine .ite (fun _ => grouped_data_proc_imm) fun _ => .ite (fun _ => grouped_data_proc_imm) fun _ => ?_
  refine .ite (fun _ => grouped_branch) fun _ => .ite (fun _ => grouped_branch) fun _ => ?_
  refine .ite (fun hop => grouped_load_store (h hop)) fun _ => .ite (fun _ => ?_) fun _ => grouped_last
  refine .orElseIf (fun _ => grouped_data_proc_imm) fun _ _ => ?_
  refine .orElseIf (fun _ => grouped_data_proc_reg) fun _ _ => ?_
  exact .orElseIf (fun _ => grouped_data_proc_imm) fun _ _ => grouped_last

/-- The row of the logical operations. -/
theorem data_proc_reg_accepts (h₁ : bits w 30 29 = 0b01#32 ∨ bits w 30 29 = 0b10#32)
    (h₂ : bits w 28 24 = 0b01010#32 ∨ bits w 28 24 = 0b01011#32) :
    (decode_data_proc_reg w out).1 = true := by
  have hrow : (bits w 30 29 = 0b00#32 ∨ bits w 30 29 = 0b01#32 ∨ bits w 30 29 = 0b10#32) ∧
      (bits w 28 24 = 0b00000#32 ∨ bits w 28 24 = 0b00001#32 ∨ bits w 28 24 = 0b00010#32 ∨
        bits w 28 24 = 0b00011#32 ∨ bits w 28 24 = 0b01000#32 ∨ bits w 28 24 = 0b01001#32 ∨
        bits w 28 24 = 0b01010#32 ∨ bits w 28 24 = 0b01011#32) :=
    ⟨.inr h₁, .inr (.inr (.inr (.inr (.inr (.inr h₂)))))⟩
  unfold decode_data_proc_reg
  dsimp only
  rw [if_pos hrow]
  simp only [apply_ite Prod.fst, ite_self]

theorem grouped_of_not_routed (h : ¬ RoutedAsAccess w) : Grouped w (decode w) := by
  unfold decode
  dsimp only
  refine .ite (fun _ => grouped_pcrel h) fun _ => .ite (fun _ => grouped_pcrel h) fun _ => ?_
  refine .ite (fun _ => grouped_pcrel h) fun _ => ?_
  refine .ite (fun _ => .found .BRANCH_COND rfl (by decide)) fun htest => ?_
  refine .ite (fun _ => grouped_data_proc_imm) fun _ => .ite (fun _ => grouped_data_proc_reg) fun _ => ?_
  refine .ite (fun _ => .ite (fun _ => grouped_branch) fun _ => .ite (fun _ => ?_) fun _ => ?_)
    fun hop5 => ?_
  · exact .found .SYSCALL rfl (by decide)
  · exact grouped_system
  refine .ite (fun _ => grouped_branch) fun _ => ?_
  refine .orElseIf (fun _ => grouped_data_proc_reg) fun _ hrefused => grouped_mid fun hop h27 => ?_
  -- a word that gets here with bits 27 and 25 is one of those described, or was accepted before
  refine eq_false_of_ne_true fun h25 => h ⟨h27, h25, ?_, ?_, ?_⟩
  · simp only [bits_eq_iff (show 31 - 29 + 1 < 32 by decide), extract_eq_iff, BitVec.toNat_ofNat] at hop ⊢
    omega
  · rintro ⟨hop0, hop1⟩
    simp only [extract_eq_iff, BitVec.toNat_ofNat] at hop0 hop1
    have h₁ : bits w 30 29 = 0b01#32 ∨ bits w 30 29 = 0b10#32 := by
      simp only [bits_eq_iff (show 30 - 29 + 1 < 32 by decide), BitVec.toNat_ofNat]
      omega
    have h₂ : bits w 28 24 = 0b01010#32 ∨ bits w 28 24 = 0b01011#32 := by
      simp only [bits_eq_iff (show 28 - 24 + 1 < 32 by decide), BitVec.toNat_ofNat]
      omega
    have hroute : reg_route (bits w 28 24) := by
      rcases h₂ with h₂ | h₂ <;> rw [h₂] <;> decide
    have hrefused := hrefused ⟨hroute, hop5⟩
    rw [data_proc_reg_accepts h₁ h₂] at hrefused
    cases hrefused
  · rintro ⟨hop0, hop1⟩
    simp only [extract_eq_iff, BitVec.toNat_ofNat] at hop0 hop1
    refine htest (.inr ?_)
    rw [bits_eq_iff (by decide)]
    change _ = 55
    omega

/-! ## Every word -/

/-- **Memory accesses**: a word outside the loads and stores becomes one exactly if it is routed
there. -/
theorem grouped_iff (w : BitVec 32) : Grouped w (decode w) ↔ ¬ RoutedAsAccess w := by
  refine ⟨fun hg hr => ?_, grouped_of_not_routed⟩
  have haccess : (decode w).1 = true ∧ (decode w).2.category = .LOAD_STORE := by
    rcases top_of_routed hr with h | h
    · exact decode_access h
    · exact ⟨(decode_s_form h).1, (decode_s_form h).2.1⟩
  have hgroup := hg haccess.1 (.inl haccess.2)
  exact absurd hr.2.1 (by rw [hgroup.2]; decide)

/-- `subs x0, x1, x2` decodes as a load or store. -/
theorem not_grouped_subs : ¬ Grouped 0xEB020020#32 (decode 0xEB020020#32) :=
  fun h => absurd (h (by decide) (by decide)) (by decide)

end Route

end ARM64Decoder

end Bbarm64
