import Bbarm64.X86.Process

/-!
# X86.InPlace — code in memory runs like code on its own

`CodeAt m base code` says that the bytes of the code are in memory from `base` on.  A program whose
jumps go forward and that ends in a `ret` stays on its instructions, so as long as its run keeps the
bytes of the program, the cycles of the processor are the steps of the code (`cycles_place_iff`).
-/

namespace X86

/-! ## Code at an address -/

/-- The bytes of the code are in memory from `base` on. -/
def CodeAt (m : Mem) (base : Word) (code : List Byte) : Prop :=
  ∀ i b, code[i]? = some b → m (off base i) = b

theorem CodeAt.congr {m m' : Mem} {base : Word} {code : List Byte} (h : CodeAt m base code)
    (he : ∀ i < code.length, m' (off base i) = m (off base i)) : CodeAt m' base code := by
  intro i b hb
  rw [he i (List.getElem?_eq_some_iff.mp hb).1, h i b hb]

/-- Code that is stored there. -/
theorem codeAt_fill (m : Mem) (base : Word) {code : List Byte} (h : code.length ≤ 2 ^ 64) :
    CodeAt (fill m base code.length fun i => code.getD i 0#8) base code := by
  intro i b hi
  have hlt := (List.getElem?_eq_some_iff.mp hi).1
  rw [fill, off_sub_self (by omega), if_pos hlt, List.getD_eq_getElem?_getD, hi]
  rfl

/-- What is fetched at an offset starts with the bytes there. -/
theorem fetch_of_codeAt {m : Mem} {base : Word} {front bytes back : List Byte}
    (h : CodeAt m base (front ++ bytes ++ back)) (hlen : bytes.length ≤ 15) :
    ∃ t, fetch m (off base front.length) = bytes ++ t := by
  have htake : (fetch m (off base front.length)).take bytes.length = bytes := by
    refine List.ext_getElem? fun i => ?_
    rcases Nat.lt_or_ge i bytes.length with hi | hi
    · have hbyte : (front ++ bytes ++ back)[front.length + i]? = bytes[i]? := by
        rw [List.append_assoc, List.getElem?_append_right (Nat.le_add_right _ _),
          Nat.add_sub_cancel_left, List.getElem?_append_left hi]
      have hget := List.getElem?_eq_getElem hi
      rw [List.getElem?_take_of_lt hi, fetch, List.getElem?_map,
        List.getElem?_range (Nat.lt_of_lt_of_le hi hlen), Option.map_some, off_off,
        h _ _ (hbyte.trans hget), hget]
    · rw [List.getElem?_eq_none (Nat.le_trans (List.length_take_le _ _) hi),
        List.getElem?_eq_none hi]
  refine ⟨(fetch m (off base front.length)).drop bytes.length, ?_⟩
  conv_lhs => rw [← List.take_append_drop bytes.length (fetch m (off base front.length)), htake]

/-- A configuration of code at `base`. -/
def Config.place (base : Word) (c : Config) : Cpu := ⟨off base c.ip, c.st⟩

/-- The instruction at a boundary. -/
theorem next_place {m : Mem} {base : Word} {pre post : List Instr} {i : Instr}
    (h : CodeAt m base (encodeAll (pre ++ i :: post))) {s : State} (hm : s.mem = m) :
    (Config.place base ⟨size pre, s⟩).next = some (i, (encode i).length) := by
  rw [encodeAll_append, encodeAll_cons, ← List.append_assoc] at h
  have hlen := encode_length_le i
  obtain ⟨t, ht⟩ := fetch_of_codeAt h (by omega)
  rw [Cpu.next, Config.place, hm, size, ht, decode_encode]

/-! ## Steps and cycles -/

/-- The configuration is in front of an instruction of the program. -/
def AtInstr (prog : List Instr) (c : Config) : Prop :=
  ∃ pre i post, prog = pre ++ i :: post ∧ c.ip = size pre

/-- The last instruction is a `ret`. -/
def EndsInRet (prog : List Instr) : Prop := ∃ body, prog = body ++ [.ret]

/-- What is behind an instruction other than the `ret`. -/
theorem EndsInRet.exists_cons {pre post : List Instr} {i : Instr} (h : EndsInRet (pre ++ i :: post))
    (hi : i ≠ .ret) : ∃ j rest, post = j :: rest := by
  obtain ⟨body, hb⟩ := h
  cases post with
  | cons j rest => exact ⟨j, rest, rfl⟩
  | nil =>
    have hlast := congrArg List.getLast? hb
    rw [List.getLast?_append, List.getLast?_append] at hlast
    exact absurd (Option.some.inj hlast) hi

section Place

variable {prog : List Instr} {base : Word}

/-- A step and the cycle of the code in place: neither is there, or they do the same. -/
inductive Matches (prog : List Instr) (base : Word) (c : Config) : Prop where
  | stuck (hs : step (encodeAll prog) c = none) (hc : cycle (c.place base) = none)
  | steps {d : Config} (hs : step (encodeAll prog) c = some d)
    (hc : cycle (c.place base) = some (d.place base)) (hd : AtInstr prog d)

/-- A relative jump over whole instructions. -/
theorem signExtend_of_toInt {rel : BitVec 32} {n : ℕ} (h : rel.toInt = n) :
    rel.signExtend 64 = BitVec.ofNat 64 n := by
  rw [BitVec.signExtend, h]
  rfl

/-- **One cycle** at an instruction of the program. -/
theorem matches_of_codeAt (hj : JumpsForward prog) (hend : EndsInRet prog) {c : Config}
    (hat : AtInstr prog c) (hcode : CodeAt c.st.mem base (encodeAll prog)) :
    Matches prog base c := by
  obtain ⟨pre, i, post, rfl, hip⟩ := hat
  obtain ⟨ip, s⟩ := c
  obtain rfl : ip = size pre := hip
  have hnext := next_place hcode (s := s) rfl
  have hstuck : i = .ret ∨ i = .int3 → Matches (pre ++ i :: post) base ⟨size pre, s⟩ := by
    intro hi
    refine .stuck ?_ ?_
    · unfold step
      rw [decode_at]
      rcases hi with rfl | rfl <;> rfl
    · unfold cycle
      rw [hnext]
      rcases hi with rfl | rfl <;> rfl
  by_cases hi : i.straight = true
  · have hne : i ≠ .ret := by
      rintro rfl
      cases hi
    obtain ⟨j, rest, rfl⟩ := hend.exists_cons hne
    have hsize : size (pre ++ [i]) = size pre + (encode i).length := by simp
    refine .steps (d := ⟨size pre + (encode i).length, exec i s⟩) (step_straight hi pre _ s) ?_
      ⟨pre ++ [i], j, rest, by simp, hsize.symm⟩
    unfold cycle
    rw [hnext, Config.place, Config.place, ← off_off]
    cases i with
    | jcc | ret | int3 => cases hi
    | _ => rfl
  cases i with
  | ret => exact hstuck (.inl rfl)
  | int3 => exact hstuck (.inr rfl)
  | jcc cc rel =>
    obtain ⟨skip, rest, rfl, hrest, hrel⟩ := hj pre cc rel post rfl
    obtain ⟨k, rest, rfl⟩ := List.exists_cons_of_ne_nil hrest
    have hlen : (encode (.jcc cc rel)).length = 6 := rfl
    rw [hlen] at hnext
    cases hcond : s.flags.cond cc with
    | false =>
      obtain ⟨j, rest', hpost⟩ : ∃ j rest', skip ++ k :: rest = j :: rest' :=
        List.exists_cons_of_ne_nil (by simp)
      refine .steps (d := ⟨size pre + 6, s⟩) (step_jcc_false hcond rel pre _) ?_
        ⟨pre ++ [.jcc cc rel], j, rest', by simp [hpost], by simp [hlen]⟩
      unfold cycle
      rw [hnext]
      simp only [Config.place, hcond, Bool.false_eq_true, if_false, off_off]
      rw [BitVec.add_zero]
    | true =>
      refine .steps (d := ⟨size pre + 6 + size skip, s⟩) (step_jcc_true hcond hrel pre _) ?_
        ⟨pre ++ .jcc cc rel :: skip, k, rest, by simp, by simp [hlen, Nat.add_assoc]⟩
      unfold cycle
      rw [hnext]
      simp only [Config.place, hcond, if_true, off_off]
      rw [signExtend_of_toInt hrel, off_add]
  | _ => exact absurd rfl hi

/-- The run from the start keeps the bytes of the program at `base`. -/
def KeepsCode (prog : List Instr) (base : Word) (s : State) : Prop :=
  ∀ b, Steps (encodeAll prog) ⟨0, s⟩ b → CodeAt b.st.mem base (encodeAll prog)

variable {s : State}

theorem atInstr_start (hend : EndsInRet prog) (s : State) : AtInstr prog ⟨0, s⟩ := by
  obtain ⟨body, rfl⟩ := hend
  obtain ⟨i, post, h⟩ := List.exists_cons_of_ne_nil (by simp : body ++ [Instr.ret] ≠ [])
  exact ⟨[], i, post, h, rfl⟩

theorem atInstr_steps (hj : JumpsForward prog) (hend : EndsInRet prog)
    (hkeep : KeepsCode prog base s) {b : Config} (h : Steps (encodeAll prog) ⟨0, s⟩ b) :
    AtInstr prog b := by
  induction h with
  | refl => exact atInstr_start hend s
  | @tail b c hb hbc ih =>
    cases matches_of_codeAt hj hend ih (hkeep b hb) with
    | stuck hs _ =>
      rw [hs] at hbc
      cases hbc
    | steps hs _ hd =>
      obtain rfl := Option.some.inj (hs.symm.trans hbc)
      exact hd

/-- **Code in place**: the cycles of the processor from the start of the program are the steps of the
program. -/
theorem cycles_place_iff (hj : JumpsForward prog) (hend : EndsInRet prog)
    (hkeep : KeepsCode prog base s) {d : Cpu} : Cycles (Config.place base ⟨0, s⟩) d ↔
      ∃ b, Steps (encodeAll prog) ⟨0, s⟩ b ∧ d = b.place base := by
  have hmatch : ∀ b, Steps (encodeAll prog) ⟨0, s⟩ b → Matches prog base b := fun b hb =>
    matches_of_codeAt hj hend (atInstr_steps hj hend hkeep hb) (hkeep b hb)
  constructor
  · intro h
    induction h with
    | refl => exact ⟨_, .refl, rfl⟩
    | tail _ hcd ih =>
      obtain ⟨b, hb, rfl⟩ := ih
      cases hmatch b hb with
      | stuck _ hc =>
        rw [hc] at hcd
        cases hcd
      | @steps b' hs hc _ => exact ⟨b', hb.tail hs, (Option.some.inj (hc.symm.trans hcd)).symm⟩
  · rintro ⟨b, hb, rfl⟩
    induction hb with
    | refl => exact .refl
    | @tail b c hb hbc ih =>
      cases hmatch b hb with
      | stuck hs _ =>
        rw [hs] at hbc
        cases hbc
      | steps hs hc _ =>
        obtain rfl := Option.some.inj (hs.symm.trans hbc)
        exact ih.tail hc

/-- The next instruction of the code in place. -/
theorem next_place_steps (hj : JumpsForward prog) (hend : EndsInRet prog)
    (hkeep : KeepsCode prog base s) {b : Config} (h : Steps (encodeAll prog) ⟨0, s⟩ b) :
    (b.place base).next = decode ((encodeAll prog).drop b.ip) := by
  obtain ⟨pre, i, post, rfl, hip⟩ := atInstr_steps hj hend hkeep h
  have hcode := hkeep b h
  obtain ⟨ip, t⟩ := b
  obtain rfl : ip = size pre := hip
  rw [next_place hcode rfl, decode_at]

/-- It returns where the code on its own does. -/
theorem returns_place_iff (hj : JumpsForward prog) (hend : EndsInRet prog)
    (hkeep : KeepsCode prog base s) {s' : State} :
    (∃ d, Cycles (Config.place base ⟨0, s⟩) d ∧ d.next = some (.ret, 1) ∧ s' = d.st.popRet) ↔
      Returns (encodeAll prog) s s' := by
  constructor
  · rintro ⟨d, hd, hret, rfl⟩
    obtain ⟨b, hb, rfl⟩ := (cycles_place_iff hj hend hkeep).mp hd
    rw [next_place_steps hj hend hkeep hb] at hret
    exact ⟨b, hb, hret, rfl⟩
  · rintro ⟨b, hb, hret, rfl⟩
    refine ⟨b.place base, (cycles_place_iff hj hend hkeep).mpr ⟨b, hb, rfl⟩, ?_, rfl⟩
    rwa [next_place_steps hj hend hkeep hb]

/-- It stores what the code on its own stores. -/
theorem stores_place_iff (hj : JumpsForward prog) (hend : EndsInRet prog)
    (hkeep : KeepsCode prog base s) {a : Word} : Stores (Config.place base ⟨0, s⟩) a ↔
      ∃ i t, Performs (encodeAll prog) s i t ∧ i.StoresAt t a := by
  constructor
  · rintro ⟨d, i, n, hd, hn, hs⟩
    obtain ⟨b, hb, rfl⟩ := (cycles_place_iff hj hend hkeep).mp hd
    rw [next_place_steps hj hend hkeep hb] at hn
    exact ⟨i, b.st, ⟨b, n, hb, hn, rfl⟩, hs⟩
  · rintro ⟨i, t, ⟨b, n, hb, hn, rfl⟩, hs⟩
    refine ⟨b.place base, i, n, (cycles_place_iff hj hend hkeep).mpr ⟨b, hb, rfl⟩, ?_, hs⟩
    rwa [next_place_steps hj hend hkeep hb]

end Place

/-! ## Runs that leave the code alone -/

/-- A step changes only what its instruction stores to. -/
theorem step_mem {code : List Byte} {b c : Config} (h : step code b = some c) {a : Word}
    (ha : ∀ i n, decode (code.drop b.ip) = some (i, n) → ¬ i.StoresAt b.st a) :
    c.st.mem a = b.st.mem a := by
  unfold step at h
  cases hd : decode (code.drop b.ip) with
  | none =>
    rw [hd] at h
    cases h
  | some p =>
    obtain ⟨i, n⟩ := p
    rw [hd] at h
    have hmem := exec_mem_of_not_storesAt (ha i n hd)
    cases i with
    | ret | int3 => cases h
    | jcc cc rel =>
      dsimp only at h
      split_ifs at h
      · unfold jump at h
        split_ifs at h
        obtain rfl := Option.some.inj h
        rfl
      · obtain rfl := Option.some.inj h
        rfl
    | _ =>
      obtain rfl := Option.some.inj h
      exact hmem

/-- **Frame rule** for code on its own. -/
theorem steps_mem {code : List Byte} {s : State} {b : Config} (h : Steps code ⟨0, s⟩ b) {a : Word}
    (ha : ∀ i t, Performs code s i t → ¬ i.StoresAt t a) : b.st.mem a = s.mem a := by
  induction h with
  | refl => rfl
  | @tail b c hb hbc ih => rw [step_mem hbc fun i n hd => ha i b.st ⟨b, n, hb, hd, rfl⟩, ih]

/-- A run that does not store to the bytes of the program keeps them. -/
theorem keepsCode_of_performs {prog : List Instr} {base : Word} {s : State}
    (hcode : CodeAt s.mem base (encodeAll prog))
    (h : ∀ i t, Performs (encodeAll prog) s i t → ∀ o < size prog, ¬ i.StoresAt t (off base o)) :
    KeepsCode prog base s := fun _ hb =>
  hcode.congr fun o ho => steps_mem hb fun i t hp => h i t hp o ho

end X86
