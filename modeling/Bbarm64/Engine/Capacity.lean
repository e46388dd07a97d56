import Bbarm64.Engine.BlockCode

/-!
# Engine.Capacity — how many bytes a block asks for

`emit_byte` drops what does not fit the slot of 4096 bytes, and nothing looks at the loss.
`code_bytes` counts the bytes of a block from its decoded instructions, so a translation is complete
exactly when that number is at most the slot size.
-/

namespace Bbarm64

open X86 ARM64Decoder IRBuilder IROptimizer IRLowering

namespace ExecEngine

/-! ## The count -/

/-- A load or store of a guest register: the displacement is none, short or long. -/
def reg_bytes (r : Byte) : ℕ := if r = 0#8 then 4 else if r < 16#8 then 5 else 8

/-- A load or store at `[rax + imm]`. -/
def mem_bytes (imm : BitVec 64) : ℕ :=
  let disp := imm.setWidth 32
  if disp = 0#32 then 3 else if fits8 disp then 4 else 7

/-- The bytes of `save_nzcv`. -/
def save_bytes : ℕ := 135

/-- The bytes of an instruction without `save_nzcv`, and whether it sets the flags. -/
def instr_cost (d : DecodedInstr) : ℕ × Bool :=
  let op := d.opcode
  let rd := reg_bytes d.rd
  let rn := reg_bytes d.rn
  let rm := reg_bytes d.rm
  let rt := reg_bytes d.rt
  let operand := if d.rm = 0xFF#8 then 7 else rm + 3
  let pair := mem_bytes d.imm_s + mem_bytes (d.imm_s + 8#64)
  if op = 0x00#8 then (rn + operand + rd, d.sets_flags)
  else if op = 0x01#8 then (rn + operand + rd, d.sets_flags)
  else if op = 0x04#8 then (rn + 4 + rd, false)
  else if op = 0x05#8 then (rn + 4 + rd, false)
  else if op = 0x06#8 then (rn + 4 + rd, false)
  else if op = 0x20#8 then ((if d.rm = 0#8 then 10 else rm) + rd, false)
  else if op = 0x21#8 ∨ op = 0x22#8 ∨ op = 0x23#8 then (10 + rd, false)
  else if op = 0x24#8 then (10 + rd, false)
  else if op = 0x25#8 then (10 + rd, false)
  else if op = 0x30#8 then (rn + (if d.rm = 0#8 then 7 else rm + 3), true)
  else if op = 0x31#8 then (rn + rm + 3, true)
  else if op = 0x50#8 then (19, false)
  else if op = 0x51#8 then (37, false)
  else if op = 0x53#8 then (17, false)
  else if op = 0x54#8 then (44, false)
  else if op = 0x55#8 then (rn + 51, true)
  else if op = 0x56#8 then (rn + 51, true)
  else if op = 0x63#8 then (rn + mem_bytes d.imm + rt, false)
  else if op = 0x62#8 then (rn + mem_bytes d.imm + rt, false)
  else if op = 0x73#8 then (rn + rt + mem_bytes d.imm, false)
  else if op = 0x72#8 then (rn + rt + mem_bytes d.imm, false)
  else if op = 0x80#8 then (rn + pair + rt + rm, false)
  else if op = 0x81#8 then (rn + rt + reg_bytes ((d.imm_s >>> 32).setWidth 8) + pair, false)
  else (1, false)

/-- The bytes of the instructions.  The flags of one are saved unless the next one sets them. -/
def body_bytes : List DecodedInstr → ℕ
  | [] => 0
  | d :: rest =>
    let c := instr_cost d
    let kept := c.2 && !rest.head?.any fun next => (instr_cost next).2
    c.1 + (if kept then save_bytes else 0) + body_bytes rest

/-- The bytes of a block: the prologue, the instructions, the return. -/
def code_bytes (ds : List DecodedInstr) : ℕ := 3 + body_bytes ds + 19

/-! ## The lengths of the encodings -/

section Lengths

variable (ft : Word)

theorem length_ldArm (r : Byte) (x : Reg) : (encode (ldArm r x)).length = reg_bytes r := by
  have h : ∀ r : Byte, 2 + (2 + if reg_offset r = 0#32 then 0 else
      if fits8 (reg_offset r) then 1 else 4) = reg_bytes r := by decide
  have hlo : r12.lo = 4#3 := rfl
  rw [← h]
  simp [ldArm, encode, memBytes_length, hlo]
  omega

theorem length_stArm (x : Reg) (r : Byte) : (encode (stArm x r)).length = reg_bytes r :=
  length_ldArm r x

theorem length_load_rax (x : Reg) (imm : BitVec 64) :
    (encode (.load x rax (imm.setWidth 32))).length = mem_bytes imm := by
  have hlo : rax.lo = 0#3 := rfl
  simp only [encode, List.length_append, List.length_cons, List.length_nil, memBytes_length, hlo,
    mem_bytes]
  split_ifs <;> simp_all

theorem length_store_rax (x : Reg) (imm : BitVec 64) :
    (encode (.store rax (imm.setWidth 32) x)).length = mem_bytes imm := length_load_rax x imm

theorem setWidth_add_eight (imm : BitVec 64) :
    imm.setWidth 32 + 8#32 = (imm + 8#64).setWidth 32 := by
  rw [BitVec.setWidth_add _ _ (by decide)]
  rfl

/-- The bytes of an IR instruction whose flags are not saved. -/
def ir_bytes (ir : IRInst) : ℕ := size (lowerAsm ft (clearFlags ir))

theorem size_saveNzcv : size saveNzcv = save_bytes := by decide +kernel

theorem size_blockRet_eq (pc : Word) : size (blockRet pc) = 19 := rfl

theorem size_lowerAsm {ir : IRInst} (h : FlagIr ir) :
    size (lowerAsm ft ir) = ir_bytes ft ir + if ir.flags_set then save_bytes else 0 := by
  cases hset : ir.flags_set with
  | false =>
    have he : clearFlags ir = ir := by
      rw [clearFlags, ← hset]
    simp [ir_bytes, he]
  | true =>
    have h0 : size (saveNzcvIf false) = 0 := rfl
    have h1 : size (saveNzcvIf true) = save_bytes := size_saveNzcv
    rcases h.set hset with ho | ho | ho | ho <;>
      simp only [ir_bytes, clearFlags, lowerAsm, ho, hset, size_append, size_cons, h0, h1] <;>
      simp only [aluAsm, ↓reduceIte] <;> omega

end Lengths

/-! ## The cost of an instruction -/

/-- The IR list of `d` has the cost `p`: its head alone may set the flags, and only a branch has two
IR instructions. -/
inductive Costs (d : DecodedInstr) : ℕ × Bool → List IRInst → Prop where
  | one {a : IRInst} {n : ℕ} {w : Bool} (ha : a.flags_set = w) (h : ∀ ft, ir_bytes ft a = n) :
    Costs d (n, w) [a]
  | two {a b : IRInst} {n : ℕ} {w : Bool} (hbr : IsBranch d.opcode) (ha : a.flags_set = w)
    (hb : b.flags_set = false) (h : ∀ ft, ir_bytes ft a + ir_bytes ft b = n) : Costs d (n, w) [a, b]

section Costs

variable {d : DecodedInstr} {p q : ℕ × Bool} {f g : IRBlock → Option IRBlock}

/-- The table and `build_instr` branch on the same conditions. -/
theorem costs_ite {c : Prop} [Decidable c] (hf : c → Builds (Costs d p) f)
    (hg : Builds (Costs d q) g) :
    Builds (Costs d (if c then p else q)) fun b => if c then f b else g b := by
  by_cases h : c
  · simpa only [if_pos h] using hf h
  · simpa only [if_neg h] using hg

/-- Conditions the table does not look at. -/
theorem costs_ite_same {c : Prop} [Decidable c] (hf : Builds (Costs d p) f)
    (hg : Builds (Costs d p) g) : Builds (Costs d p) fun b => if c then f b else g b :=
  Builds.ite (fun _ => hf) hg

theorem costs_one {ir : IRInst} {n : ℕ} {w : Bool} (hw : ir.flags_set = w)
    (h : ∀ ft, ir_bytes ft ir = n) : Builds (Costs d (n, w)) fun b => some (b.push_back ir) :=
  .one (.one hw h)

theorem costs_arith {ir : IRInst} {op : IROpcode} (hop : op = .ADD ∨ op = .SUB) :
    Builds (Costs d (reg_bytes d.rn + (if d.rm = 0xFF#8 then 7 else reg_bytes d.rm + 3) +
      reg_bytes d.rd, d.sets_flags)) fun b => some (b.push_back { arith ir d with op := op }) := by
  refine costs_one ?_ fun ft => ?_
  · unfold arith
    split_ifs <;> rfl
  · have h7 : ∀ op imm, (encode (.aluI op rax imm)).length = 7 := fun _ _ => rfl
    have h3 : ∀ op, (encode (.alu op rax rcx)).length = 3 := fun _ => rfl
    by_cases hrm : d.rm = 0xFF#8
    · rcases hop with rfl | rfl <;>
        simp [ir_bytes, clearFlags, lowerAsm, saveNzcvIf, aluAsm, arith, hrm, length_ldArm,
          length_stArm, h7] <;> omega
    · have himm := reg_ne_imm d.rm
      rcases hop with rfl | rfl <;>
        simp [ir_bytes, clearFlags, lowerAsm, saveNzcvIf, aluAsm, arith, hrm, himm, length_ldArm,
          length_stArm, h3] <;> omega

theorem costs_shift {ir : IRInst} {op : IROpcode} (hop : op = .SAR ∨ op = .SHR ∨ op = .SHL)
    (hset : ir.flags_set = false) :
    Builds (Costs d (reg_bytes d.rn + 4 + reg_bytes d.rd, false))
      fun b => some (b.push_back { shift_imm ir d with op := op }) := by
  refine costs_one hset fun ft => ?_
  have h4 : ∀ op n, (encode (.shift op rax n)).length = 4 := fun _ _ => rfl
  rcases hop with rfl | rfl | rfl <;>
    simp [ir_bytes, clearFlags, lowerAsm, shiftAsm, shift_imm, length_ldArm, length_stArm, h4] <;>
    omega

theorem length_movRI (x : Reg) (imm : Word) : (encode (.movRI x imm)).length = 10 := rfl

theorem costs_mov {ir : IRInst} (imm : Word) (hset : ir.flags_set = false) :
    Builds (Costs d (10 + reg_bytes d.rd, false))
      fun b => some (b.push_back (mov_imm ir d imm)) := by
  refine costs_one hset fun ft => ?_
  simp [ir_bytes, clearFlags, lowerAsm, mov_imm, length_stArm, length_movRI]

theorem reg_eq_none_iff (r : Byte) : reg r = IR_NONE ↔ r = 0#8 := by
  revert r
  decide

theorem costs_set_reg (size : Byte) :
    Builds (Costs d ((if d.rm = 0#8 then 10 else reg_bytes d.rm) + reg_bytes d.rd, false)) fun b =>
      some (b.push_back { op := .SET_REG, dest := reg d.rd, src1 := reg d.rm, size := size }) := by
  refine costs_one rfl fun ft => ?_
  by_cases hrm : d.rm = 0#8
  · simp [ir_bytes, clearFlags, lowerAsm, reg_eq_none_iff, hrm, length_stArm, length_movRI]
  · simp [ir_bytes, clearFlags, lowerAsm, reg_eq_none_iff, hrm, length_ldArm, length_stArm]

theorem costs_compare {ir : IRInst} :
    Builds (Costs d (reg_bytes d.rn + (if d.rm = 0#8 then 7 else reg_bytes d.rm + 3), true))
      fun b => some (b.push_back { IRBuilder.compare ir d with op := .CMP }) := by
  refine costs_one rfl fun ft => ?_
  have h7 : ∀ op imm, (encode (.aluI op rax imm)).length = 7 := fun _ _ => rfl
  have h3 : ∀ op, (encode (.alu op rax rcx)).length = 3 := fun _ => rfl
  have himm := reg_ne_imm d.rm
  by_cases hrm : d.rm = 0#8
  · simp [ir_bytes, clearFlags, lowerAsm, saveNzcvIf, aluAsm, IRBuilder.compare, reg_eq_none_iff, hrm,
      length_ldArm, h7]
  · simp [ir_bytes, clearFlags, lowerAsm, saveNzcvIf, aluAsm, IRBuilder.compare, reg_eq_none_iff, hrm, himm,
      length_ldArm, h3]

theorem costs_test {ir : IRInst} :
    Builds (Costs d (reg_bytes d.rn + reg_bytes d.rm + 3, true))
      fun b => some (b.push_back { IRBuilder.compare ir d with op := .TST }) := by
  refine costs_one rfl fun ft => ?_
  have h3 : (encode (.test rax rcx)).length = 3 := rfl
  simp [ir_bytes, clearFlags, lowerAsm, saveNzcvIf, IRBuilder.compare, length_ldArm, h3]
  omega

theorem bytes_link (ft link target : Word) (size : Byte) :
    ir_bytes ft { op := .SET_REG, dest := 30#16, src1 := IR_NONE, imm := link } +
      ir_bytes ft { op := .CALL, imm := target, size := size } = 37 := by
  have h30 : reg_bytes (u8 30#16) = 8 := rfl
  simp [ir_bytes, clearFlags, lowerAsm, length_movRI, length_stArm, size_blockRet_eq, h30]

theorem length_jcc (cc : BitVec 4) (rel : BitVec 32) : (encode (.jcc cc rel)).length = 6 := rfl

theorem costs_cb (hbr : IsBranch d.opcode) {ir : IRInst} (pc : Word) (cond : Byte) :
    Builds (Costs d (reg_bytes d.rn + 51, true)) fun b =>
      some (({ b with is_conditional := true }.push_back (cb_compare ir d)).push_back
        (cb_jump d pc cond)) := by
  refine Builds.two (.two hbr rfl rfl fun ft => ?_) (fun b => { b with is_conditional := true })
    fun _ => rfl
  have h7 : ∀ imm, (encode (.aluI .cmp rax imm)).length = 7 := fun _ => rfl
  simp [ir_bytes, clearFlags, lowerAsm, saveNzcvIf, aluAsm, cb_compare, cb_jump, length_ldArm, h7,
    length_jcc, size_blockRet_eq]

theorem costs_load {ir : IRInst} {op : IROpcode} (hop : op = .LOAD64 ∨ op = .LOAD32)
    (hset : ir.flags_set = false) :
    Builds (Costs d (reg_bytes d.rn + mem_bytes d.imm + reg_bytes d.rt, false))
      fun b => some (b.push_back { IRBuilder.load ir d with op := op }) := by
  refine costs_one hset fun ft => ?_
  rcases hop with rfl | rfl <;>
    simp [ir_bytes, clearFlags, lowerAsm, IRBuilder.load, length_ldArm, length_stArm, length_load_rax] <;>
    omega

theorem costs_store {ir : IRInst} {op : IROpcode} (hop : op = .STORE64 ∨ op = .STORE32)
    (hset : ir.flags_set = false) :
    Builds (Costs d (reg_bytes d.rn + reg_bytes d.rt + mem_bytes d.imm, false))
      fun b => some (b.push_back { IRBuilder.store ir d with op := op }) := by
  refine costs_one hset fun ft => ?_
  rcases hop with rfl | rfl <;>
    simp [ir_bytes, clearFlags, lowerAsm, IRBuilder.store, length_ldArm, length_store_rax] <;> omega

/-- The instructions whose IR neither depends on registers nor sets flags. -/
theorem costs_fixed {ir : IRInst} {n : ℕ} (hset : ir.flags_set = false)
    (h : ∀ ft, ir_bytes ft ir = n) : Builds (Costs d (n, false)) fun b => some (b.push_back ir) :=
  costs_one hset h

end Costs

theorem builds_costs (d : DecodedInstr) (pc : Word) :
    Builds (Costs d (instr_cost d)) (build_instr d pc) := by
  unfold build_instr instr_cost
  dsimp only
  refine costs_ite (fun _ => costs_arith (.inl rfl)) ?_
  refine costs_ite (fun _ => costs_arith (.inr rfl)) ?_
  refine costs_ite (fun _ => costs_shift (.inl rfl) rfl) ?_
  refine costs_ite (fun _ => costs_shift (.inr (.inl rfl)) rfl) ?_
  refine costs_ite (fun _ => costs_shift (.inr (.inr rfl)) rfl) ?_
  refine costs_ite (fun _ => costs_set_reg _) ?_
  refine costs_ite (fun _ => costs_mov _ rfl) ?_
  refine costs_ite (fun _ => costs_mov _ rfl) ?_
  refine costs_ite (fun _ => costs_mov _ rfl) ?_
  refine costs_ite (fun _ => costs_compare) ?_
  refine costs_ite (fun _ => costs_test) ?_
  refine costs_ite (fun _ => costs_fixed rfl fun _ => rfl) ?_
  have hbranch : ∀ op : Byte, op = 0x51#8 ∨ op = 0x55#8 ∨ op = 0x56#8 → IsBranch op := by decide
  refine costs_ite (fun ho => .two (.two (hbranch _ (.inl ho)) rfl rfl fun ft =>
    bytes_link ft _ _ _) id fun _ => rfl) ?_
  refine costs_ite (fun _ => costs_fixed rfl fun _ => rfl) ?_
  refine costs_ite (fun _ => ?_) ?_
  · exact ⟨[_], .one rfl fun _ => rfl, fun _ => ⟨_, rfl, rfl⟩⟩
  refine costs_ite (fun ho => costs_cb (hbranch _ (.inr (.inl ho))) _ _) ?_
  refine costs_ite (fun ho => costs_cb (hbranch _ (.inr (.inr ho))) _ _) ?_
  refine costs_ite (fun _ => costs_load (.inl rfl) rfl) ?_
  refine costs_ite (fun _ => costs_load (.inr rfl) rfl) ?_
  refine costs_ite (fun _ => costs_store (.inl rfl) rfl) ?_
  refine costs_ite (fun _ => costs_store (.inr rfl) rfl) ?_
  refine costs_ite (fun _ => costs_fixed rfl fun ft => ?_) ?_
  · simp [ir_bytes, clearFlags, lowerAsm, length_ldArm, length_stArm, length_load_rax,
      setWidth_add_eight]
    omega
  refine costs_ite (fun _ => costs_fixed rfl fun ft => ?_) ?_
  · simp [ir_bytes, clearFlags, lowerAsm, length_ldArm, length_store_rax, setWidth_add_eight]
    omega
  -- NOPs, barriers, and what the decoder never gives
  have hnop : ∀ ir : IRInst, ir.flags_set = false → (∀ ft, lowerAsm ft (clearFlags ir) = [.nop]) →
      Builds (Costs d (1, false)) fun b => some (b.push_back ir) := by
    intro ir hset h
    refine costs_fixed hset fun ft => ?_
    rw [ir_bytes, h]
    rfl
  refine costs_ite_same (hnop _ rfl fun _ => rfl) (costs_ite_same (hnop _ rfl fun _ => rfl) ?_)
  refine costs_ite_same (hnop _ rfl fun _ => rfl) (costs_ite_same (hnop _ rfl fun _ => rfl) ?_)
  refine costs_ite_same (hnop _ rfl fun _ => rfl) (costs_ite_same (hnop _ rfl fun _ => rfl) ?_)
  refine costs_ite_same (hnop _ rfl fun _ => rfl) (costs_ite_same (hnop _ rfl fun _ => rfl) ?_)
  exact costs_ite_same (hnop _ rfl fun _ => rfl) (costs_ite_same (hnop _ rfl fun _ => rfl)
    (hnop _ rfl fun _ => rfl))

/-! ## The bytes of a block -/

/-- Does the list start with a writer of the flags? -/
def sets_first (l : List IRInst) : Bool := l.head?.any (·.flags_set)

/-- The bytes of an IR list behind the optimizer. -/
def merged_bytes (ft : Word) (l : List IRInst) : ℕ := size ((merge l).flatMap (lowerAsm ft))

theorem merged_bytes_cons (ft : Word) {a : IRInst} {t : List IRInst}
    (h : ∀ ir ∈ a :: t, FlagIr ir) : merged_bytes ft (a :: t) =
      ir_bytes ft a + (if a.flags_set && !sets_first t then save_bytes else 0) +
        merged_bytes ft t := by
  have ha : FlagIr a := h a (by simp)
  have hm : FlagIr (mergeHead a t) := by
    rcases mergeHead_eq a t with he | he <;> rw [he]
    · exact ha
    · exact ⟨nofun, ha.used⟩
  have hset : (mergeHead a t).flags_set = (a.flags_set && !sets_first t) := by
    cases t with
    | nil => simp [mergeHead, sets_first]
    | cons b t =>
      rw [mergeHead_flags (h b (by simp))]
      cases hb : b.flags_set <;> cases haf : a.flags_set <;>
        simp [sets_first, clearFlags, hb, haf]
  rw [merged_bytes, merge, List.flatMap_cons, size_append, size_lowerAsm ft hm, hset, ir_bytes,
    clearFlags_mergeHead]
  rfl

/-- Branches come last, as `translate_block` collects the instructions. -/
def EndsLast : List DecodedInstr → Prop
  | [] => True
  | d :: rest => (IsBranch d.opcode → rest = []) ∧ EndsLast rest

theorem ends_block_iff {d : DecodedInstr} (hd : WellDecoded d) :
    ends_block d.category = true ↔ IsBranch d.opcode := by
  obtain ⟨-, -, hbr, hsys⟩ := hd.fits
  rw [hbr]
  simp [ends_block, hsys]

theorem irFrom_cons {d : DecodedInstr} {rest : List DecodedInstr} (hd : WellDecoded d)
    (he : EndsLast (d :: rest)) (pc : Word) (i : ℕ) :
    irFrom pc i (d :: rest) = instrIr d (pcAt pc i) ++ irFrom pc (i + 1) rest := by
  rw [irFrom]
  split_ifs with h
  · rw [he.1 ((ends_block_iff hd).mp h)]
    rfl
  · rfl

/-- **The count is right**, by induction over the instructions. -/
theorem irFrom_bytes {ds : List DecodedInstr} (hds : ∀ d ∈ ds, WellDecoded d) (he : EndsLast ds)
    (ft pc : Word) (i : ℕ) : merged_bytes ft (irFrom pc i ds) = body_bytes ds ∧
      sets_first (irFrom pc i ds) = ds.head?.any fun d => (instr_cost d).2 := by
  induction ds generalizing i with
  | nil => exact ⟨rfl, rfl⟩
  | cons d rest ih =>
    obtain ⟨ihb, ihs⟩ := ih (fun d hd => hds d (by simp [hd])) he.2 (i + 1)
    have hflag : ∀ ir ∈ irFrom pc i (d :: rest), FlagIr ir := irFrom_flagIr
    have hcost := (builds_costs d (pcAt pc i)).instrIr.1
    rw [irFrom_cons (hds d (by simp)) he] at hflag ⊢
    rw [body_bytes]
    generalize hp : instr_cost d = p at hcost
    generalize instrIr d (pcAt pc i) = l at hcost hflag
    cases hcost with
    | one ha h =>
      rw [List.cons_append, List.nil_append] at hflag ⊢
      rw [merged_bytes_cons ft hflag, ihb, ihs, h, ha]
      exact ⟨rfl, by simpa [sets_first, hp] using ha⟩
    | two hbr ha hb h =>
      -- a branch: nothing follows, and its jump does not write the flags
      obtain rfl := he.1 hbr
      have hnil : merged_bytes ft [] = 0 := rfl
      simp only [irFrom, List.append_nil] at hflag ⊢
      rw [merged_bytes_cons ft hflag, merged_bytes_cons ft fun ir hir => hflag ir (by simp [hir]), ha,
        hb, hnil]
      have := h ft
      refine ⟨?_, by simpa [sets_first, hp] using ha⟩
      simp only [sets_first, List.head?_cons, Option.any_some, hb, List.head?_nil, Option.any_none,
        body_bytes]
      simp
      omega

theorem size_blockInstrs {ds : List DecodedInstr} (hds : ∀ d ∈ ds, WellDecoded d)
    (he : EndsLast ds) (pc : Word) : size (blockInstrs ds pc) = code_bytes ds := by
  have h := (irFrom_bytes hds he (fallthrough ds pc) pc 0).1
  have h3 : (encode (.movRR r12 rdi)).length = 3 := rfl
  rw [merged_bytes] at h
  rw [blockInstrs, blockAsm, List.cons_append, size_cons, size_append, h3, blockIr, h,
    size_blockRet_eq, code_bytes, Nat.add_assoc]

theorem collect_endsLast {mem : MemoryManager} {n : ℕ} {pc : Word} :
    EndsLast (collect mem n pc) := by
  induction n generalizing pc with
  | zero => trivial
  | succ n ih =>
    have hc := collect_collects mem n pc
    generalize collect mem (n + 1) pc = ds at hc
    cases hc with
    | stop => trivial
    | last => exact ⟨fun _ => rfl, trivial⟩
    | more _ _ hd hcat =>
      refine ⟨fun hbr => absurd ?_ hcat, ih⟩
      exact ((decode?_wellDecoded hd).fits.2.2.1).mp hbr

theorem build_from_count {ds : List DecodedInstr} (hds : ∀ d ∈ ds, WellDecoded d)
    (he : EndsLast ds) {start_pc : Word} {count i : ℕ} (hi : i + ds.length = count)
    {out block : IRBlock} (h : build_from start_pc count i ds out = some block) :
    block.arm_instr_count = BitVec.ofNat 32 count := by
  induction ds generalizing i out with
  | nil =>
    obtain rfl := Option.some.inj h
    rfl
  | cons d rest ih =>
    obtain ⟨hd, hrest⟩ := List.forall_mem_cons.mp hds
    rw [List.length_cons] at hi
    obtain ⟨b, -, hb⟩ := Option.bind_eq_some_iff.mp h
    split_ifs at hb with hend
    · obtain rfl := he.1 ((ends_block_iff hd).mp hend)
      obtain rfl := Option.some.inj hb
      exact congrArg (BitVec.ofNat 32) hi
    · exact ih hrest he.2 (by omega) hb

/-- A block counts all of its instructions. -/
theorem build_count {ds : List DecodedInstr} (hds : ∀ d ∈ ds, WellDecoded d) (he : EndsLast ds)
    {pc : Word} {block : IRBlock} (h : IRBuilder.build ds pc = some block) :
    block.arm_instr_count = BitVec.ofNat 32 ds.length := by
  obtain ⟨b, hb, hb'⟩ := Option.bind_eq_some_iff.mp h
  obtain rfl := Option.some.inj hb'
  show b.arm_instr_count = _
  exact build_from_count hds he (Nat.zero_add _) hb

/-! ## Complete translations -/

/-- `host_code[0 .. host_code_size)` -/
def slot_bytes (m : Mem) (block : BlockInfo) : List Byte :=
  (List.range block.host_code_size.toNat).map fun i => m (off block.host_code i)

/-- The bytes of the block are what the lowering of the collected instructions writes into a buffer
of any greater size, and they end with the final `emit_block_ret`. -/
def CodeComplete (mem : MemoryManager) (pc : Word) (m : Mem) (block : BlockInfo) : Prop :=
  let ds := collect mem max_instr pc
  ∃ ir_block, IRBuilder.build ds pc = some ir_block ∧
    (∀ n, slot_size ≤ n → n ≤ 2 ^ 64 → slot_bytes m block =
      (lower_block (optimize ir_block) (fallthrough ds pc)
        (.set_buffer block.host_code n mem.host)).code) ∧
    ∃ pre, slot_bytes m block = pre ++ encodeAll (blockRet (fallthrough ds pc))

section Complete

variable {cache : TranslationCache} {mem : MemoryManager} {pc : Word} {block : BlockInfo}

/-- The code of the lowering in a buffer of size `n`. -/
theorem lower_code {ds : List DecodedInstr} (hds : ∀ d ∈ ds, WellDecoded d) {ir_block : IRBlock}
    (hbuild : IRBuilder.build ds pc = some ir_block) {host_code : Word} (hnull : host_code ≠ 0#64)
    (host : Mem) {n : ℕ} (hn : n ≤ 2 ^ 64) :
    let e := lower_block (optimize ir_block) (fallthrough ds pc) (.set_buffer host_code n host)
    e.buf_ = host_code ∧ e.code.length = min n (size (blockInstrs ds pc)) ∧
      (size (blockInstrs ds pc) ≤ n → e.code = encodeAll (blockInstrs ds pc)) := by
  obtain ⟨b, hb, happ⟩ := lower_appends hds (.set_buffer host_code n host)
  obtain rfl := Option.some.inj (hbuild.symm.trans hb)
  refine ⟨happ.ext.buf, ?_, fun hsize => happ.code_fresh hnull hn hsize⟩
  have := happ.offset hnull (Nat.zero_le _)
  simpa [X86_64Emitter.set_buffer, size] using this

/-- The bytes of a block are those of the emitter. -/
theorem slot_bytes_eq {e : X86_64Emitter} (hbuf : e.buf_ = block.host_code)
    (hlen : e.code.length ≤ slot_size)
    (hsize : block.host_code_size = BitVec.ofNat 32 e.code_size) : slot_bytes e.host block = e.code := by
  have hoff : e.offset_ ≤ slot_size := by rwa [X86_64Emitter.code_length] at hlen
  have hslot : slot_size < 2 ^ 32 := by decide
  have hn : block.host_code_size.toNat = e.offset_ := by
    rw [hsize, BitVec.toNat_ofNat, X86_64Emitter.code_size]
    exact Nat.mod_eq_of_lt (by omega)
  rw [slot_bytes, hn, ← hbuf, X86_64Emitter.code]

theorem blockInstrs_ends (ds : List DecodedInstr) (pc : Word) :
    ∃ pre, encodeAll (blockInstrs ds pc) = pre ++ encodeAll (blockRet (fallthrough ds pc)) := by
  rw [blockInstrs, blockAsm, encodeAll_append]
  exact ⟨_, rfl⟩

/-- A translation that returns a block leaves the lowering in the slot, as far as it fits. -/
theorem translated_bytes (h : (translate_block cache mem pc).block = some block) :
    ∃ ir_block, IRBuilder.build (collect mem max_instr pc) pc = some ir_block ∧
      block.host_code ≠ 0#64 ∧ slot_bytes (translate_block cache mem pc).mem.host block =
        (lower_block (optimize ir_block) (fallthrough (collect mem max_instr pc) pc)
          (.set_buffer block.host_code slot_size mem.host)).code := by
  have hslot : slot_size ≤ 2 ^ 64 := by decide
  have ht := translate_block_translates cache mem pc
  generalize translate_block cache mem pc = r at h ht ⊢
  cases ht with
  | empty | full => cases h
  | @done ir_block host_code _ _ b _ e hds hbuild halloc hnull he hcache hblock hcode_size hmem =>
    obtain rfl : b = block := Option.some.inj h
    obtain ⟨hbuf, hlen, -⟩ := lower_code collect_wellDecoded hbuild hnull mem.host hslot
    rw [← emit_block, ← he] at hbuf hlen
    refine ⟨ir_block, hbuild, by rwa [hblock], ?_⟩
    rw [hblock, ← emit_block, ← he]
    show slot_bytes _ b = _
    rw [hmem]
    exact slot_bytes_eq (by rw [hbuf, hblock]) (by omega) hcode_size

theorem codeComplete_of_le (h : (translate_block cache mem pc).block = some block)
    (hsize : code_bytes (collect mem max_instr pc) ≤ slot_size) :
    CodeComplete mem pc (translate_block cache mem pc).mem.host block := by
  rw [← size_blockInstrs collect_wellDecoded collect_endsLast pc] at hsize
  obtain ⟨ir_block, hbuild, hnull, hbytes⟩ := translated_bytes h
  have hcode := fun n hn hle => (lower_code collect_wellDecoded hbuild hnull mem.host
    (hn : n ≤ 2 ^ 64)).2.2 (hle : size (blockInstrs (collect mem max_instr pc) pc) ≤ n)
  have hslot : slot_size ≤ 2 ^ 64 := by decide
  refine ⟨ir_block, hbuild, fun n hn hn' => ?_, ?_⟩
  · rw [hbytes, hcode _ hslot hsize, hcode n hn' (by omega)]
  · rw [hbytes, hcode _ hslot hsize]
    exact blockInstrs_ends _ pc

theorem le_of_codeComplete (h : (translate_block cache mem pc).block = some block)
    (hc : CodeComplete mem pc (translate_block cache mem pc).mem.host block) :
    code_bytes (collect mem max_instr pc) ≤ slot_size := by
  rw [← size_blockInstrs collect_wellDecoded collect_endsLast pc]
  obtain ⟨ir_block, hbuild, hnull, hbytes⟩ := translated_bytes h
  obtain ⟨b, hb, hall, -⟩ := hc
  obtain rfl := Option.some.inj (hbuild.symm.trans hb)
  have hslot : slot_size < 2 ^ 64 := by decide
  have hlen := fun n hn => (lower_code collect_wellDecoded hbuild hnull mem.host
    (hn : n ≤ 2 ^ 64)).2.1
  -- a buffer of the whole address space takes more than the slot if the block asks for more
  have h₁ := hlen slot_size (by omega)
  have h₂ := hlen (2 ^ 64) (Nat.le_refl _)
  have he := congrArg List.length (hall (2 ^ 64) (by omega) (Nat.le_refl _))
  rw [hbytes, h₁, h₂] at he
  omega

theorem exists_block (hds : collect mem max_instr pc ≠ [])
    (hnull : (cache.alloc_host_code slot_size).1 ≠ 0#64) :
    ∃ block, (translate_block cache mem pc).block = some block := by
  have ht := translate_block_translates cache mem pc
  generalize translate_block cache mem pc = r at ht ⊢
  cases ht with
  | empty h => exact absurd h hds
  | full h => exact absurd h hnull
  | done => exact ⟨_, rfl⟩

/-- **Complete code**: no byte of a translation is dropped exactly when the count of the collected
instructions is at most the slot size. -/
theorem codeComplete_iff (h : (translate_block cache mem pc).block = some block) :
    CodeComplete mem pc (translate_block cache mem pc).mem.host block ↔
      code_bytes (collect mem max_instr pc) ≤ slot_size :=
  ⟨le_of_codeComplete h, codeComplete_of_le h⟩

end Complete

/-- Guest memory full of `subs x16, x16, #1; nop`. -/
def alternating : MemoryManager where
  regions_ := []
  translated_pages_ := []
  host a :=
    [0x10#8, 0x06#8, 0x00#8, 0xF1#8, 0x1F#8, 0x20#8, 0x03#8, 0xD5#8].getD (a.toNat % 8) 0x00#8

/-- Guest memory full of `nop`. -/
def nops : MemoryManager where
  regions_ := []
  translated_pages_ := []
  host a := [0x1F#8, 0x20#8, 0x03#8, 0xD5#8].getD (a.toNat % 4) 0x00#8

theorem collect_nops : collect nops max_instr 0x1000#64 ≠ [] := by decide +kernel

theorem codeComplete_iff_nops :
    ∃ block, (translate_block (.init 16 0x10000#64) nops 0x1000#64).block = some block ∧
      (CodeComplete nops 0x1000#64
        (translate_block (.init 16 0x10000#64) nops 0x1000#64).mem.host block ↔
          code_bytes (collect nops max_instr 0x1000#64) ≤ slot_size) := by
  have hnull : ((TranslationCache.init 16 0x10000#64).alloc_host_code slot_size).1 ≠ 0#64 := by decide
  obtain ⟨block, h⟩ := exists_block collect_nops hnull
  exact ⟨block, h, codeComplete_iff h⟩

/-- A flag writer whose successor keeps the flags saves them, so 64 instructions ask for 5110 bytes. -/
theorem alternating_bytes : code_bytes (collect alternating max_instr 0x1000#64) = 5110 := by
  decide +kernel

theorem not_codeComplete_alternating :
    ∃ block, (translate_block (.init 16 0x10000#64) alternating 0x1000#64).block = some block ∧
      ¬ CodeComplete alternating 0x1000#64
        (translate_block (.init 16 0x10000#64) alternating 0x1000#64).mem.host block := by
  have hds : collect alternating max_instr 0x1000#64 ≠ [] := by
    intro hnil
    have hbytes := alternating_bytes
    rw [hnil] at hbytes
    exact absurd hbytes (by decide)
  have hnull : ((TranslationCache.init 16 0x10000#64).alloc_host_code slot_size).1 ≠ 0#64 := by decide
  obtain ⟨block, h⟩ := exists_block hds hnull
  refine ⟨block, h, fun hc => ?_⟩
  have := le_of_codeComplete h hc
  rw [alternating_bytes] at this
  exact absurd this (by decide)

end ExecEngine

end Bbarm64
