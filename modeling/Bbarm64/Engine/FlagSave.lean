import Bbarm64.Engine.BlockCode

/-!
# Engine.FlagSave — what `save_nzcv` leaves in `ctx.nzcv`

The shifts and masks meant for RCX act on R9, so RCX keeps the whole RFLAGS image that `pushfq` and
`pop` deliver, with the other flags or-ed into it.  Bit 1 of the image is always set, and no NZCV
value has it.
-/

namespace Bbarm64

open X86 ARM64Decoder IRBuilder IRLowering

namespace ExecEngine

/-! ## The image in RCX -/

/-- Bit 1 of RFLAGS reads as one. -/
theorem image_one (f : Flags) (sys : Word) : (f.image sys).getLsbD 1 = true := by
  simp [Flags.image]

theorem bitAt_getElem (b : Bool) {i j : ℕ} (hj : j < 64) :
    (bitAt b i)[j] = (b && decide (i = j)) := by
  cases b
  · exact BitVec.getElem_zero hj
  · exact (BitVec.getElem_twoPow hj).trans (decide_eq_decide.mpr eq_comm)

/-- The carry and overflow bits. -/
theorem image_cf_of (f : Flags) (sys : Word) :
    (f.image sys).getLsbD 0 = f.cf ∧ (f.image sys).getLsbD 11 = f.of := by
  simp [Flags.image, bitAt_getElem]

/-- Bit 1 takes nothing from what is or-ed into it. -/
theorem or_bit_one {img : Word} (h : img.getLsbD 1 = true) (b : Bool) :
    img ||| (BitVec.ofBool b).setWidth 64 <<< 1 = img := by
  have hbit : ∀ i, i ≠ 1 → ((BitVec.ofBool b).setWidth 64 <<< 1).getLsbD i = false := by
    intro i hi
    cases b
    · simp
    · have e : (BitVec.ofBool true).setWidth 64 <<< 1 = BitVec.twoPow 64 1 := by decide
      rw [e, BitVec.getLsbD_twoPow, decide_eq_false (Ne.symm hi), Bool.and_false]
  refine BitVec.eq_of_getLsbD_eq fun i _ => ?_
  rw [BitVec.getLsbD_or]
  by_cases hi : i = 1
  · rw [hi, h, Bool.true_or]
  · rw [hbit i hi, Bool.or_false]

/-- `save_nzcv` up to the copy of the image to RCX. -/
def saveHead : List Instr :=
  [.store r12 512#32 rax, .store r12 520#32 rcx, .store r12 528#32 rdx, .pushfq, .pop rax,
    .movRR rcx rax]

/-- The shifts and masks. -/
def saveMid : List Instr := (saveNzcv.drop 6).take 17

/-- The scratch registers come back. -/
def saveTail : List Instr := [.load rdx r12 528#32, .load rcx r12 520#32, .load rax r12 512#32]

theorem saveNzcv_parts : saveNzcv = saveHead ++ saveMid ++ .store r12 272#32 rcx :: saveTail := rfl

/-! ## The stored word and the flags left over -/

/-- The word `save_nzcv` stores for the RFLAGS image `img`. -/
def savedWord (img : Word) : Word :=
  img ||| ((img >>> 6 &&& 1#64) <<< 1) ||| ((img &&& 1#64) <<< 2) ||| ((img >>> 11 &&& 1#64) <<< 3)

theorem shiftRight_and_one (v : Word) (i : ℕ) :
    v >>> i &&& 1#64 = (BitVec.ofBool (v.getLsbD i)).setWidth 64 := by
  rw [BitVec.and_one_eq_setWidth_ofBool_getLsbD, BitVec.getLsbD_ushiftRight, Nat.add_zero]

theorem saveHead_reg (s : State) : (execAll saveHead s).reg rax = s.flags.image s.sys ∧
    (execAll saveHead s).reg rcx = s.flags.image s.sys ∧
    (execAll saveHead s).reg r9 = s.reg r9 := by
  have hr9 : ∀ i ∈ saveHead, r9 ∉ i.writes := by decide
  refine ⟨?_, ?_, execAll_reg_of_notMem hr9 s⟩
  · simp +decide [saveHead, exec]
  · simp +decide [saveHead, exec]

theorem saveMid_stored {s : State} {img : Word} (ha : s.reg rax = img) (hc : s.reg rcx = img) :
    (execAll saveMid s).reg rcx = savedWord img := by
  simp +decide [saveMid, saveNzcv, exec, execShift, execAlu, AluOp.eval, ShiftOp.eval, ha, hc,
    savedWord]

/-- The last shift leaves ZF for bit 7 that R9 had, shifted to bit 28. -/
theorem saveMid_zf (s : State) : (execAll saveMid s).flags.zf = !(s.reg r9).getLsbD 7 := by
  have h : (execAll saveMid s).flags.zf = ((s.reg r9 >>> 7 &&& 1#64) <<< 28 == 0#64) := by
    simp +decide [saveMid, saveNzcv, exec, execShift, execAlu, AluOp.eval, ShiftOp.eval,
      ShiftOp.flags]
  rw [h, shiftRight_and_one]
  cases (s.reg r9).getLsbD 7 <;> decide

/-- R12 still points to the context in front of the store. -/
theorem saveMid_r12 {s : State} {c : Word} (hc : s.reg r12 = c) :
    (execAll saveMid (execAll saveHead s)).reg r12 = c := by
  have hparts : ∀ i ∈ saveHead ++ saveMid, r12 ∉ i.writes := by decide
  rw [← execAll_append, execAll_reg_of_notMem hparts, hc]

/-- **`save_nzcv`**: what it leaves in `ctx.nzcv`, and the zero flag behind it. -/
theorem saveNzcv_spec {s : State} {c : Word} (hc : s.reg r12 = c) :
    X86.word (execAll saveNzcv s).mem c 272 = savedWord (s.flags.image s.sys) ∧
      (execAll saveNzcv s).flags.zf = !(s.reg r9).getLsbD 7 := by
  obtain ⟨hrax, hrcx, hr9⟩ := saveHead_reg s
  have hr12 := saveMid_r12 hc
  have hstored := saveMid_stored hrax hrcx
  have hzf := saveMid_zf (execAll saveHead s)
  rw [saveNzcv_parts, execAll_append, execAll_append]
  generalize execAll saveMid (execAll saveHead s) = s₁ at hr12 hstored hzf ⊢
  constructor
  · have hmem : (execAll (.store r12 272#32 rcx :: saveTail) s₁).mem =
        writeN 8 s₁.mem (off c 272) (s₁.reg rcx) := by
      rw [execAll_cons, exec_store_ctx hr12 (by decide)]
      rfl
    rw [hmem, word_write_same, hstored]
  · have hflags : (execAll (.store r12 272#32 rcx :: saveTail) s₁).flags = s₁.flags := rfl
    rw [hflags, hzf, hr9]

/-- What `save_nzcv` stores has bit 1 set. -/
theorem saveNzcv_one {s : State} {c : Word} (hc : s.reg r12 = c) :
    (X86.word (execAll saveNzcv s).mem c 272).getLsbD 1 = true := by
  obtain ⟨hword, -⟩ := saveNzcv_spec hc
  rw [hword, savedWord, BitVec.getLsbD_or, BitVec.getLsbD_or, BitVec.getLsbD_or, image_one]
  rfl

/-! ## The flag-setting instructions -/

/-- ADD, SUB, CMP and TST. -/
def SetsNzcv (op : IROpcode) : Prop := op = .ADD ∨ op = .SUB ∨ op = .CMP ∨ op = .TST

/-- The lowering of a flag-setting instruction: the operation, `save_nzcv`, and the store of the
result. -/
theorem lowerAsm_flags {ir : IRInst} (hop : SetsNzcv ir.op) (hset : ir.flags_set = true) (ft : Word) :
    ∃ before after, lowerAsm ft ir = before ++ saveNzcv ++ after ∧ (∀ i ∈ before, r12 ∉ i.writes) ∧
      (after = [] ∨ after = [stArm rax (u8 ir.dest)]) ∧ before.length ≤ 3 := by
  have hwr : ∀ is : List Instr, (∀ i ∈ is, Form ir i) → ∀ i ∈ is, r12 ∉ i.writes :=
    fun is h i hi => (h i hi).writes.1
  have hld : Form ir (ldArm (u8 ir.src1) rax) := form_ldArm _ free_rax
  have halu : ∀ op c [Decidable c], ∀ i ∈ ldArm (u8 ir.src1) rax :: aluAsm op c ir, Form ir i :=
    fun op c _ => List.forall_mem_cons.mpr ⟨hld, form_aluAsm op c⟩
  have hlen : ∀ op c [Decidable c], (ldArm (u8 ir.src1) rax :: aluAsm op c ir).length ≤ 3 := by
    intro op c _
    unfold aluAsm
    split_ifs <;> simp
  rcases hop with h | h | h | h <;> simp only [lowerAsm, h, saveNzcvIf, if_pos hset]
  · exact ⟨_, _, rfl, hwr _ (halu _ _), .inr rfl, hlen _ _⟩
  · exact ⟨_, _, rfl, hwr _ (halu _ _), .inr rfl, hlen _ _⟩
  · exact ⟨_, [], (List.append_nil _).symm, hwr _ (halu _ _), .inl rfl, hlen _ _⟩
  · refine ⟨[ldArm (u8 ir.src1) rax, ldArm (u8 ir.src2) rcx, .test rax rcx], [],
      (List.append_nil _).symm, hwr _ ?_, .inl rfl, Nat.le_refl 3⟩
    simp only [List.forall_mem_cons]
    exact ⟨hld, form_ldArm _ free_rcx, .test _ _, List.forall_mem_nil _⟩

theorem lowerAsm_flags_one {ir : IRInst} (hop : SetsNzcv ir.op) (hset : ir.flags_set = true)
    (hdest : IsArm (u8 ir.dest)) (ft : Word) {s : State} {c : Word} (hc : s.reg r12 = c) :
    (X86.word (execAll (lowerAsm ft ir) s).mem c 272).getLsbD 1 = true := by
  obtain ⟨before, after, he, hb, ha, -⟩ := lowerAsm_flags hop hset ft
  have hc₁ : (execAll before s).reg r12 = c := by rw [execAll_reg_of_notMem hb, hc]
  have hone := saveNzcv_one hc₁
  have hc₂ : (execAll saveNzcv (execAll before s)).reg r12 = c := by
    rw [execAll_reg_of_notMem saveNzcv_r12, hc₁]
  rw [he, execAll_append, execAll_append]
  generalize execAll saveNzcv (execAll before s) = s₂ at hone hc₂ ⊢
  rcases ha with rfl | rfl
  · exact hone
  · have hd : (u8 ir.dest).toNat < 32 := hdest
    rw [execAll_cons, execAll_nil, exec_stArm_mem hc₂ hdest, word_write_ne (by omega) (by omega)
      (by omega)]
    exact hone

/-! ## The flags in `ctx.nzcv` -/

/-- The A64 flags of a flag-setting instruction on the guest registers in the context at `c`. -/
def guestFlags (ir : IRInst) (m : Mem) (c : Word) : A64.Nzcv :=
  let x (r : IRReg) : Word := X86.word m c (8 * (u8 r).toNat)
  let a := x ir.src1
  let b := if ir.src2 = IR_IMM then ir.imm else x ir.src2
  if ir.op = .ADD then .ofAdd a b
  else if ir.op = .SUB then .ofSub a b
  else if ir.op = .CMP then .ofSub a (if ir.src2 = IR_NONE then ir.imm else b)
  else .ofAnd a (x ir.src2)

/-- The code of a single IR instruction. -/
def instr_code (ir : IRInst) (host_code : Word) (host : Mem) : List Byte :=
  (lower_instr 0#64 (.set_buffer host_code slot_size host) ir).code

/-- The code of `ir`, entered with the context pointer in R12, runs to its end and leaves the A64
flags in `ctx.nzcv`. -/
def SavesNzcv (ir : IRInst) (host_code : Word) (host : Mem) (s : State) : Prop :=
  let code := instr_code ir host_code host
  let f := guestFlags ir s.mem (s.reg r12)
  ∃ s', Steps code ⟨0, s⟩ ⟨code.length, s'⟩ ∧
    X86.word s'.mem (s.reg r12) 272 = CPUContext.nzcv_of f.n f.z f.c f.v

/-- No NZCV value has bit 1. -/
theorem nzcv_of_one (n z c v : Bool) : (CPUContext.nzcv_of n z c v).getLsbD 1 = false := by
  revert n z c v
  decide

/-- The code is complete and straight, so it runs to its end in one way. -/
theorem instr_code_steps {ir : IRInst} (hir : GoodIr ir) (hop : SetsNzcv ir.op)
    (hset : ir.flags_set = true) {host_code : Word} (hb : host_code ≠ 0#64) (host : Mem)
    (s s' : State) : Steps (instr_code ir host_code host) ⟨0, s⟩
      ⟨(instr_code ir host_code host).length, s'⟩ ↔ s' = execAll (lowerAsm 0#64 ir) s := by
  have happ := lower_instr_appends (.set_buffer host_code slot_size host) 0#64 hir.lowerable
  have hsize : size (lowerAsm 0#64 ir) ≤ slot_size := by
    obtain ⟨before, after, he, -, ha, hlen⟩ := lowerAsm_flags hop hset 0#64
    have h1 : after.length ≤ 1 := by rcases ha with rfl | rfl <;> simp
    have h2 : saveNzcv.length = 27 := rfl
    have h3 := size_le_length (lowerAsm 0#64 ir)
    rw [he] at h3 ⊢
    simp only [List.length_append, h2] at h3
    unfold slot_size
    omega
  have hslot : slot_size ≤ 2 ^ 64 := by decide
  have hcode : instr_code ir host_code host = encodeAll (lowerAsm 0#64 ir) :=
    happ.code_fresh hb hslot hsize
  have hnr : ¬ Returning ir.op := by
    rcases hop with ho | ho | ho | ho <;> simp [Returning, ho]
  rw [hcode]
  exact steps_list_iff (lowerAsm_straight 0#64 hnr) s s'

theorem instr_code_not_saves {ir : IRInst} (hir : GoodIr ir) (hop : SetsNzcv ir.op)
    (hset : ir.flags_set = true) {host_code : Word} (hb : host_code ≠ 0#64) (host : Mem)
    (s : State) : ¬ SavesNzcv ir host_code host s := by
  rintro ⟨s', hs, hw⟩
  have h := lowerAsm_flags_one hop hset hir.dest 0#64 (s := s) rfl
  rw [(instr_code_steps hir hop hset hb host s s').mp hs] at hw
  rw [hw, nzcv_of_one] at h
  cases h

/-- **`save_nzcv` never works**: the code of a flag-setting instruction runs to its end, and does not
leave the A64 flags in `ctx.nzcv`, whatever the operands are. -/
theorem not_savesNzcv {ir : IRInst} (hir : GoodIr ir) (hop : SetsNzcv ir.op)
    (hset : ir.flags_set = true) {host_code : Word} (hb : host_code ≠ 0#64) (host : Mem)
    (s : State) : (∃ s', Steps (instr_code ir host_code host) ⟨0, s⟩
      ⟨(instr_code ir host_code host).length, s'⟩) ∧ ¬ SavesNzcv ir host_code host s :=
  ⟨⟨_, (instr_code_steps hir hop hset hb host s _).mpr rfl⟩, instr_code_not_saves hir hop hset hb host s⟩

/-- SUBS of two registers. -/
def subs : IRInst :=
  { op := .SUB, dest := 1#16, src1 := 2#16, src2 := 3#16, flags_set := true }

/-- ADDS of a register and an immediate. -/
def adds : IRInst :=
  { op := .ADD, dest := 1#16, src1 := 2#16, src2 := IR_IMM, imm := 5#64, flags_set := true }

theorem goodIr_subs : GoodIr subs :=
  ⟨by simp [Lowerable, subs, IR_IMM], by decide, by decide, fun _ => by decide, nofun⟩

theorem goodIr_adds : GoodIr adds :=
  ⟨fun _ => show (5#64 : Word) ≤ 0xFFFFFFFF#64 by decide, by decide, by decide, nofun, nofun⟩

theorem not_savesNzcv_subs :
    (∃ s', Steps (instr_code subs 0x8000#64 fun _ => 0#8) ⟨0, .cleared⟩
      ⟨(instr_code subs 0x8000#64 fun _ => 0#8).length, s'⟩) ∧
      ¬ SavesNzcv subs 0x8000#64 (fun _ => 0#8) .cleared :=
  not_savesNzcv goodIr_subs (.inr (.inl rfl)) rfl (by decide) _ _

theorem not_savesNzcv_adds : ¬ SavesNzcv adds 0x8000#64 (fun _ => 0#8) .cleared :=
  instr_code_not_saves goodIr_adds (.inl rfl) rfl (by decide) _ _

end ExecEngine

end Bbarm64
