import Bbarm64.Engine.Compile
import Bbarm64.Engine.GuestAccess
import Bbarm64.Engine.LoadStore

/-!
# Engine.Pair — STP and LDP in the two engines

The IR of STP has no operand for the second register: `build_instr` leaves `rm` out, and the lowering
takes byte 4 of the offset for its number.  Both lowerings have a 32-bit displacement.  The bytes of
the context that the block writes behind its stores, `Rewritten`, are open to them.
-/

namespace Bbarm64

open X86 ARM64Decoder IRBuilder IRLowering

namespace ExecEngine

/-! ## The interpreter -/

/-- `base + imm_s` -/
def pair_addr (ctx : CPUContext) (d : DecodedInstr) : Word := ctx.x d.rn.toNat + d.imm_s

/-- The guest state behind STP and LDP: the pair is in memory, and `pc` two instructions on. -/
def stored_pair (g : Guest) (d : DecodedInstr) : Guest :=
  let a := pair_addr g.1 d
  let m := writeN 8 g.2.host a (g.1.x d.rt.toNat)
  (g.1.set_pc (g.1.pc + 8#64), { g.2 with host := writeN 8 m (a + 8#64) (g.1.x d.rm.toNat) })

/-- LDP loads what STP stored: two registers, by way of a third. -/
structure SamePair (st ld : DecodedInstr) : Prop where
  st_opcode : st.opcode = 0x81#8
  ld_opcode : ld.opcode = 0x80#8
  rn : ld.rn = st.rn
  rt : ld.rt = st.rt
  rm : ld.rm = st.rm
  imm_s : ld.imm_s = st.imm_s
  rn_le : st.rn ≤ 30#8
  rt_le : st.rt ≤ 30#8
  rm_le : st.rm ≤ 30#8
  rt_ne : st.rt ≠ st.rn
  rm_ne : st.rm ≠ st.rn

/-- The 16 bytes can be read and written. -/
def PairPermitted (mem : MemoryManager) (a : Word) : Prop :=
  ∀ perms ∈ [PROT_READ, PROT_WRITE],
    mem.check_perms a 8 perms = true ∧ mem.check_perms (a + 8#64) 8 perms = true

instance (mem : MemoryManager) (a : Word) : Decidable (PairPermitted mem a) :=
  List.decidableBAll _ _

theorem wordsApart_add (a : Word) : WordsApart a (a + 8#64) :=
  wordsApart_of_low_add (BitVec.setWidth_add _ _ (by decide))

section Interpreter

variable {st ld : DecodedInstr} {g : Guest}

theorem execute_stp_eq (hp : SamePair st ld) (hperm : PairPermitted g.2 (pair_addr g.1 st)) :
    execute_decoded g st = next (g.1, (stored_pair g st).2) := by
  obtain ⟨h₁, h₂⟩ := hperm PROT_WRITE (by decide)
  have haddr : x_or_sp g.1 st.rn + st.imm_s = pair_addr g.1 st := by
    rw [x_or_sp_of_le hp.rn_le, pair_addr]
  have hfirst : g.2.write_u64 (pair_addr g.1 st) (g.1.x st.rt.toNat) =
      (true, { g.2 with host := writeN 8 g.2.host (pair_addr g.1 st) (g.1.x st.rt.toNat) }) :=
    if_pos h₁
  rw [execute_stp hp.st_opcode, haddr, hfirst, MemoryManager.write_u64, MemoryManager.write_u]
  exact congrArg (store g) (if_pos h₂)

/-- **The interpreter** stores the pair, and loads what it has stored. -/
theorem execute_pair (hp : SamePair st ld) (hperm : PairPermitted g.2 (pair_addr g.1 st)) :
    execute_decoded (execute_decoded g st) ld = stored_pair g st := by
  obtain ⟨h₁, h₂⟩ := hperm PROT_READ (by decide)
  have hn : st.rn.toNat ≤ 30 := hp.rn_le
  have ht : st.rt.toNat ≤ 30 := hp.rt_le
  have hm : st.rm.toNat ≤ 30 := hp.rm_le
  rw [execute_stp_eq hp hperm]
  generalize hg' : next (g.1, (stored_pair g st).2) = g'
  have hx : ∀ i, i ≠ 32 → g'.1.word i = g.1.word i := by
    intro i hi
    rw [← hg']
    exact if_neg hi
  have hpc : g'.1.pc = g.1.pc + 4#64 := by
    rw [← hg']
    simp [next, CPUContext.pc, CPUContext.set_pc]
  have haddr : x_or_sp g'.1 ld.rn + ld.imm_s = pair_addr g.1 st := by
    rw [hp.rn, hp.imm_s, x_or_sp_of_le hp.rn_le, CPUContext.x, hx _ (by omega)]
    rfl
  have hmem : g'.2 = (stored_pair g st).2 := by
    rw [← hg']
    rfl
  have hr₁ : g'.2.read_u64 (pair_addr g.1 st) = some (g.1.x st.rt.toNat) := by
    rw [hmem]
    refine (if_pos h₁).trans (congrArg some ?_)
    exact ((wordsApart_add _).read _ _).trans (read64_writeN _ _ _)
  have hr₂ : g'.2.read_u64 (pair_addr g.1 st + 8#64) = some (g.1.x st.rm.toNat) := by
    rw [hmem]
    exact (if_pos h₂).trans (congrArg some (read64_writeN _ _ _))
  rw [execute_ldp hp.ld_opcode haddr hr₁ hr₂, hp.rt, hp.rm]
  refine Prod.ext (CPUContext.ext fun i => ?_) hmem
  -- the registers are loaded with what they hold
  by_cases h32 : i = 32
  · subst h32
    have hpc' : ((g'.1.set_x st.rt.toNat (g.1.x st.rt.toNat)).set_x st.rm.toNat
        (g.1.x st.rm.toNat)).pc = g'.1.pc := by
      simp only [CPUContext.pc, CPUContext.set_x, CPUContext.set_word]
      rw [if_neg (by omega), if_neg (by omega)]
    show _ + 4#64 = g.1.pc + 8#64
    rw [hpc', hpc, BitVec.add_assoc]
    rfl
  · simp only [next, stored_pair, CPUContext.set_pc, CPUContext.set_x, CPUContext.set_word,
      if_neg h32]
    split_ifs with hrm hrt
    · rw [hrm, CPUContext.x]
    · rw [hrt, CPUContext.x]
    · exact hx i h32

end Interpreter

/-! ## The block -/

def storePairIr (d : DecodedInstr) : IRInst where
  op := .STORE_PAIR
  src1 := reg d.rn
  src2 := reg d.rt
  imm := d.imm_s
  size := if d.size ≠ 0#8 then 8#8 else 4#8

def loadPairIr (d : DecodedInstr) : IRInst where
  op := .LOAD_PAIR
  dest := reg d.rt
  src1 := reg d.rn
  src2 := reg d.rm
  imm := d.imm_s
  size := if d.size ≠ 0#8 then 8#8 else 4#8

/-- The address of the first word in the block, from the low half of the offset. -/
def host_first (base : Word) (d : DecodedInstr) : Word := base + (d.imm_s.setWidth 32).signExtend 64

/-- The address of the second word. -/
def host_second (base : Word) (d : DecodedInstr) : Word :=
  base + (d.imm_s.setWidth 32 + 8#32).signExtend 64

/-- What the block of STP takes for the second register: the word behind the register number in byte 4
of the offset. -/
def second_word (m : Mem) (c : Word) (d : DecodedInstr) : Word :=
  X86.word m c (reg_offset ((d.imm_s >>> 32).setWidth 8)).toNat

section Block

variable {c : Word} {d : DecodedInstr} {s : State}

theorem instrIr_stp (hop : d.opcode = 0x81#8) (pc : Word) : instrIr d pc = [storePairIr d] := by
  simp [instrIr, build_instr, hop, storePairIr, IRBlock.push_back]

theorem instrIr_ldp (hop : d.opcode = 0x80#8) (pc : Word) : instrIr d pc = [loadPairIr d] := by
  simp [instrIr, build_instr, hop, loadPairIr, IRBlock.push_back]

theorem reg_offset_lt : ∀ r : Byte, (reg_offset r).toNat < 2 ^ 31 := by decide

theorem setWidth_signExtend (v : BitVec 32) : (v.signExtend 64).setWidth 32 = v := by
  refine BitVec.eq_of_getLsbD_eq fun i hi => ?_
  rw [BitVec.getLsbD_setWidth, BitVec.getLsbD_signExtend, if_pos hi]
  simp [hi, show i < 64 by omega]

theorem host_first_low (base : Word) (d : DecodedInstr) :
    (host_first base d).setWidth 32 = (base + d.imm_s).setWidth 32 := by
  rw [host_first, BitVec.setWidth_add _ _ (by decide), BitVec.setWidth_add _ _ (by decide),
    setWidth_signExtend]

theorem host_second_low (base : Word) (d : DecodedInstr) :
    (host_second base d).setWidth 32 = (base + d.imm_s).setWidth 32 + 8#32 := by
  rw [host_second, BitVec.setWidth_add _ _ (by decide), BitVec.setWidth_add _ _ (by decide),
    setWidth_signExtend, BitVec.add_assoc]

theorem wordsApart_host (base : Word) (d : DecodedInstr) :
    WordsApart (host_first base d) (host_second base d) :=
  wordsApart_of_low_add (by rw [host_second_low, host_first_low])

theorem lowerAsm_stp (d : DecodedInstr) (ft : Word) : lowerAsm ft (storePairIr d) =
    [ldArm d.rn rax, ldArm d.rt rcx, ldArm ((d.imm_s >>> 32).setWidth 8) rdx,
      .store rax (d.imm_s.setWidth 32) rcx, .store rax (d.imm_s.setWidth 32 + 8#32) rdx] := by
  simp [lowerAsm, storePairIr]

theorem lowerAsm_ldp (d : DecodedInstr) (ft : Word) : lowerAsm ft (loadPairIr d) =
    [ldArm d.rn rax, .load rcx rax (d.imm_s.setWidth 32), .load rdx rax (d.imm_s.setWidth 32 + 8#32),
      stArm rcx d.rt, stArm rdx d.rm] := by
  simp [lowerAsm, loadPairIr]

/-- The block of STP stores the first register, and what it takes for the second one. -/
theorem run_stp (hrn : IsArm d.rn) (hrt : IsArm d.rt) (hc : s.reg r12 = c) (ft : Word) :
    (execAll (lowerAsm ft (storePairIr d)) s).mem =
      let base := X86.word s.mem c (8 * d.rn.toNat)
      writeN 8 (writeN 8 s.mem (host_first base d) (X86.word s.mem c (8 * d.rt.toNat)))
        (host_second base d) (second_word s.mem c d) := by
  let s₁ := s.setReg rax (X86.word s.mem c (8 * d.rn.toNat))
  let s₂ := s₁.setReg rcx (X86.word s.mem c (8 * d.rt.toNat))
  let s₃ := s₂.setReg rdx (second_word s.mem c d)
  have h₁ : exec (ldArm d.rn rax) s = s₁ := exec_ldArm hc hrn rax
  have h₂ : exec (ldArm d.rt rcx) s₁ = s₂ := exec_ldArm (s := s₁) hc hrt rcx
  have h₃ : exec (ldArm ((d.imm_s >>> 32).setWidth 8) rdx) s₂ = s₃ :=
    exec_load_ctx (s := s₂) hc (reg_offset_lt _) rdx
  rw [lowerAsm_stp, execAll_cons, h₁, execAll_cons, h₂, execAll_cons, h₃]
  rfl

/-- The block of LDP loads two words. -/
theorem run_ldp (hrn : IsArm d.rn) (hrt : IsArm d.rt) (hrm : IsArm d.rm) (hc : s.reg r12 = c)
    (ft : Word) :
    (execAll (lowerAsm ft (loadPairIr d)) s).mem =
      let base := X86.word s.mem c (8 * d.rn.toNat)
      writeN 8 (writeN 8 s.mem (off c (8 * d.rt.toNat)) (read64 s.mem (host_first base d)))
        (off c (8 * d.rm.toNat)) (read64 s.mem (host_second base d)) := by
  let base := X86.word s.mem c (8 * d.rn.toNat)
  let s₁ := s.setReg rax base
  let s₂ := s₁.setReg rcx (read64 s.mem (host_first base d))
  let s₃ := s₂.setReg rdx (read64 s.mem (host_second base d))
  have h₁ : exec (ldArm d.rn rax) s = s₁ := exec_ldArm hc hrn rax
  have h₂ : exec (.load rcx rax (d.imm_s.setWidth 32)) s₁ = s₂ := rfl
  have h₃ : exec (.load rdx rax (d.imm_s.setWidth 32 + 8#32)) s₂ = s₃ := rfl
  have hc₄ : (exec (stArm rcx d.rt) s₃).reg r12 = c := hc
  rw [lowerAsm_ldp, execAll_cons, h₁, execAll_cons, h₂, execAll_cons, h₃, execAll_cons, execAll_cons,
    execAll_nil, exec_stArm_mem hc₄ hrm, exec_stArm_mem (s := s₃) hc hrt]
  rfl

/-! ## The pair in one block -/

/-- What is written to the context behind the stores: both registers and `pc`. -/
def reload (c : Word) (d : DecodedInstr) (m : Mem) (v₁ v₂ pc : Word) : Mem :=
  writeN 8 (writeN 8 (writeN 8 m (off c (8 * d.rt.toNat)) v₁) (off c (8 * d.rm.toNat)) v₂)
    (off c (8 * 32)) pc

/-- The bytes of these words of the context. -/
def Rewritten (c : Word) (d : DecodedInstr) (b : Word) : Prop :=
  ∃ k ∈ [d.rt.toNat, d.rm.toNat, 32], (b - off c (8 * k)).toNat < 8

section Reload

variable {m m' : Mem} {b v₁ v₂ pc : Word}

theorem reload_off (hb : ¬ Rewritten c d b) : reload c d m v₁ v₂ pc b = m b := by
  have hle : ∀ k ∈ [d.rt.toNat, d.rm.toNat, 32], 8 ≤ (b - off c (8 * k)).toNat :=
    fun k hk => Nat.le_of_not_lt fun hlt => hb ⟨k, hk, hlt⟩
  rw [reload, writeN_of_le (hle 32 (by simp)), writeN_of_le (hle _ (by simp)),
    writeN_of_le (hle _ (by simp))]

theorem reload_congr (h : ∀ b, ¬ Rewritten c d b → m b = m' b) :
    reload c d m v₁ v₂ pc = reload c d m' v₁ v₂ pc := by
  funext b
  by_cases hb : Rewritten c d b
  · obtain ⟨k, hk, hlt⟩ := hb
    simp only [List.mem_cons, List.not_mem_nil, or_false] at hk
    unfold reload writeN
    rcases hk with rfl | rfl | rfl <;> split_ifs <;> rfl
  · rw [reload_off hb, reload_off hb, h b hb]

theorem not_rewritten {k i : ℕ} (hk : k < 32) (ht : k ≠ d.rt.toNat) (hm : k ≠ d.rm.toNat)
    (hi : i < 8) : ¬ Rewritten c d (off c (8 * k) + BitVec.ofNat 64 i) := by
  rintro ⟨j, hj, hlt⟩
  have hrt := d.rt.isLt
  have hrm := d.rm.isLt
  have hj' : j < 256 ∧ j ≠ k := by
    simp only [List.mem_cons, List.not_mem_nil, or_false] at hj
    omega
  rw [off_add] at hlt
  rcases Nat.lt_or_ge k j with hkj | hkj
  · rw [off_sub_toNat_of_lt (by omega) (by omega)] at hlt
    omega
  · rw [off_sub_toNat (by omega) (by omega)] at hlt
    omega

end Reload

end Block


section Pair

variable {st ld : DecodedInstr} {g : Guest} {host_code c : Word} {s : State}

/-- The memory behind STP in the block, which takes `z` for the second register. -/
def stp_mem (d : DecodedInstr) (g : Guest) (z : Word) : Mem :=
  let base := g.1.x d.rn.toNat
  writeN 8 (writeN 8 g.2.host (host_first base d) (g.1.x d.rt.toNat)) (host_second base d) z

/-- The word `v` goes to `b`; or it is in place there and at `a`, where it should go. -/
def Goes (R : Word → Prop) (m : Mem) (b a v : Word) : Prop :=
  b = a ∨ StoredOff R m b v ∧ StoredOff R m a v

/-- The number in byte 4 of the offset finds the second register, and both stores go to their address
or find the word in place. -/
def PairInPlace (c : Word) (d : DecodedInstr) (g : Guest) : Prop :=
  let base := g.1.x d.rn.toNat
  let a := pair_addr g.1 d
  second_word g.2.host c d = g.1.x d.rm.toNat ∧
    Goes (Rewritten c d) g.2.host (host_first base d) a (g.1.x d.rt.toNat) ∧
      Goes (Rewritten c d) g.2.host (host_second base d) (a + 8#64) (g.1.x d.rm.toNat)

theorem stp_mem_off_iff (R : Word → Prop) (d : DecodedInstr) (g : Guest) :
    (∀ b, ¬ R b → stp_mem d g (g.1.x d.rm.toNat) b = (stored_pair g d).2.host b) ↔
      Goes R g.2.host (host_first (g.1.x d.rn.toNat) d) (pair_addr g.1 d) (g.1.x d.rt.toNat) ∧
        Goes R g.2.host (host_second (g.1.x d.rn.toNat) d) (pair_addr g.1 d + 8#64)
          (g.1.x d.rm.toNat) := by
  have h₁ := host_first_low (g.1.x d.rn.toNat) d
  have h₂ := host_second_low (g.1.x d.rn.toNat) d
  have ha : (pair_addr g.1 d + 8#64).setWidth 32 = (pair_addr g.1 d).setWidth 32 + 8#32 :=
    BitVec.setWidth_add _ _ (by decide)
  have hor : ∀ {p q : Word}, p.setWidth 32 = q.setWidth 32 → p = q ∨ WordsApart p q :=
    fun h => or_iff_not_imp_left.mpr (wordsApart_of_low h)
  exact writeN_two_off_iff (hor h₁) (hor (h₂.trans ha.symm)) (wordsApart_host _ d)
    (wordsApart_of_low_add (ha.trans (congrArg (· + 8#32) h₁.symm))) (wordsApart_of_low_add h₂)
    (wordsApart_add _)

/-- What LDP loads behind STP, if the base register is still there. -/
theorem read_stp_mem (d : DecodedInstr) (g : Guest) (z : Word) :
    read64 (stp_mem d g z) (host_first (g.1.x d.rn.toNat) d) = g.1.x d.rt.toNat ∧
      read64 (stp_mem d g z) (host_second (g.1.x d.rn.toNat) d) = z :=
  ⟨((wordsApart_host _ d).read _ z).trans (read64_writeN _ _ _), read64_writeN _ _ _⟩

/-- The memory behind the block. -/
def pair_mem (c : Word) (d : DecodedInstr) (g : Guest) : Mem :=
  let m := stp_mem d g (second_word g.2.host c d)
  let base := X86.word m c (8 * d.rn.toNat)
  reload c d m (read64 m (host_first base d)) (read64 m (host_second base d)) (g.1.pc + 8#64)

theorem HoldsGuest.store_pair (hold : HoldsGuest c g.2.host g) (d : DecodedInstr)
    (hclear : Clear c (pair_addr g.1 d) 8 ∧ Clear c (pair_addr g.1 d + 8#64) 8) :
    HoldsGuest c (stored_pair g d).2.host (g.1, (stored_pair g d).2) :=
  (hold.store hclear.1 (g.1.x d.rt.toNat)).store hclear.2 (g.1.x d.rm.toNat)

/-- The memory of the guest state behind the pair: both registers hold what is loaded. -/
theorem holds_reload (hp : SamePair st ld) (hold : HoldsGuest c g.2.host g)
    (hclear : Clear c (pair_addr g.1 st) 8 ∧ Clear c (pair_addr g.1 st + 8#64) 8) :
    HoldsGuest c (reload c st (stored_pair g st).2.host (g.1.x st.rt.toNat) (g.1.x st.rm.toNat)
      (g.1.pc + 8#64)) (stored_pair g st) := by
  have ht : st.rt.toNat ≤ 30 := hp.rt_le
  have hm : st.rm.toNat ≤ 30 := hp.rm_le
  have hw : CPUContext.words = 104 := rfl
  have h := hold.store_pair st hclear
  have hrt : X86.word (stored_pair g st).2.host c (8 * st.rt.toNat) = g.1.x st.rt.toNat :=
    h.1 _ (by omega)
  have hrm : X86.word (stored_pair g st).2.host c (8 * st.rm.toNat) = g.1.x st.rm.toNat :=
    h.1 _ (by omega)
  rw [reload, writeN_read64 hrt, writeN_read64 hrm]
  exact h.set (by omega) _

/-- The block leaves the guest state behind the pair. -/
theorem holds_pair_iff (hp : SamePair st ld) (hold : HoldsGuest c g.2.host g)
    (hclear : Clear c (pair_addr g.1 st) 8 ∧ Clear c (pair_addr g.1 st + 8#64) 8) :
    HoldsGuest c (pair_mem c st g) (stored_pair g st) ↔ PairInPlace c st g := by
  have hn : st.rn.toNat ≤ 30 := hp.rn_le
  have hm : st.rm.toNat ≤ 30 := hp.rm_le
  have hw : CPUContext.words = 104 := rfl
  have hne_t : st.rn.toNat ≠ st.rt.toNat := fun h => hp.rt_ne (BitVec.eq_of_toNat_eq h.symm)
  have hne_m : st.rn.toNat ≠ st.rm.toNat := fun h => hp.rm_ne (BitVec.eq_of_toNat_eq h.symm)
  generalize hz : second_word g.2.host c st = z
  -- where nothing but the words written later differs, LDP finds the base register
  have hpair : (∀ b, ¬ Rewritten c st b → stp_mem st g z b = (stored_pair g st).2.host b) →
      pair_mem c st g = reload c st (stp_mem st g z) (g.1.x st.rt.toNat) z (g.1.pc + 8#64) := by
    intro hoff
    have hbase : X86.word (stp_mem st g z) c (8 * st.rn.toNat) = g.1.x st.rn.toNat := by
      refine Eq.trans (read64_congr fun i hi => ?_) ((hold.store_pair st hclear).1 _ (by omega))
      exact hoff _ (not_rewritten (by omega) hne_t hne_m hi)
    have hread := read_stp_mem st g z
    simp only [pair_mem, hz, hbase, hread.1, hread.2]
  rw [holdsGuest_iff (holds_reload hp hold hclear)]
  constructor
  · intro h
    have hoff : ∀ b, ¬ Rewritten c st b → stp_mem st g z b = (stored_pair g st).2.host b := by
      intro b hb
      have hbyte := congrFun h b
      simp only [pair_mem] at hbyte
      rwa [hz, reload_off hb, reload_off hb] at hbyte
    rw [hpair hoff] at h
    have hzm : z = g.1.x st.rm.toNat := by
      have hword := congrArg (fun m => X86.word m c (8 * st.rm.toNat)) h
      have hapart : 8 * st.rm.toNat + 8 ≤ 8 * 32 := by omega
      simpa only [reload, word_write_ne (.inl hapart) (by omega) (by omega), word_write_same]
        using hword
    rw [hzm] at hoff
    exact ⟨hz.trans hzm, (stp_mem_off_iff _ st g).mp hoff⟩
  · rintro ⟨hzm, hgoes⟩
    obtain rfl := hz.symm.trans hzm
    have hoff := (stp_mem_off_iff _ st g).mpr hgoes
    rw [hpair hoff, reload_congr hoff]

theorem blockIr_pair (hp : SamePair st ld) (hcat : ends_block st.category = false) (pc : Word) :
    blockIr [st, ld] pc = [storePairIr st, loadPairIr ld] := by
  have hir : irFrom pc 0 [st, ld] = [storePairIr st, loadPairIr ld] := by
    simp [irFrom, hcat, instrIr_stp hp.st_opcode, instrIr_ldp hp.ld_opcode]
  rw [blockIr, hir]
  exact merge_of_flags (by simp [storePairIr, loadPairIr])

/-- The block of the two instructions. -/
theorem returns_pair (hp : SamePair st ld) (hcat : ends_block st.category = false)
    (hb : host_code ≠ 0#64) (host : Mem) (hctx : CtxAt s.mem (s.reg rdi) g.1)
    (hmem : s.mem = g.2.host) :
    ∃ s', (∀ s₁, Returns (block_code [st, ld] g.1.pc host_code host) s s₁ ↔ s₁ = s') ∧
      s'.mem = pair_mem (s.reg rdi) st g := by
  have hrn := isArm_of_le hp.rn_le
  have hrt := isArm_of_le hp.rt_le
  have hrm := isArm_of_le hp.rm_le
  have hst : ¬ Returning (storePairIr st).op := (by decide : ¬ Returning .STORE_PAIR)
  have hld : ¬ Returning (loadPairIr ld).op := (by decide : ¬ Returning .LOAD_PAIR)
  have hl : ∀ ir ∈ [storePairIr st, loadPairIr ld], Lowerable ir := by
    simp [storePairIr, loadPairIr, Lowerable]
  refine ⟨_, fun s₁ => returns_short (blockIr_pair hp hcat g.1.pc) hl (by simp) hb host, ?_⟩
  let ft := fallthrough [st, ld] g.1.pc
  let s₁ := execAll (lowerAsm ft (storePairIr st)) (enter s)
  let s₂ := execAll (lowerAsm ft (loadPairIr ld)) s₁
  have hc₁ : s₁.reg r12 = s.reg rdi := lone_r12 hst ft s
  have hc₂ : s₂.reg r12 = s.reg rdi := (lowerAsm_r12 ft hld s₁).trans hc₁
  have hreg : ∀ i < 32, X86.word s.mem (s.reg rdi) (8 * i) = g.1.x i :=
    fun i hi => hctx i (Nat.lt_of_lt_of_le hi (by decide))
  have hm₁ : s₁.mem = stp_mem st g (second_word g.2.host (s.reg rdi) st) := by
    have h := run_stp (s := enter s) hrn hrt (enter_r12 s) ft
    rw [enter_mem, hreg _ hrn, hreg _ hrt, hmem] at h
    exact h
  have hm₂ := run_ldp (d := ld) (hp.rn ▸ hrn) (hp.rt ▸ hrt) (hp.rm ▸ hrm) hc₁ ft
  have hm₃ := setPc_mem hc₂ ft
  rw [popRet_mem, runIr, if_neg hst, runIr, if_neg hld, runIr]
  refine hm₃.trans ?_
  rw [show s₂.mem = _ from hm₂, hm₁, hp.rn, hp.rt, hp.rm]
  simp only [host_first, host_second, hp.imm_s]
  rfl

/-- STP and LDP store the pair and load it again, in the interpreter and in the block. -/
def PairRoundTrips (st ld : DecodedInstr) (g : Guest) (host_code : Word) (host : Mem) (s : State) :
    Prop :=
  execute_decoded (execute_decoded g st) ld = stored_pair g st ∧
    ∃ s', Returns (block_code [st, ld] g.1.pc host_code host) s s' ∧
      HoldsGuest (s.reg rdi) s'.mem (stored_pair g st)

/-- **The round trip of a pair** fails in the block unless the offset names the second register and
both stores go to their address, or what they get wrong is there already.  (STP does not end a
block.) -/
theorem pairRoundTrips_iff (hp : SamePair st ld) (hcat : ends_block st.category = false)
    (hperm : PairPermitted g.2 (pair_addr g.1 st)) (hb : host_code ≠ 0#64) (host : Mem)
    (hctx : CtxAt s.mem (s.reg rdi) g.1) (hmem : s.mem = g.2.host)
    (hclear : Clear (s.reg rdi) (pair_addr g.1 st) 8 ∧
      Clear (s.reg rdi) (pair_addr g.1 st + 8#64) 8) :
    PairRoundTrips st ld g host_code host s ↔ PairInPlace (s.reg rdi) st g := by
  have hold : HoldsGuest (s.reg rdi) g.2.host g := holdsGuest_host (hmem ▸ hctx)
  obtain ⟨s', hret, hs'⟩ := returns_pair hp hcat hb host hctx hmem
  unfold PairRoundTrips
  simp only [hret, exists_eq_left]
  rw [and_iff_right (execute_pair hp hperm), hs', holds_pair_iff hp hold hclear]

end Pair

/-- `stp x1, x3, [x2, #0x1000]` and its LDP. -/
def stp_x1_x3 : DecodedInstr :=
  { DecodedInstr.cleared 0xA9000C41#32 with
    category := .LOAD_STORE_PAIR, opcode := 0x81#8, rt := 1#8, rm := 3#8, rn := 2#8,
    imm_s := 0x1000#64 }

def ldp_x1_x3 : DecodedInstr := { stp_x1_x3 with opcode := 0x80#8 }

theorem samePair_x1_x3 : SamePair stp_x1_x3 ldp_x1_x3 where
  st_opcode := rfl
  ld_opcode := rfl
  rn := rfl
  rt := rfl
  rm := rfl
  imm_s := rfl
  rn_le := by decide
  rt_le := by decide
  rm_le := by decide
  rt_ne := by decide
  rm_ne := by decide

/-- Addresses above the context at 0. -/
theorem clear_of_le {a : Word} {k : ℕ} (h : 832 ≤ a.toNat) (h' : a.toNat + k ≤ 2 ^ 64) :
    Clear 0#64 a k := by
  have hw : 8 * CPUContext.words = 832 := rfl
  intro i hi
  simp only [BitVec.toNat_sub, BitVec.toNat_add, BitVec.toNat_ofNat]
  omega

/-- 12 in `x1`, 7 in `x3` and in `x0`, and 0x2000 in `x2`. -/
def pair_ctx : CPUContext :=
  (((CPUContext.zero.set_x 0 7#64).set_x 1 12#64).set_x 2 0x2000#64).set_x 3 7#64

def pair_guest : Guest := (pair_ctx, { (open_state .zero).2 with host := ctx_mem pair_ctx })

/-- The block stores `x0`, which is `x3` here. -/
theorem pairRoundTrips_iff_x0 :
    PairRoundTrips stp_x1_x3 ldp_x1_x3 pair_guest 0x8000#64 (fun _ => 0#8) (holding pair_ctx) := by
  have hplace : PairInPlace 0#64 stp_x1_x3 pair_guest :=
    ⟨by decide, .inl (by decide), .inl (by decide)⟩
  have hclear : Clear ((holding pair_ctx).reg rdi) (pair_addr pair_guest.1 stp_x1_x3) 8 ∧
      Clear ((holding pair_ctx).reg rdi) (pair_addr pair_guest.1 stp_x1_x3 + 8#64) 8 :=
    ⟨clear_of_le (by decide) (by decide), clear_of_le (by decide) (by decide)⟩
  exact (pairRoundTrips_iff samePair_x1_x3 (by decide) (by decide) (by decide) _ (ctxAt_holding _) rfl
    hclear).mpr hplace

/-- A cleared state but for `x3 = 7`. -/
def seven_in_x3 : Guest :=
  (CPUContext.zero.set 3 7#64,
    { (open_state .zero).2 with host := writeN 8 (fun _ => 0#8) (off 0#64 24) 7#64 })

theorem ctxAt_seven_in_x3 : CtxAt seven_in_x3.2.host 0#64 seven_in_x3.1 :=
  (ctxAt_zero 0#64).write (by decide : 3 < CPUContext.words) 7#64

/-- The block stores `x0` in the place of `x3`. -/
theorem not_pairRoundTrips_x3 :
    PairPermitted seven_in_x3.2 (pair_addr seven_in_x3.1 stp_x1_x3) ∧
      ¬ PairRoundTrips stp_x1_x3 ldp_x1_x3 seven_in_x3 0x8000#64 (fun _ => 0#8)
        { State.cleared with mem := seven_in_x3.2.host } := by
  refine ⟨by decide, ?_⟩
  rintro ⟨-, s', hs, hheld⟩
  obtain ⟨s₁, hret, hs₁⟩ := returns_pair samePair_x1_x3 (by decide) (by decide : 0x8000#64 ≠ 0#64)
    (fun _ => 0#8) (s := { State.cleared with mem := seven_in_x3.2.host }) ctxAt_seven_in_x3 rfl
  obtain rfl := (hret s').mp hs
  rw [hs₁] at hheld
  have hplace := (holds_pair_iff samePair_x1_x3 (holdsGuest_host ctxAt_seven_in_x3)
    ⟨clear_of_le (by decide) (by decide), clear_of_le (by decide) (by decide)⟩).mp hheld
  exact absurd hplace.1 (by decide)

end ExecEngine

end Bbarm64
