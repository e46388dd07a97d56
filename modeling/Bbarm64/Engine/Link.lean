import Bbarm64.Engine.ControlFlow

/-!
# Engine.Link — the link value from BL to RET

BL stores its link value to `x[30]`, RET loads `lr`, and no translated block stores to `lr`: what a
RET leaves in `ctx.pc` is the `lr` the guest started with.
-/

namespace Bbarm64

open X86 ARM64Decoder IRBuilder IROptimizer IRLowering

namespace ExecEngine

/-! ## What a block keeps -/

/-- At every point of the run, a store other than to `[R12 + d]` is clear of the context at `c`: a
guest store, and the push of RFLAGS. -/
def Safe (code : List Byte) (c : Word) (s : State) : Prop :=
  ∀ b, Steps code ⟨0, s⟩ b →
    (∀ base d x n, decode (code.drop b.ip) = some (.store base d x, n) → base ≠ r12 →
      Clear c (b.st.ea base d) 8) ∧
    ∀ n, decode (code.drop b.ip) = some (.pushfq, n) → Clear c (b.st.reg rsp - 8#64) 8

/-- The words of the context no lowering stores to: `lr`, and what lies behind `nzcv` but for the
three words `save_nzcv` takes as scratch. -/
def Kept (o : ℕ) : Prop :=
  o = 264 ∨ 280 ≤ o ∧ (o + 8 ≤ 512 ∨ 536 ≤ o) ∧ o + 8 ≤ 8 * CPUContext.words

section Keep

variable {o : ℕ} {s : State} {c : Word}

theorem Kept.le (h : Kept o) : o + 8 ≤ 8 * CPUContext.words := by
  have hw : 8 * CPUContext.words = 832 := rfl
  rcases h with rfl | ⟨-, -, h⟩
  · decide
  · exact h

/-- A store into the context at a distance from the word. -/
theorem store_ctx_word (ho : Kept o) (hc : s.reg r12 = c) (x : Reg) {d : BitVec 32}
    (hd : d.toNat < 2 ^ 31) (hne : o + 8 ≤ d.toNat ∨ d.toNat + 8 ≤ o) :
    X86.word (exec (.store r12 d x) s).mem c o = X86.word s.mem c o := by
  have hle := ho.le
  have hw : 8 * CPUContext.words = 832 := rfl
  rw [exec_store_ctx hc hd, setMem_mem]
  exact word_write_ne hne (by omega) (by omega)

theorem stArm_word (ho : Kept o) (hc : s.reg r12 = c) (x : Reg) {r : Byte} (hr : IsArm r) :
    X86.word (exec (stArm x r) s).mem c o = X86.word s.mem c o := by
  have h := reg_offset_toNat r hr
  have hr' : r.toNat < 32 := hr
  have ho' : 264 ≤ o := by
    rcases ho with rfl | ⟨h, -⟩
    · exact Nat.le_refl _
    · omega
  exact store_ctx_word ho hc x (by omega) (by omega)

/-- **Step lemma**: an instruction of a block keeps the word. -/
theorem exec_word {ir : IRInst} (hir : GoodIr ir) (ho : Kept o) (hc : s.reg r12 = c) {i : Instr}
    (hf : Form ir i) (hclear : ∀ base d x, i = .store base d x → base ≠ r12 →
      Clear c (s.ea base d) 8) :
    X86.word (exec i s).mem c o = X86.word s.mem c o := by
  cases hf with
  | storeDest x => exact stArm_word ho hc x hir.dest
  | storeSrc2 hop x => exact stArm_word ho hc x (hir.src2 (hir.pair hop))
  | storeGuest d x =>
    exact (hclear rax d x rfl (by decide)).word s.mem (s.reg x) ho.le
  | _ => rw [exec_mem rfl]

theorem saveNzcv_word (ho : Kept o) (hc : s.reg r12 = c) {i : Instr} (hi : i ∈ saveNzcv)
    (hclear : i = .pushfq → Clear c (s.reg rsp - 8#64) 8) :
    X86.word (exec i s).mem c o = X86.word s.mem c o := by
  have hcases : ∀ i ∈ saveNzcv, i.stores = false ∨ i = .pushfq ∨ i = .store r12 512#32 rax ∨
      i = .store r12 520#32 rcx ∨ i = .store r12 528#32 rdx ∨ i = .store r12 272#32 rcx := by
    decide
  have hfar : ∀ d : BitVec 32, d = 512#32 ∨ d = 520#32 ∨ d = 528#32 ∨ d = 272#32 →
      o + 8 ≤ d.toNat ∨ d.toNat + 8 ≤ o := by
    rintro d (rfl | rfl | rfl | rfl) <;> rcases ho with rfl | ⟨h₁, h₂, -⟩ <;>
      simp only [BitVec.toNat_ofNat] <;> omega
  rcases hcases i hi with h | rfl | rfl | rfl | rfl | rfl
  · rw [exec_mem h]
  · exact (hclear rfl).word s.mem (s.flags.image s.sys) ho.le
  · exact store_ctx_word ho hc _ (by decide) (hfar _ (.inl rfl))
  · exact store_ctx_word ho hc _ (by decide) (hfar _ (.inr (.inl rfl)))
  · exact store_ctx_word ho hc _ (by decide) (hfar _ (.inr (.inr (.inl rfl))))
  · exact store_ctx_word ho hc _ (by decide) (hfar _ (.inr (.inr (.inr rfl))))

end Keep

/-- The invariant of a run: the context pointer in R12, and the word unchanged. -/
def KeepsWord (c : Word) (o : ℕ) (v : Word) (s : State) : Prop :=
  s.reg r12 = c ∧ X86.word s.mem c o = v

theorem store_pc_word {o : ℕ} (ho : Kept o) {s : State} {c : Word} (hc : s.reg r12 = c) :
    X86.word (exec (.store r12 256#32 rax) s).mem c o = X86.word s.mem c o := by
  have h : (256#32).toNat = 256 := rfl
  refine store_ctx_word ho hc rax (by decide) (.inr ?_)
  rcases ho with rfl | ⟨h', -⟩ <;> omega

theorem exec_keepsWord {irs : List IRInst} (hirs : ∀ ir ∈ irs, GoodIr ir) {ft c v : Word} {o : ℕ}
    (ho : Kept o) {i : Instr} (hi : i ∈ irs.flatMap (lowerAsm ft) ++ blockRet ft)
    (hs : i.straight = true) {s : State}
    (hstore : ∀ base d x, i = .store base d x → base ≠ r12 → Clear c (s.ea base d) 8)
    (hpush : i = .pushfq → Clear c (s.reg rsp - 8#64) 8) (hK : KeepsWord c o v s) :
    KeepsWord c o v (exec i s) := by
  obtain ⟨hc, hw⟩ := hK
  refine ⟨by rw [exec_reg_of_notMem (blockAsm_r12 hi hs), hc], Eq.trans ?_ hw⟩
  rcases mem_blockAsm hi hs with ⟨ir, hir, hf⟩ | hi | ⟨pc, rfl⟩ | rfl | rfl
  · exact exec_word (hirs ir hir) ho hc hf hstore
  · exact saveNzcv_word ho hc hi hpush
  · rw [exec_mem rfl]
  · rw [exec_mem rfl]
  · exact store_pc_word ho hc

/-- **Frame of a block**: a safe run keeps the words no lowering stores to. -/
theorem blockAsm_word {irs : List IRInst} (hirs : ∀ ir ∈ irs, GoodIr ir) {ft : Word} {s : State}
    (hsafe : Safe (encodeAll (blockAsm irs ft)) (s.reg rdi) s) {o : ℕ} (ho : Kept o) {b : Config}
    (hb : Steps (encodeAll (blockAsm irs ft)) ⟨size [.movRR r12 rdi], enter s⟩ b) :
    KeepsWord (s.reg rdi) o (X86.word s.mem (s.reg rdi) o) b.st := by
  have hp : blockAsm irs ft = [.movRR r12 rdi] ++ (irs.flatMap (lowerAsm ft) ++ blockRet ft) := rfl
  have h₀ := (blockAsm_steps ft irs s).1
  have hK : KeepsWord (s.reg rdi) o (X86.word s.mem (s.reg rdi) o) (enter s) := ⟨enter_r12 s, rfl⟩
  have h := run_invariant (jumpsForward_blockAsm irs ft) hp hK ?_ hb
  · exact h.1
  · intro b i n hb hi hs hdec hK
    obtain ⟨hst, hpush⟩ := hsafe b (h₀.trans hb)
    exact exec_keepsWord hirs ho hi hs (fun base d x he => hst base d x n (he ▸ hdec))
      (fun he => hpush n (he ▸ hdec)) hK

/-! ## Runs of blocks -/

/-- A translated block: decoded instructions whose code fits the slot. -/
structure Block where
  ds : List DecodedInstr
  pc : Word
  decoded : ∀ d ∈ ds, ∃ w, decode? w = some d
  fits : Fits ds pc

namespace Block

theorem wellDecoded (blk : Block) : ∀ d ∈ blk.ds, WellDecoded d :=
  wellDecoded_of_decoded blk.decoded

/-- The block, called with the context pointer `c` in RDI, turns memory `m` into `m'` in a safe run. -/
def Runs (blk : Block) (c : Word) (m m' : Mem) : Prop :=
  ∃ host_code host s s', host_code ≠ 0#64 ∧ s.reg rdi = c ∧ s.mem = m ∧
    Safe (block_code blk.ds blk.pc host_code host) c s ∧
    Returns (block_code blk.ds blk.pc host_code host) s s' ∧ s'.mem = m'

/-- The address of the last instruction, plus 4. -/
def link (blk : Block) : Word := blk.pc + BitVec.ofNat 64 (4 * (blk.ds.length - 1)) + 4#64

end Block

/-- The context object at `c` is the same. -/
def CtxSame (c : Word) (m m' : Mem) : Prop :=
  ∀ i < CPUContext.words, X86.word m' c (8 * i) = X86.word m c (8 * i)

/-- The blocks run one after the other; the run loop between them leaves the context alone. -/
inductive Chain (c : Word) : List Block → Mem → Mem → Prop where
  | nil (m : Mem) : Chain c [] m m
  | cons {blk : Block} {rest : List Block} {m m₁ m₂ m₃ : Mem} (hsame : CtxSame c m m₁)
    (hrun : blk.Runs c m₁ m₂) (h : Chain c rest m₂ m₃) : Chain c (blk :: rest) m m₃

section Chain

variable {c : Word} {m m' : Mem}

/-- **Step lemma**: no block stores to `lr`. -/
theorem Block.Runs.lr {blk : Block} (h : blk.Runs c m m') :
    X86.word m' c 264 = X86.word m c 264 := by
  obtain ⟨host_code, host, s, s', hb, rfl, rfl, hsafe, hret, rfl⟩ := h
  rw [block_code_eq blk.wellDecoded hb ((fits_iff blk.wellDecoded).mp blk.fits)] at hsafe hret
  obtain ⟨-, ip, hsteps, -⟩ := blockAsm_steps (fallthrough blk.ds blk.pc) (blockIr blk.ds blk.pc) s
  have hs' := hret.unique (blockAsm_returns _ _ s)
  have h := blockAsm_word (blockIr_goodIr blk.wellDecoded) hsafe (.inl rfl) hsteps
  rw [hs', popRet_mem]
  exact h.2

theorem CtxSame.lr (h : CtxSame c m m') : X86.word m' c 264 = X86.word m c 264 :=
  h 33 (by decide)

/-- **Run lemma**: `lr` is the same after any chain of blocks. -/
theorem Chain.lr {blocks : List Block} (h : Chain c blocks m m') :
    X86.word m' c 264 = X86.word m c 264 := by
  induction h with
  | nil => rfl
  | cons hsame hrun _ ih => rw [ih, hrun.lr, hsame.lr]

theorem Chain.last {blocks : List Block} {blk : Block} (h : Chain c (blocks ++ [blk]) m m') :
    ∃ m₁ m₂, Chain c blocks m m₁ ∧ CtxSame c m₁ m₂ ∧ blk.Runs c m₂ m' := by
  induction blocks generalizing m with
  | nil =>
    cases h with
    | cons hsame hrun h =>
      cases h
      exact ⟨_, _, .nil _, hsame, hrun⟩
  | cons b blocks ih =>
    cases h with
    | cons hsame hrun h =>
      obtain ⟨m₁, m₂, h₁, h₂, h₃⟩ := ih h
      exact ⟨m₁, m₂, .cons hsame hrun h₁, h₂, h₃⟩

end Chain

/-! ## BL and RET -/

theorem instrIr_ret {d : DecodedInstr} (h : d.opcode = 0x53#8) (pc : Word) :
    instrIr d pc = [{ op := .RET, src1 := 30#16, size := if d.size ≠ 0#8 then 8#8 else 4#8 }] := by
  simp [instrIr, build_instr, h, IRBlock.push_back]

/-- RET goes where `lr` says. -/
theorem ret_runs {blk : Block} {d : DecodedInstr} (hds : blk.ds = [d]) (hop : d.opcode = 0x53#8)
    {c : Word} {m m' : Mem} (h : blk.Runs c m m') : X86.word m' c 256 = X86.word m c 264 := by
  obtain ⟨host_code, host, s, s', hb, rfl, rfl, -, hret, rfl⟩ := h
  have hwd : WellDecoded d := blk.wellDecoded d (by simp [hds])
  have hi := instrIr_ret hop blk.pc
  rw [hds, returns_one hwd hi hb] at hret
  rw [hret, popRet_mem, runIr, if_pos (.inr (.inr (.inl rfl))), exitIr_ret rfl _ (enter_r12 s),
    setPc_pc (enter_r12 s), enter_mem]

/-- A call and its return: a block that ends in BL, any blocks (whether they write `x30` or not), and
the block of RET. -/
structure CallReturn (c : Word) (caller : Block) (between : List Block) (ret : Block)
    (m m' : Mem) : Prop where
  ends_bl : ∃ d, caller.ds.getLast? = some d ∧ d.opcode = 0x51#8
  is_ret : ∃ d, ret.ds = [d] ∧ d.opcode = 0x53#8
  run : Chain c (caller :: between ++ [ret]) m m'

theorem CallReturn.pc {c : Word} {caller ret : Block} {between : List Block} {m m' : Mem}
    (h : CallReturn c caller between ret m m') : X86.word m' c 256 = X86.word m c 264 := by
  obtain ⟨d, hds, hop⟩ := h.is_ret
  obtain ⟨m₁, m₂, hchain, hsame, hrun⟩ := h.run.last
  rw [ret_runs hds hop hrun, hsame.lr, hchain.lr]

/-- **Return addresses**: behind any blocks, RET goes to the address behind the BL exactly when `lr`
already was that address before the BL. -/
theorem callReturn_pc_iff {c : Word} {caller ret : Block} {between : List Block} {m m' : Mem}
    (h : CallReturn c caller between ret m m') :
    X86.word m' c 256 = caller.link ↔ X86.word m c 264 = caller.link := by
  rw [h.pc]

/-! ### A run -/

/-- The instruction stores to the context only. -/
def quiet : Instr → Bool
  | .pushfq => false
  | .store base _ _ => base == r12
  | .movRI _ _ | .movRR _ _ | .load _ _ _ | .alu _ _ _ | .aluI _ _ _ | .test _ _ | .shift _ _ _
  | .pop _ | .jcc _ _ | .nop | .ret | .int3 => true

/-- Code without guest stores and pushes is safe. -/
theorem safe_of_quiet {irs : List IRInst} {ft : Word}
    (h : ∀ i ∈ blockAsm irs ft, quiet i = true) (c : Word) (s : State) :
    Safe (encodeAll (blockAsm irs ft)) c s := by
  intro b hb
  obtain ⟨mid, rest, hp, hip⟩ := (blockAsm_controlled s hb).boundary
  have hdec : ∀ i n, decode ((encodeAll (blockAsm irs ft)).drop b.ip) = some (i, n) →
      i ∈ blockAsm irs ft := by
    intro i n hd
    cases rest with
    | nil =>
      rw [hip, hp, List.append_nil, size, List.drop_length] at hd
      cases hd
    | cons j rest =>
      rw [hip, hp, decode_at] at hd
      rw [hp, ← (Prod.mk.inj (Option.some.inj hd)).1]
      simp
  refine ⟨fun base d x n hd hne => ?_, fun n hd => ?_⟩
  · have hq := h _ (hdec _ n hd)
    exact absurd (by simpa [quiet] using hq) hne
  · cases h _ (hdec _ n hd)

/-- A quiet block runs from every memory. -/
theorem Block.exists_runs (blk : Block) (h : ∀ i ∈ blockInstrs blk.ds blk.pc, quiet i = true)
    (c : Word) (m : Mem) : ∃ m', blk.Runs c m m' := by
  have hnull : (0x8000#64 : Word) ≠ 0#64 := by decide
  have hcode := block_code_eq blk.wellDecoded hnull ((fits_iff blk.wellDecoded).mp blk.fits) m
  let s : State := { State.cleared with reg := fun q => if q = rdi then c else 0#64, mem := m }
  have hsafe := safe_of_quiet h c s
  have hret := blockAsm_returns (fallthrough blk.ds blk.pc) (blockIr blk.ds blk.pc) s
  rw [← blockInstrs, ← hcode] at hret
  exact ⟨_, 0x8000#64, m, s, _, hnull, rfl, rfl, hcode ▸ hsafe, hret, rfl⟩

/-- A block of one instruction without guest stores, from its word. -/
def wordBlock (w : BitVec 32) (pc : Word) (hd : decode? w = some (decode w).2)
    (hf : size (blockInstrs [(decode w).2] pc) ≤ slot_size) : Block where
  ds := [(decode w).2]
  pc := pc
  decoded := by
    simp only [List.forall_mem_cons]
    exact ⟨⟨w, hd⟩, List.forall_mem_nil _⟩
  fits := (fits_iff (by
    simp only [List.forall_mem_cons]
    exact ⟨decode?_wellDecoded hd, List.forall_mem_nil _⟩)).mpr hf

/-- `bl .+8` at `0x1000` -/
def blBlock : Block := wordBlock 0x94000002#32 0x1000#64 (by decide) (by decide +kernel)

/-- `ret` at `0x1008` -/
def retBlock : Block := wordBlock 0xD65F03C0#32 0x1008#64 (by decide) (by decide +kernel)

/-- A call and its return, from a cleared context. -/
theorem exists_callReturn : ∃ m', CallReturn 0x20000#64 blBlock [] retBlock (fun _ => 0#8) m' := by
  obtain ⟨m₁, h₁⟩ := blBlock.exists_runs (by decide +kernel) 0x20000#64 fun _ => 0#8
  obtain ⟨m₂, h₂⟩ := retBlock.exists_runs (by decide +kernel) 0x20000#64 m₁
  exact ⟨m₂, ⟨_, rfl, by decide⟩, ⟨_, rfl, by decide⟩,
    .cons (fun _ _ => rfl) h₁ (.cons (fun _ _ => rfl) h₂ (.nil m₂))⟩

theorem callReturn_pc_iff_bl : ∃ m', CallReturn 0x20000#64 blBlock [] retBlock (fun _ => 0#8) m' ∧
    (X86.word m' 0x20000#64 256 = blBlock.link ↔
      X86.word (fun _ => 0#8) 0x20000#64 264 = blBlock.link) := by
  obtain ⟨m', h⟩ := exists_callReturn
  exact ⟨m', h, callReturn_pc_iff h⟩

/-- With `lr` clear the guest returns to address 0, and not to `0x1004`. -/
theorem callReturn_bl_wrong : ∃ m', CallReturn 0x20000#64 blBlock [] retBlock (fun _ => 0#8) m' ∧
    X86.word m' 0x20000#64 256 ≠ blBlock.link := by
  obtain ⟨m', h⟩ := exists_callReturn
  have hlr : X86.word (fun _ => 0#8) 0x20000#64 264 = 0#64 := ctxAt_zero _ 33 (by decide)
  refine ⟨m', h, ?_⟩
  rw [h.pc, hlr]
  decide

end ExecEngine

end Bbarm64
