import Bbarm64.Engine.BlockCode

/-!
# Engine.ControlFlow — control-flow integrity of translated blocks

The code of a block that fits its slot disassembles into whole instructions, its jumps stay on them,
and every run keeps the context pointer in R12 and ends, with RSP where it was, at a `ret` behind
the store to `ctx.pc`.
-/

namespace Bbarm64

open X86 ARM64Decoder IRLowering

namespace ExecEngine

/-- At every point `b` of a run from state `s`: an instruction boundary; behind the prologue, the
context pointer in R12; at a `ret`, the store to `ctx.pc` just done and the stack pointer of the
entry; and a `ret` ahead. -/
structure Controlled (is : List Instr) (code : List Byte) (s : State) (b : Config) : Prop where
  boundary : ∃ mid rest, is = mid ++ rest ∧ b.ip = size mid
  context : b = ⟨0, s⟩ ∨ b.st.reg r12 = s.reg rdi
  ret : AtRet code b → RetAfterStore is b.ip ∧ b.st.reg rsp = s.reg rsp
  reaches : ∃ r, Steps code b r ∧ AtRet code r

section Control

variable {irs : List IRInst} {ft : Word}

/-- Nothing behind the prologue writes R12. -/
theorem blockAsm_r12 {i : Instr} (h : i ∈ irs.flatMap (lowerAsm ft) ++ blockRet ft)
    (hs : i.straight = true) : r12 ∉ i.writes := by
  rcases mem_blockAsm h hs with ⟨ir, -, hf⟩ | hi | ⟨pc, rfl⟩ | rfl | rfl
  · exact hf.writes.1
  · exact saveNzcv_r12 i hi
  · exact (by decide : r12 ∉ [rax])
  · decide
  · decide

/-- A run behind the prologue. -/
theorem body_invariant (s : State) {b : Config}
    (hb : Steps (encodeAll (blockAsm irs ft)) ⟨size [.movRR r12 rdi], enter s⟩ b) :
    b.st.reg r12 = s.reg rdi ∧
      ∃ mid rest, blockAsm irs ft = mid ++ rest ∧ b.ip = size mid := by
  have hp : blockAsm irs ft = [.movRR r12 rdi] ++ (irs.flatMap (lowerAsm ft) ++ blockRet ft) := rfl
  have h := run_invariant (jumpsForward_blockAsm irs ft) hp
    (K := fun t => t.reg r12 = s.reg rdi) (enter_r12 s)
    (fun b i _ _ hi hs _ hK => by rw [exec_reg_of_notMem (blockAsm_r12 hi hs), hK]) hb
  obtain ⟨hK, mid, rest, htail, hip⟩ := h
  exact ⟨hK, _, rest, by rw [hp, htail, List.append_assoc], hip⟩

/-- Every point of a run of a lowered block is controlled. -/
theorem blockAsm_controlled (s : State) {b : Config}
    (hb : Steps (encodeAll (blockAsm irs ft)) ⟨0, s⟩ b) :
    Controlled (blockAsm irs ft) (encodeAll (blockAsm irs ft)) s b := by
  obtain ⟨h₀, ip, h₁, hret⟩ := blockAsm_steps ft irs s
  have hstuck := hret.atRet (c := ⟨ip, runIr ft irs (enter s)⟩)
  have hend := (h₀.trans h₁).reached hstuck.stuck hb
  refine ⟨?_, ?_, fun hr => ?_, _, hend, hstuck⟩
  · have hp : blockAsm irs ft = [] ++ blockAsm irs ft := rfl
    exact (run_invariant (jumpsForward_blockAsm irs ft) hp (K := fun _ => True) trivial
      (fun _ _ _ _ _ _ _ _ => trivial) hb).2
  · rcases Relation.ReflTransGen.cases_head hb with rfl | ⟨d, hd, hdb⟩
    · exact .inl rfl
    · -- the first step is the prologue
      have hstep := step_straight (i := .movRR r12 rdi) rfl []
        (irs.flatMap (lowerAsm ft) ++ blockRet ft) s
      obtain rfl := Option.some.inj (hstep.symm.trans hd)
      exact .inr (body_invariant s hdb).1
  · -- a `ret` is where the run ends
    obtain rfl := Halting.Run.eq_of_halted hend hr.stuck
    exact ⟨hret, (runIr_reg ft irs (enter s)).2.trans (enter_rsp s)⟩

end Control

/-- **Control-flow integrity**: the code of a block that fits is a list of whole instructions whose
jumps land on one of them, and every run of it is controlled at every point. -/
theorem block_code_controlled {ds : List DecodedInstr} (hds : ∀ d ∈ ds, ∃ w, decode? w = some d)
    {pc host_code : Word} (hb : host_code ≠ 0#64) (hfits : Fits ds pc) (host : Mem) :
    ∃ is, disasm (block_code ds pc host_code host) = some is ∧ JumpsForward is ∧
      ∀ s b, Steps (block_code ds pc host_code host) ⟨0, s⟩ b →
        Controlled is (block_code ds pc host_code host) s b := by
  have hwd := wellDecoded_of_decoded hds
  rw [block_code_eq hwd hb ((fits_iff hwd).mp hfits)]
  exact ⟨_, disasm_encodeAll _, jumpsForward_blockAsm _ _, fun s b => blockAsm_controlled s⟩

/-- `subs x0, x0, #1; b.ne .-4` -/
def countdown : List DecodedInstr := [(decode 0xF1000400#32).2, (decode 0x54FFFFE1#32).2]

theorem countdown_decoded : ∀ d ∈ countdown, ∃ w, decode? w = some d := by
  simp only [countdown, List.forall_mem_cons]
  exact ⟨⟨0xF1000400#32, by decide⟩, ⟨0x54FFFFE1#32, by decide⟩, List.forall_mem_nil _⟩

theorem countdown_fits : Fits countdown 0x1000#64 := by
  rw [fits_iff (wellDecoded_of_decoded countdown_decoded)]
  decide +kernel

theorem block_code_controlled_countdown :
    ∃ is, disasm (block_code countdown 0x1000#64 0x8000#64 fun _ => 0#8) = some is ∧
      JumpsForward is ∧ ∀ s b,
        Steps (block_code countdown 0x1000#64 0x8000#64 fun _ => 0#8) ⟨0, s⟩ b →
          Controlled is (block_code countdown 0x1000#64 0x8000#64 fun _ => 0#8) s b :=
  block_code_controlled countdown_decoded (by decide) countdown_fits _

end ExecEngine

end Bbarm64
