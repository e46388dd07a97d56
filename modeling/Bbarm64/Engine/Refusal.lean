import Bbarm64.Engine.Fallback
import Bbarm64.Engine.Footprint

/-!
# Engine.Refusal — accesses that the memory manager refuses, in the interpreter

A refused load sets STATE_CRASHED and leaves registers and memory alone.  A store does not look at the
answer: the program goes on, and a store of two registers leaves the half that was granted in memory.
-/

namespace Bbarm64

open X86 ARM64Decoder

theorem MemoryManager.write_u_eq {n : ℕ} (k : ℕ) (m : MemoryManager) (addr : Word) (val : BitVec n) :
    m.write_u k addr val = if m.check_perms addr (BitVec.ofNat 64 k) PROT_WRITE then
      (true, { m with host := writeN k m.host addr val }) else (false, m) := rfl

theorem MemoryManager.write_u_refused {n k : ℕ} {m : MemoryManager} {addr : Word} {val : BitVec n}
    (h : (m.write_u k addr val).1 = false) : (m.write_u k addr val).2 = m := by
  unfold write_u at h ⊢
  split_ifs at h ⊢
  rfl

/-- A store of eight bytes, if it is granted, finds them there already. -/
def MemoryManager.Holds (m : MemoryManager) (addr v : Word) : Prop :=
  m.check_perms addr 8#64 PROT_WRITE = true → read64 m.host addr = v

theorem MemoryManager.write_u64_same_iff (m : MemoryManager) (addr v : Word) :
    (m.write_u64 addr v).2.host = m.host ↔ m.Holds addr v := by
  unfold write_u64 write_u Holds
  by_cases hp : m.check_perms addr 8#64 PROT_WRITE = true
  · rw [if_pos hp]
    constructor
    · intro h _
      rw [← h]
      exact read64_writeN _ _ _
    · intro h
      exact writeN_read64 (h hp)
  · rw [if_neg hp]
    exact iff_of_true rfl fun h => absurd h hp

namespace ExecEngine

def load_opcodes : List Byte := [0x60#8, 0x61#8, 0x62#8, 0x63#8, 0x80#8]

def store_opcodes : List Byte := [0x70#8, 0x71#8, 0x72#8, 0x73#8, 0x81#8]

/-- The address of LDP and STP. -/
def stp_addr (g : Guest) (d : DecodedInstr) : Word := x_or_sp g.1 d.rn + d.imm_s

/-- STP behind its first store. -/
def stp_first (g : Guest) (d : DecodedInstr) : Bool × MemoryManager :=
  g.2.write_u64 (stp_addr g d) (g.1.x d.rt.toNat)

/-- STP behind both. -/
def stp_second (g : Guest) (d : DecodedInstr) : Bool × MemoryManager :=
  (stp_first g d).2.write_u64 (stp_addr g d + 8#64) (g.1.x d.rm.toNat)

/-- An accessor that the load calls refuses. -/
def LoadRefused (g : Guest) (d : DecodedInstr) : Prop :=
  let addr := x_or_sp g.1 d.rn + d.imm
  if d.opcode = 0x60#8 then g.2.read_u8 addr = none
  else if d.opcode = 0x61#8 then g.2.read_u16 addr = none
  else if d.opcode = 0x62#8 then g.2.read_u32 (ldr_addr g.1 d) = none
  else if d.opcode = 0x63#8 then g.2.read_u64 (ldr_addr g.1 d) = none
  else g.2.read_u64 (stp_addr g d) = none ∨ g.2.read_u64 (stp_addr g d + 8#64) = none

/-- An accessor that the store calls refuses. -/
def StoreRefused (g : Guest) (d : DecodedInstr) : Prop :=
  let addr := x_or_sp g.1 d.rn + d.imm
  let val := g.1.x d.rt.toNat
  if d.opcode = 0x70#8 then (g.2.write_u8 addr (val.setWidth 8)).1 = false
  else if d.opcode = 0x71#8 then (g.2.write_u16 addr (val.setWidth 16)).1 = false
  else if d.opcode = 0x72#8 then (g.2.write_u32 (str_addr g.1 d) (val.setWidth 32)).1 = false
  else if d.opcode = 0x73#8 then (g.2.write_u64 (str_addr g.1 d) val).1 = false
  else (stp_first g d).1 = false ∨ (stp_second g d).1 = false

/-- A load or a store of which the memory manager refuses a part. -/
def Refused (g : Guest) (d : DecodedInstr) : Prop :=
  d.opcode ∈ load_opcodes ∧ LoadRefused g d ∨ d.opcode ∈ store_opcodes ∧ StoreRefused g d

/-- The interpreter marks the state as crashed and changes no byte of memory and none of `x0` to
`x30`. -/
structure ReportsRefusal (g : Guest) (d : DecodedInstr) : Prop where
  crashed : (execute_decoded g d).1.crashed = true
  memory : (execute_decoded g d).2.host = g.2.host
  regs : ∀ i ≤ 30, (execute_decoded g d).1.x i = g.1.x i

section Refusal

variable {g : Guest} {d : DecodedInstr}

/-! ## Loads -/

theorem execute_ldp_refused (h : d.opcode = 0x80#8) (hr : g.2.read_u64 (stp_addr g d) = none ∨
      g.2.read_u64 (stp_addr g d + 8#64) = none) :
    execute_decoded g d = next (crash g.1, g.2) := by
  unfold stp_addr at hr
  simp +decide only [execute_decoded, h, if_true, if_false]
  split
  · rename_i h₁ h₂
    rw [h₁, h₂] at hr
    rcases hr with hr | hr <;> cases hr
  · rfl

/-- Every load reports a refusal in the same way. -/
theorem execute_load_refused (hop : d.opcode ∈ load_opcodes) (hr : LoadRefused g d) :
    execute_decoded g d = next (crash g.1, g.2) := by
  simp only [load_opcodes, List.mem_cons, List.not_mem_nil, or_false] at hop
  unfold LoadRefused at hr
  rcases hop with h | h | h | h | h <;> simp +decide only [h, if_true, if_false] at hr
  · rw [execute_ldrb h, hr, ExecEngine.load]
  · rw [execute_ldrh h, hr, ExecEngine.load]
  · rw [execute_ldr32 h, hr, ExecEngine.load]
  · rw [execute_ldr64 h, hr, ExecEngine.load]
  · exact execute_ldp_refused h hr

theorem reports_crash (h : execute_decoded g d = next (crash g.1, g.2)) : ReportsRefusal g d := by
  have hflags : (execute_decoded g d).1.state_flags =
      g.1.state_flags ||| CPUContext.STATE_CRASHED := by
    rw [h]
    exact CPUContext.set_state_flags_state_flags _ _
  refine ⟨?_, by rw [h]; rfl, fun i hi => ?_⟩
  · have hbit : ∀ x : BitVec 32, (x ||| CPUContext.STATE_CRASHED) &&& CPUContext.STATE_CRASHED ≠ 0#32 := by
      intro x h0
      have h2 := congrArg (BitVec.getLsbD · 2) h0
      simp [CPUContext.STATE_CRASHED] at h2
    rw [CPUContext.crashed, hflags, bne_iff_ne]
    exact hbit _
  · have h32 : i ≠ 32 := by omega
    have h103 : i ≠ 103 := by omega
    rw [h]
    simp [next, crash, CPUContext.x, CPUContext.set_pc, CPUContext.set_state_flags, h32, h103]

/-! ## Stores -/

/-- A store crashes nothing and writes no register. -/
theorem reports_store_iff {r : Bool × MemoryManager} (h : execute_decoded g d = store g r) :
    ReportsRefusal g d ↔ g.1.crashed = true ∧ r.2.host = g.2.host := by
  have hcrashed : (execute_decoded g d).1.crashed = g.1.crashed := by
    rw [h]
    rfl
  have hmem : (execute_decoded g d).2 = r.2 := by
    rw [h]
    rfl
  constructor
  · intro hd
    exact ⟨hcrashed ▸ hd.crashed, hmem ▸ hd.memory⟩
  · rintro ⟨hc, hm⟩
    refine ⟨hcrashed.trans hc, by rw [hmem, hm], fun i hi => ?_⟩
    have h32 : i ≠ 32 := by omega
    rw [h]
    simp [store, next, CPUContext.x, CPUContext.set_pc, h32]

/-- Each half of the STP that is granted finds its bytes in memory. -/
def HalvesHold (g : Guest) (d : DecodedInstr) : Prop :=
  g.2.Holds (stp_addr g d) (g.1.x d.rt.toNat) ∧ g.2.Holds (stp_addr g d + 8#64) (g.1.x d.rm.toNat)

theorem stp_second_same_iff (hr : (stp_first g d).1 = false ∨ (stp_second g d).1 = false) :
    (stp_second g d).2.host = g.2.host ↔ HalvesHold g d := by
  have hfirst := g.2.write_u64_same_iff (stp_addr g d) (g.1.x d.rt.toNat)
  rcases hr with hr | hr
  · -- only the second store can have been granted
    have hsame : (stp_first g d).2 = g.2 := MemoryManager.write_u_refused hr
    have hholds := hfirst.mp (congrArg _ hsame)
    rw [stp_second, hsame, MemoryManager.write_u64_same_iff]
    exact (and_iff_right hholds).symm
  · have hsame : (stp_second g d).2 = (stp_first g d).2 := MemoryManager.write_u_refused hr
    have hperm : g.2.check_perms (stp_addr g d + 8#64) 8#64 PROT_WRITE = false := by
      have hp := MemoryManager.write_u_check_perms 8 g.2 (stp_addr g d) (g.1.x d.rt.toNat)
      have hr' : ((stp_first g d).2.write_u 8 (stp_addr g d + 8#64) (g.1.x d.rm.toNat)).1 = false := hr
      rw [MemoryManager.write_u_eq] at hr'
      split_ifs at hr' with hc
      rw [Bool.not_eq_true] at hc
      rw [← hc]
      exact (congrFun (congrFun (congrFun hp _) _) _).symm
    have hholds : g.2.Holds (stp_addr g d + 8#64) (g.1.x d.rm.toNat) := by
      intro h
      rw [hperm] at h
      cases h
    rw [hsame]
    exact hfirst.trans (and_iff_left hholds).symm

theorem reports_store_refused_iff (hop : d.opcode ∈ store_opcodes) (hr : StoreRefused g d) :
    ReportsRefusal g d ↔ g.1.crashed = true ∧ (d.opcode = 0x81#8 → HalvesHold g d) := by
  have hone : ∀ {r : Bool × MemoryManager}, execute_decoded g d = store g r → r.2 = g.2 →
      d.opcode ≠ 0x81#8 →
      (ReportsRefusal g d ↔ g.1.crashed = true ∧ (d.opcode = 0x81#8 → HalvesHold g d)) := by
    intro r hs hm hne
    rw [reports_store_iff hs, hm]
    exact and_congr_right fun _ => iff_of_true rfl fun h => absurd h hne
  simp only [store_opcodes, List.mem_cons, List.not_mem_nil, or_false] at hop
  unfold StoreRefused at hr
  rcases hop with h | h | h | h | h <;> simp +decide only [h, if_true, if_false] at hr
  · exact hone (execute_strb h) (MemoryManager.write_u_refused hr) (by rw [h]; decide)
  · exact hone (execute_strh h) (MemoryManager.write_u_refused hr) (by rw [h]; decide)
  · exact hone (execute_str32 h) (MemoryManager.write_u_refused hr) (by rw [h]; decide)
  · exact hone (execute_str64 h) (MemoryManager.write_u_refused hr) (by rw [h]; decide)
  · have hs : execute_decoded g d = store g (stp_second g d) := execute_stp h
    rw [reports_store_iff hs, stp_second_same_iff hr]
    exact and_congr_right fun _ => (forall_prop_of_true (q := fun _ => HalvesHold g d) h).symm

/-- **Refused accesses**: every load reports one; a store only seems to, in a state that is marked as
crashed already, if the half of an STP that was granted changes nothing. -/
theorem reportsRefusal_iff (h : Refused g d) : ReportsRefusal g d ↔
    d.opcode ∈ load_opcodes ∨ g.1.crashed = true ∧ (d.opcode = 0x81#8 → HalvesHold g d) := by
  rcases h with ⟨hop, hr⟩ | ⟨hop, hr⟩
  · exact iff_of_true (reports_crash (execute_load_refused hop hr)) (.inl hop)
  · have hnot : d.opcode ∉ load_opcodes := by
      exact of_all (P := (· ∉ load_opcodes)) hop (by decide)
    rw [reports_store_refused_iff hop hr]
    exact (or_iff_right hnot).symm

end Refusal

/-- `ldr x1, [x2]` -/
theorem reportsRefusal_iff_ldr : ReportsRefusal cleared_guest (decode 0xF9400041#32).2 ↔
    (decode 0xF9400041#32).2.opcode ∈ load_opcodes ∨ cleared_guest.1.crashed = true ∧
      ((decode 0xF9400041#32).2.opcode = 0x81#8 →
        HalvesHold cleared_guest (decode 0xF9400041#32).2) :=
  reportsRefusal_iff (.inl ⟨by decide, by rfl⟩)

/-- `str x1, [x2]` is refused, and the guest goes on. -/
theorem not_reportsRefusal_str : Refused cleared_guest (decode 0xF9000041#32).2 ∧
    ¬ ReportsRefusal cleared_guest (decode 0xF9000041#32).2 := by
  refine ⟨.inr ⟨by decide, by rfl⟩, ?_⟩
  intro h
  exact absurd h.crashed (by decide)

end ExecEngine

end Bbarm64
