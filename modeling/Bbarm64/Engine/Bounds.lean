import Bbarm64.Engine.Refusal

/-!
# Engine.Bounds — the indices into `x` of `execute_decoded`

`execute_checked` is the interpreter with `x.at(i)` in the place of every `x[i]`: it stops at an index
above 30.  Of an accepted word it goes through, as `execute_decoded`, exactly when no field that is used
without a test for 31 is 31 (`Bare31Free`).
-/

namespace Bbarm64

open X86 ARM64Decoder

namespace ExecEngine

/-! ## The interpreter with checked indices -/

/-- `ctx_.x.at(reg)` -/
def x_at (ctx : CPUContext) (reg : Byte) : Option Word :=
  if reg < 31#8 then some (ctx.x reg.toNat) else none

/-- `(reg == 31) ? ctx_.sp : ctx_.x.at(reg)` -/
def x_or_sp_at (ctx : CPUContext) (reg : Byte) : Option Word :=
  if reg = 31#8 then some ctx.sp else x_at ctx reg

/-- `ctx_.x.at(rd) = v; break;` -/
def set_reg_at (g : Guest) (rd : Byte) (v : Word) : Option Guest :=
  if rd < 31#8 then some (set_reg g rd v) else none

def load_at {n : ℕ} (g : Guest) (rt : Byte) (val : Option (BitVec n)) : Option Guest :=
  match val with
  | some v => set_reg_at g rt (v.setWidth 64)
  | none => some (next (crash g.1, g.2))

def ldr_addr_at (ctx : CPUContext) (decoded : DecodedInstr) : Option Word :=
  if decoded.is_pc_relative then some (ctx.pc + (decoded.imm_s <<< 2))
  else do
    let base ← x_or_sp_at ctx decoded.rn
    let offset ←
      if decoded.imm_s ≠ 0#64 ∧ decoded.imm = 0#64 then some decoded.imm_s
      else if decoded.rm < 31#8 ∧ decoded.imm = 0#64 ∧ decoded.imm_s = 0#64 ∧ decoded.shift_type < 4#8
      then (x_at ctx decoded.rm).map fun m : Word => m <<< decoded.shift_type.toNat
      else some decoded.imm
    return base + offset

def str_addr_at (ctx : CPUContext) (decoded : DecodedInstr) : Option Word := do
  let base ← x_or_sp_at ctx decoded.rn
  let offset ←
    if decoded.imm_s ≠ 0#64 ∧ decoded.imm = 0#64 then some decoded.imm_s
    else if decoded.rm < 31#8 ∧ decoded.imm = 0#64 ∧ decoded.imm_s = 0#64 then
      (x_at ctx decoded.rm).map fun m : Word => m <<< decoded.shift_type.toNat
    else some decoded.imm
  return base + offset

def logical_at (g : Guest) (decoded : DecodedInstr) (f : Word → Word → Word) : Option Guest := do
  let a ← x_at g.1 decoded.rn
  let b ← x_at g.1 decoded.rm
  set_reg_at g decoded.rd (f a b)

def cb_zero_at (ctx : CPUContext) (decoded : DecodedInstr) : Option Bool := do
  let val ← x_or_sp_at ctx decoded.rn
  return if decoded.size ≠ 0#8 then val == 0#64 else val.setWidth 32 == 0#32

def execute_checked (g : Guest) (decoded : DecodedInstr) : Option Guest :=
  let ctx := g.1
  let mem := g.2
  let op := decoded.opcode
  let x (r : Byte) : Option Word := x_at ctx r
  let hw := ((decoded.raw >>> 21) &&& 3#32).toNat * 16
  if op = 0x22#8 then set_reg_at g decoded.rd decoded.imm
  else if op = 0x23#8 then do
    let old ← x decoded.rd
    set_reg_at g decoded.rd ((old &&& ~~~(0xFFFF#64 <<< hw)) ||| (decoded.imm <<< hw))
  else if op = 0x21#8 then set_reg_at g decoded.rd (~~~(decoded.imm <<< hw))
  else if op = 0x24#8 then set_reg_at g decoded.rd (ctx.pc + decoded.imm_s)
  else if op = 0x25#8 then
    set_reg_at g decoded.rd ((ctx.pc &&& ~~~0xFFF#64) + (decoded.imm_s <<< 12))
  else if op = 0x00#8 then do set_reg_at g decoded.rd ((← x decoded.rn) + decoded.imm)
  else if op = 0x01#8 then do set_reg_at g decoded.rd ((← x decoded.rn) - decoded.imm)
  else if op = 0x12#8 then logical_at g decoded (· ||| ·)
  else if op = 0x10#8 then logical_at g decoded (· &&& ·)
  else if op = 0x14#8 then logical_at g decoded (· ^^^ ·)
  else if op = 0x20#8 then do set_reg_at g decoded.rd (← x_or_sp_at ctx decoded.rm)
  else if op = 0x63#8 then do load_at g decoded.rt (mem.read_u64 (← ldr_addr_at ctx decoded))
  else if op = 0x62#8 then do load_at g decoded.rt (mem.read_u32 (← ldr_addr_at ctx decoded))
  else if op = 0x73#8 then do
    let addr ← str_addr_at ctx decoded
    return store g (mem.write_u64 addr (← x decoded.rt))
  else if op = 0x72#8 then do
    let addr ← str_addr_at ctx decoded
    return store g (mem.write_u32 addr ((← x decoded.rt).setWidth 32))
  else if op = 0x60#8 then do
    load_at g decoded.rt (mem.read_u8 ((← x_or_sp_at ctx decoded.rn) + decoded.imm))
  else if op = 0x61#8 then do
    load_at g decoded.rt (mem.read_u16 ((← x_or_sp_at ctx decoded.rn) + decoded.imm))
  else if op = 0x70#8 then do
    let addr := (← x_or_sp_at ctx decoded.rn) + decoded.imm
    return store g (mem.write_u8 addr ((← x decoded.rt).setWidth 8))
  else if op = 0x71#8 then do
    let addr := (← x_or_sp_at ctx decoded.rn) + decoded.imm
    return store g (mem.write_u16 addr ((← x decoded.rt).setWidth 16))
  else if op = 0x80#8 then do
    let addr := (← x_or_sp_at ctx decoded.rn) + decoded.imm_s
    match mem.read_u64 addr, mem.read_u64 (addr + 8#64) with
    | some val1, some val2 =>
      if decoded.rt < 31#8 ∧ decoded.rm < 31#8 then
        some (next ((ctx.set_x decoded.rt.toNat val1).set_x decoded.rm.toNat val2, mem))
      else none
    | _, _ => some (next (crash ctx, mem))
  else if op = 0x81#8 then do
    let addr := (← x_or_sp_at ctx decoded.rn) + decoded.imm_s
    let first := (mem.write_u64 addr (← x decoded.rt)).2
    return store g (first.write_u64 (addr + 8#64) (← x decoded.rm))
  else if op = 0x50#8 then some (branch_if g true decoded.branch_offset)
  else if op = 0x51#8 then
    some (branch_if (ctx.set_x 30 (ctx.pc + 4#64), mem) true decoded.branch_offset)
  else if op = 0x52#8 then do return (ctx.set_pc (← x_or_sp_at ctx decoded.rn), mem)
  else if op = 0x53#8 then do
    return (ctx.set_pc (← if decoded.rn = 31#8 then x 30#8 else x decoded.rn), mem)
  else if op = 0x54#8 then some (branch_if g (check_condition ctx.nzcv decoded.cond) decoded.branch_offset)
  else if op = 0x55#8 then do return branch_if g (← cb_zero_at ctx decoded) decoded.branch_offset
  else if op = 0x56#8 then do return branch_if g (!(← cb_zero_at ctx decoded)) decoded.branch_offset
  else if op = 0x57#8 ∨ op = 0x58#8 then do
    let bit_set := (← x decoded.rn).getLsbD (decoded.imm.setWidth 32).toNat
    return branch_if g (bit_set == decide (op = 0x58#8)) decoded.branch_offset
  else if op = 0x30#8 then do
    let a ← x decoded.rn
    let b ← x decoded.rm
    let result := a - b
    let v := result.msb != a.slt b
    return next (ctx.set_nzcv result.msb (result == 0#64) (b ≤ a) v, mem)
  else if op = 0x31#8 then do
    let result := (← x decoded.rn) &&& (← x decoded.rm)
    return next (ctx.set_nzcv result.msb (result == 0#64) false false, mem)
  else if op = 0x40#8 then
    if check_condition ctx.nzcv decoded.cond then do set_reg_at g decoded.rd (← x decoded.rn)
    else do set_reg_at g decoded.rd (← x decoded.rm)
  else if op = 0x90#8 then some (next g)
  else some (next (crash ctx, mem))

/-- The checked run is the run. -/
def InBounds (g : Guest) (d : DecodedInstr) : Prop :=
  execute_checked g d = some (execute_decoded g d)

/-! ## The fields that are used as they are -/

/-- ADD and SUB. -/
def arith_opcodes : List Byte := [0x00#8, 0x01#8]

/-- AND, ORR and EOR. -/
def logical_opcodes : List Byte := [0x10#8, 0x12#8, 0x14#8]

/-- The moves of a constant and of an address. -/
def const_opcodes : List Byte := [0x21#8, 0x22#8, 0x23#8, 0x24#8, 0x25#8]

/-- TBZ and TBNZ. -/
def tb_opcodes : List Byte := [0x57#8, 0x58#8]

/-- The loads and the stores of one register. -/
def ldr_opcodes : List Byte := [0x60#8, 0x61#8, 0x62#8, 0x63#8]

def str_opcodes : List Byte := [0x70#8, 0x71#8, 0x72#8, 0x73#8]

/-- The opcodes that write `x[rd]`. -/
def bare_rd : List Byte := arith_opcodes ++ logical_opcodes ++ const_opcodes

/-- The opcodes that read `x[rn]`. -/
def bare_rn : List Byte := arith_opcodes ++ logical_opcodes ++ tb_opcodes

/-- No field is 31 that the opcode uses without a test; a load writes `x[rt]` when it is granted. -/
structure Bare31Free (g : Guest) (d : DecodedInstr) : Prop where
  rd : d.opcode ∈ bare_rd → d.rd ≠ 31#8
  rn : d.opcode ∈ bare_rn → d.rn ≠ 31#8
  rm : d.opcode ∈ logical_opcodes → d.rm ≠ 31#8
  load : d.opcode ∈ ldr_opcodes → ¬ LoadRefused g d → d.rt ≠ 31#8
  store : d.opcode ∈ str_opcodes → d.rt ≠ 31#8

section Bounds

variable {g g' : Guest} {d : DecodedInstr}

/-! ### One access -/

theorem lt_31_iff {r : Byte} (hr : IsArm r) : r < 31#8 ↔ r ≠ 31#8 := by
  have hlt : r.toNat < 32 := hr
  rw [BitVec.lt_def, ne_eq, ← BitVec.toNat_inj, BitVec.toNat_ofNat]
  omega

theorem x_at_of_lt {ctx : CPUContext} {r : Byte} (h : r < 31#8) : x_at ctx r = some (ctx.x r.toNat) :=
  if_pos h

theorem x_at_bind_iff {r : Byte} (hr : IsArm r) {f : Word → Option Guest} :
    (x_at g.1 r >>= f) = some g' ↔ r ≠ 31#8 ∧ f (g.1.x r.toNat) = some g' := by
  rw [← lt_31_iff hr, x_at]
  split_ifs with h
  · exact (and_iff_right h).symm
  · exact iff_of_false nofun fun hf => h hf.1

theorem set_reg_at_iff {r : Byte} (hr : IsArm r) {v : Word} :
    set_reg_at g r v = some g' ↔ r ≠ 31#8 ∧ set_reg g r v = g' := by
  rw [← lt_31_iff hr, set_reg_at]
  split_ifs with h
  · rw [Option.some.injEq, and_iff_right h]
  · exact iff_of_false nofun fun hf => h hf.1

theorem x_or_sp_at_eq {r : Byte} (hr : IsArm r) : x_or_sp_at g.1 r = some (x_or_sp g.1 r) := by
  rw [x_or_sp_at, x_or_sp]
  split_ifs with h
  · rfl
  · exact x_at_of_lt ((lt_31_iff hr).mpr h)

theorem load_at_iff {n : ℕ} {r : Byte} (hr : IsArm r) {val : Option (BitVec n)} :
    load_at g r val = some (load g r val) ↔ (val ≠ none → r ≠ 31#8) := by
  cases val with
  | none => exact iff_of_true rfl fun h => absurd rfl h
  | some v =>
    rw [load_at, load, set_reg_at_iff hr, and_iff_left rfl]
    exact ⟨fun h _ => h, fun h => h (Option.some_ne_none v)⟩

theorem ldr_addr_at_eq (hr : IsArm d.rn) : ldr_addr_at g.1 d = some (ldr_addr g.1 d) := by
  unfold ldr_addr_at ldr_addr
  rw [x_or_sp_at_eq hr]
  split_ifs with hpc hi hm
  · rfl
  · rfl
  · rw [x_at_of_lt hm.1]
    rfl
  · rfl

theorem str_addr_at_eq (hr : IsArm d.rn) : str_addr_at g.1 d = some (str_addr g.1 d) := by
  unfold str_addr_at str_addr
  rw [x_or_sp_at_eq hr]
  split_ifs with hi hm
  · rfl
  · rw [x_at_of_lt hm.1]
    rfl
  · rfl

theorem logical_at_iff (hw : WellDecoded d) (hrm : IsArm d.rm) {f : Word → Word → Word} :
    logical_at g d f = some (logical g d f) ↔ d.rn ≠ 31#8 ∧ d.rm ≠ 31#8 ∧ d.rd ≠ 31#8 := by
  rw [logical_at, x_at_bind_iff hw.rn, x_at_bind_iff hrm, set_reg_at_iff hw.rd, logical,
    and_iff_left rfl]

theorem cb_zero_at_eq (hr : IsArm d.rn) : cb_zero_at g.1 d = some (cb_zero g.1 d) := by
  rw [cb_zero_at, x_or_sp_at_eq hr]
  rfl

/-! ### The opcodes -/

theorem inBounds_const (hw : WellDecoded d)
    (hop : d.opcode ∈ const_opcodes) : InBounds g d ↔ d.rd ≠ 31#8 := by
  simp only [const_opcodes, List.mem_cons, List.not_mem_nil, or_false] at hop
  unfold InBounds
  rcases hop with h | h | h | h | h <;> simp +decide only [execute_checked, h, if_true, if_false]
  · rw [execute_movn h, set_reg_at_iff hw.rd, and_iff_left rfl]
  · rw [execute_movz h, set_reg_at_iff hw.rd, and_iff_left rfl]
  · rw [execute_movk h, x_at_bind_iff hw.rd, set_reg_at_iff hw.rd, and_iff_left rfl, and_self]
  · rw [execute_adr h, set_reg_at_iff hw.rd, and_iff_left rfl]
  · rw [execute_adrp h, set_reg_at_iff hw.rd, and_iff_left rfl]

theorem inBounds_arith (hw : WellDecoded d) (hop : d.opcode ∈ arith_opcodes) :
    InBounds g d ↔ d.rn ≠ 31#8 ∧ d.rd ≠ 31#8 := by
  simp only [arith_opcodes, List.mem_cons, List.not_mem_nil, or_false] at hop
  unfold InBounds
  rcases hop with h | h <;> simp +decide only [execute_checked, h, if_true, if_false]
  · rw [execute_add h, x_at_bind_iff hw.rn, set_reg_at_iff hw.rd, and_iff_left rfl]
  · rw [execute_sub h, x_at_bind_iff hw.rn, set_reg_at_iff hw.rd, and_iff_left rfl]

theorem inBounds_logical (hw : WellDecoded d) (hrm : IsArm d.rm)
    (hop : d.opcode ∈ logical_opcodes) :
    InBounds g d ↔ d.rn ≠ 31#8 ∧ d.rm ≠ 31#8 ∧ d.rd ≠ 31#8 := by
  simp only [logical_opcodes, List.mem_cons, List.not_mem_nil, or_false] at hop
  unfold InBounds
  rcases hop with h | h | h <;> simp +decide only [execute_checked, h, if_true, if_false]
  · rw [execute_and h, logical_at_iff hw hrm]
  · rw [execute_orr h, logical_at_iff hw hrm]
  · rw [execute_eor h, logical_at_iff hw hrm]

theorem inBounds_load (hw : WellDecoded d) (hop : d.opcode ∈ ldr_opcodes) :
    InBounds g d ↔ (¬ LoadRefused g d → d.rt ≠ 31#8) := by
  simp only [ldr_opcodes, List.mem_cons, List.not_mem_nil, or_false] at hop
  unfold InBounds LoadRefused
  rcases hop with h | h | h | h <;> simp +decide only [execute_checked, h, if_true, if_false]
  · rw [execute_ldrb h, x_or_sp_at_eq hw.rn, Option.bind_eq_bind, Option.bind_some, load_at_iff hw.rt]
  · rw [execute_ldrh h, x_or_sp_at_eq hw.rn, Option.bind_eq_bind, Option.bind_some, load_at_iff hw.rt]
  · rw [execute_ldr32 h, ldr_addr_at_eq hw.rn, Option.bind_eq_bind, Option.bind_some, load_at_iff hw.rt]
  · rw [execute_ldr64 h, ldr_addr_at_eq hw.rn, Option.bind_eq_bind, Option.bind_some, load_at_iff hw.rt]

theorem inBounds_store (hw : WellDecoded d) (hop : d.opcode ∈ str_opcodes) :
    InBounds g d ↔ d.rt ≠ 31#8 := by
  simp only [str_opcodes, List.mem_cons, List.not_mem_nil, or_false] at hop
  unfold InBounds
  rcases hop with h | h | h | h <;> simp +decide only [execute_checked, h, if_true, if_false]
  · rw [execute_strb h, x_or_sp_at_eq hw.rn]
    exact (x_at_bind_iff hw.rt).trans (and_iff_left rfl)
  · rw [execute_strh h, x_or_sp_at_eq hw.rn]
    exact (x_at_bind_iff hw.rt).trans (and_iff_left rfl)
  · rw [execute_str32 h, str_addr_at_eq hw.rn]
    exact (x_at_bind_iff hw.rt).trans (and_iff_left rfl)
  · rw [execute_str64 h, str_addr_at_eq hw.rn]
    exact (x_at_bind_iff hw.rt).trans (and_iff_left rfl)

theorem inBounds_tb (hw : WellDecoded d) (hop : d.opcode ∈ tb_opcodes) :
    InBounds g d ↔ d.rn ≠ 31#8 := by
  simp only [tb_opcodes, List.mem_cons, List.not_mem_nil, or_false] at hop
  unfold InBounds
  rw [execute_tb hop]
  rcases hop with h | h <;> simp +decide only [execute_checked, h, if_true, if_false]
  · exact (x_at_bind_iff hw.rn).trans (and_iff_left rfl)
  · exact (x_at_bind_iff hw.rn).trans (and_iff_left rfl)

/-- The opcodes whose accesses are all tested. -/
def tested_opcodes : List Byte := [0x50#8, 0x51#8, 0x52#8, 0x53#8, 0x54#8, 0x55#8, 0x56#8, 0x90#8]

theorem inBounds_tested (hw : WellDecoded d) (hop : d.opcode ∈ tested_opcodes) : InBounds g d := by
  simp only [tested_opcodes, List.mem_cons, List.not_mem_nil, or_false] at hop
  unfold InBounds
  rcases hop with h | h | h | h | h | h | h | h <;>
    simp +decide only [execute_checked, execute_decoded, h, if_true, if_false]
  · rw [x_or_sp_at_eq hw.rn]
    rfl
  · split_ifs with h31
    · rfl
    · rw [x_at_of_lt ((lt_31_iff hw.rn).mpr h31)]
      rfl
  · rw [cb_zero_at_eq hw.rn]
    rfl
  · rw [cb_zero_at_eq hw.rn]
    rfl

/-- The opcodes that the interpreter has no case for. -/
def unknown_opcodes : List Byte :=
  [0x04#8, 0x05#8, 0x06#8, 0x07#8, 0x08#8, 0x11#8, 0x13#8, 0x15#8, 0x16#8, 0x17#8, 0x91#8, 0x92#8, 0x93#8,
    0x94#8, 0x95#8]

theorem inBounds_unknown (hop : d.opcode ∈ unknown_opcodes) : InBounds g d := by
  simp only [unknown_opcodes, List.mem_cons, List.not_mem_nil, or_false] at hop
  unfold InBounds
  rcases hop with h | h | h | h | h | h | h | h | h | h | h | h | h | h | h <;>
    simp +decide only [execute_checked, execute_decoded, h, if_false, or_false]

/-- The opcodes of the decoder by the fields they use as they are. -/
theorem opcode_cases {w : BitVec 32} (h : decode? w = some d) :
    (d.opcode ∈ arith_opcodes ∨ d.opcode ∈ logical_opcodes ∨ d.opcode ∈ const_opcodes ∨
      d.opcode ∈ tb_opcodes) ∨
      d.opcode ∈ ldr_opcodes ∨ d.opcode ∈ str_opcodes ∨ d.opcode ∈ tested_opcodes ++ unknown_opcodes := by
  obtain ⟨out, hout, hf⟩ := decode?_found h
  refine of_all (P := fun o => (o ∈ arith_opcodes ∨ o ∈ logical_opcodes ∨ o ∈ const_opcodes ∨
    o ∈ tb_opcodes) ∨ o ∈ ldr_opcodes ∨ o ∈ str_opcodes ∨ o ∈ tested_opcodes ++ unknown_opcodes)
    (l := form_opcodes ++ [0x52#8, 0x53#8]) ?_ (by decide)
  rcases hf.opcode_mem hout.blank with ho | ⟨-, ho⟩
  · exact List.mem_append_left _ ho
  · exact List.mem_append_right _ ho

/-- **The indices into `x`** of an accepted word are all below 31 exactly when no field that is used
without a test is 31. -/
theorem inBounds_iff {w : BitVec 32} (h : decode? w = some d) (g : Guest) :
    InBounds g d ↔ Bare31Free g d := by
  have hw := decode?_wellDecoded h
  rcases opcode_cases h with (ho | ho | ho | ho) | ho | ho | ho
  · obtain ⟨hrd, hrn, hm, hl, hs⟩ := of_all (P := fun o => o ∈ bare_rd ∧ o ∈ bare_rn ∧
      o ∉ logical_opcodes ∧ o ∉ ldr_opcodes ∧ o ∉ str_opcodes) ho (by decide)
    rw [inBounds_arith hw ho]
    exact ⟨fun hi => ⟨fun _ => hi.2, fun _ => hi.1, (absurd · hm), (absurd · hl), (absurd · hs)⟩,
      fun hb => ⟨hb.rn hrn, hb.rd hrd⟩⟩
  · obtain ⟨hrd, hrn, hl, hs⟩ := of_all (P := fun o => o ∈ bare_rd ∧ o ∈ bare_rn ∧
      o ∉ ldr_opcodes ∧ o ∉ str_opcodes) ho (by decide)
    obtain ⟨out, hout, hf⟩ := decode?_found h
    rw [inBounds_logical hw (hf.isArm_rm_of_logical hout.blank ho) ho]
    exact ⟨fun hi => ⟨fun _ => hi.2.2, fun _ => hi.1, fun _ => hi.2.1, (absurd · hl), (absurd · hs)⟩,
      fun hb => ⟨hb.rn hrn, hb.rm ho, hb.rd hrd⟩⟩
  · obtain ⟨hrd, hn, hm, hl, hs⟩ := of_all (P := fun o => o ∈ bare_rd ∧ o ∉ bare_rn ∧
      o ∉ logical_opcodes ∧ o ∉ ldr_opcodes ∧ o ∉ str_opcodes) ho (by decide)
    rw [inBounds_const hw ho]
    exact ⟨fun hi => ⟨fun _ => hi, (absurd · hn), (absurd · hm), (absurd · hl), (absurd · hs)⟩,
      fun hb => hb.rd hrd⟩
  · obtain ⟨hd, hrn, hm, hl, hs⟩ := of_all (P := fun o => o ∉ bare_rd ∧ o ∈ bare_rn ∧
      o ∉ logical_opcodes ∧ o ∉ ldr_opcodes ∧ o ∉ str_opcodes) ho (by decide)
    rw [inBounds_tb hw ho]
    exact ⟨fun hi => ⟨(absurd · hd), fun _ => hi, (absurd · hm), (absurd · hl), (absurd · hs)⟩,
      fun hb => hb.rn hrn⟩
  · obtain ⟨hd, hn, hm, hs⟩ := of_all (P := fun o => o ∉ bare_rd ∧ o ∉ bare_rn ∧
      o ∉ logical_opcodes ∧ o ∉ str_opcodes) ho (by decide)
    rw [inBounds_load hw ho]
    exact ⟨fun hi => ⟨(absurd · hd), (absurd · hn), (absurd · hm), fun _ => hi, (absurd · hs)⟩,
      fun hb => hb.load ho⟩
  · obtain ⟨hd, hn, hm, hl⟩ := of_all (P := fun o => o ∉ bare_rd ∧ o ∉ bare_rn ∧
      o ∉ logical_opcodes ∧ o ∉ ldr_opcodes) ho (by decide)
    rw [inBounds_store hw ho]
    exact ⟨fun hi => ⟨(absurd · hd), (absurd · hn), (absurd · hm), (absurd · hl), fun _ => hi⟩,
      fun hb => hb.store ho⟩
  · obtain ⟨hd, hn, hm, hl, hs⟩ := of_all (P := fun o => o ∉ bare_rd ∧ o ∉ bare_rn ∧
      o ∉ logical_opcodes ∧ o ∉ ldr_opcodes ∧ o ∉ str_opcodes) ho (by decide)
    refine iff_of_true ?_ ⟨(absurd · hd), (absurd · hn), (absurd · hm), (absurd · hl), (absurd · hs)⟩
    rcases List.mem_append.mp ho with ht | hu
    · exact inBounds_tested hw ht
    · exact inBounds_unknown hu

end Bounds

/-- `add x0, x1, #1` -/
theorem inBounds_iff_add : InBounds cleared_guest (decode 0x91000420#32).2 ↔
    Bare31Free cleared_guest (decode 0x91000420#32).2 :=
  inBounds_iff (w := 0x91000420#32) (by decide) cleared_guest

/-- `cmp x1, #1` is accepted, and `x[31]` written. -/
theorem not_inBounds_cmp : decode? 0xF100043F#32 = some (decode 0xF100043F#32).2 ∧
    ¬ InBounds cleared_guest (decode 0xF100043F#32).2 := by
  refine ⟨by decide, ?_⟩
  intro h
  have hnone : execute_checked cleared_guest (decode 0xF100043F#32).2 = none := by rfl
  rw [InBounds, hnone] at h
  cases h

end ExecEngine

end Bbarm64
