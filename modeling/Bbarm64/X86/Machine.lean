import Bbarm64.X86.Codec
import Bbarm64.Lib.Halting
import Mathlib.Data.Int.Notation

/-!
# X86.Machine — execution of the instruction subset

`exec` is the effect of one instruction on registers, status flags and memory; `step` fetches,
decodes and executes the instruction at a byte offset of a fixed code list, and stops at `ret`,
`int3` and undecodable bytes.  Flags the architecture leaves undefined are drawn from the stream
`State.undef`, so that a result for every state holds for every choice of them.  `Steps` is the
reflexive transitive closure of `step`, and `Returns` says that the code, entered at offset `0`,
reaches a `ret`.  `steps_list` runs straight-line code, `performs_iff` says what it executes on the
way, and `run_invariant` is the invariant rule.
-/

namespace X86

/-! ## State -/

/-- The six status flags. -/
structure Flags where
  cf : Bool
  pf : Bool
  af : Bool
  zf : Bool
  sf : Bool
  of : Bool
  deriving DecidableEq, Repr

structure State where
  reg : Reg → Word
  flags : Flags
  /-- The system and control bits of RFLAGS. -/
  sys : Word
  /-- The values the next undefined flags take. -/
  undef : ℕ → Flags
  mem : Mem

/-- The state with every bit zero. -/
def State.cleared : State where
  reg _ := 0#64
  flags := ⟨false, false, false, false, false, false⟩
  sys := 0#64
  undef _ := ⟨false, false, false, false, false, false⟩
  mem _ := 0#8

def State.setReg (s : State) (r : Reg) (v : Word) : State :=
  { s with reg := fun q => if q = r then v else s.reg q }

def State.setMem (s : State) (m : Mem) : State := { s with mem := m }

def State.setFlags (s : State) (f : Flags) : State := { s with flags := f }

/-- Consume one element of the stream of undefined flags. -/
def State.draw (s : State) : State := { s with undef := fun n => s.undef (n + 1) }

/-- The address `[base + disp]`. -/
def State.ea (s : State) (base : Reg) (disp : BitVec 32) : Word := s.reg base + disp.signExtend 64

@[simp] theorem setReg_reg (s : State) (r q : Reg) (v : Word) :
    (s.setReg r v).reg q = if q = r then v else s.reg q := rfl
theorem setReg_setReg (s : State) (r : Reg) (v w : Word) :
    (s.setReg r v).setReg r w = s.setReg r w := by
  have hreg : (fun q => if q = r then w else (s.setReg r v).reg q) =
      fun q => if q = r then w else s.reg q := by
    funext q
    by_cases hq : q = r
    · rw [if_pos hq, if_pos hq]
    · rw [if_neg hq, if_neg hq]
      exact if_neg hq
  unfold State.setReg at hreg ⊢
  dsimp only
  rw [hreg]
@[simp] theorem setReg_mem (s : State) (r : Reg) (v : Word) : (s.setReg r v).mem = s.mem := rfl
@[simp] theorem setReg_flags (s : State) (r : Reg) (v : Word) : (s.setReg r v).flags = s.flags := rfl
@[simp] theorem setReg_sys (s : State) (r : Reg) (v : Word) : (s.setReg r v).sys = s.sys := rfl
@[simp] theorem setMem_reg (s : State) (m : Mem) : (s.setMem m).reg = s.reg := rfl
@[simp] theorem setMem_mem (s : State) (m : Mem) : (s.setMem m).mem = m := rfl
@[simp] theorem setMem_flags (s : State) (m : Mem) : (s.setMem m).flags = s.flags := rfl
@[simp] theorem setMem_sys (s : State) (m : Mem) : (s.setMem m).sys = s.sys := rfl
@[simp] theorem setFlags_reg (s : State) (f : Flags) : (s.setFlags f).reg = s.reg := rfl
@[simp] theorem setFlags_mem (s : State) (f : Flags) : (s.setFlags f).mem = s.mem := rfl
@[simp] theorem setFlags_flags (s : State) (f : Flags) : (s.setFlags f).flags = f := rfl
@[simp] theorem setFlags_sys (s : State) (f : Flags) : (s.setFlags f).sys = s.sys := rfl
@[simp] theorem draw_reg (s : State) : s.draw.reg = s.reg := rfl
@[simp] theorem draw_mem (s : State) : s.draw.mem = s.mem := rfl
@[simp] theorem draw_flags (s : State) : s.draw.flags = s.flags := rfl
@[simp] theorem draw_sys (s : State) : s.draw.sys = s.sys := rfl

/-! ## Flags -/

/-- PF: the low byte has an even number of ones. -/
def parity (v : Word) : Bool :=
  !((List.range 8).foldl (fun p i => p ^^ v.getLsbD i) false)

def addFlags (a b : Word) : Flags where
  cf := BitVec.uaddOverflow a b
  pf := parity (a + b)
  af := 16 ≤ a.toNat % 16 + b.toNat % 16
  zf := a + b == 0#64
  sf := (a + b).msb
  of := BitVec.saddOverflow a b

def subFlags (a b : Word) : Flags where
  cf := BitVec.usubOverflow a b
  pf := parity (a - b)
  af := a.toNat % 16 < b.toNat % 16
  zf := a - b == 0#64
  sf := (a - b).msb
  of := BitVec.ssubOverflow a b

/-- Flags of a bitwise operation with result `r`; AF is undefined. -/
def logicFlags (u : Flags) (r : Word) : Flags where
  cf := false
  pf := parity r
  af := u.af
  zf := r == 0#64
  sf := r.msb
  of := false

def AluOp.eval (op : AluOp) (a b : Word) : Word :=
  match op with
  | .add => a + b
  | .sub | .cmp => a - b
  | .and => a &&& b
  | .or => a ||| b
  | .xor => a ^^^ b

def AluOp.flags (op : AluOp) (u : Flags) (a b : Word) : Flags :=
  match op with
  | .add => addFlags a b
  | .sub | .cmp => subFlags a b
  | .and | .or | .xor => logicFlags u (op.eval a b)

def ShiftOp.eval (op : ShiftOp) (a : Word) (n : ℕ) : Word :=
  match op with
  | .shl => a <<< n
  | .shr => a >>> n
  | .sar => a.sshiftRight n

/-- Flags of a shift by `n ≠ 0`: CF is the last bit shifted out, OF is defined for `n = 1` only, AF
is undefined. -/
def ShiftOp.flags (op : ShiftOp) (u : Flags) (a : Word) (n : ℕ) : Flags :=
  let r := op.eval a n
  let cf := match op with
    | .shl => a.getLsbD (64 - n)
    | .shr | .sar => a.getLsbD (n - 1)
  let of := match op with
    | .shl => r.msb ^^ cf
    | .shr => a.msb
    | .sar => false
  { cf, pf := parity r, af := u.af, zf := r == 0#64, sf := r.msb, of := if n = 1 then of else u.of }

/-- Condition `cc` of `jcc`; the odd conditions negate the even ones. -/
def Flags.cond (f : Flags) (cc : BitVec 4) : Bool :=
  let c := cc.extractLsb' 1 3
  let v :=
    if c = 0#3 then f.of
    else if c = 1#3 then f.cf
    else if c = 2#3 then f.zf
    else if c = 3#3 then f.cf || f.zf
    else if c = 4#3 then f.sf
    else if c = 5#3 then f.pf
    else if c = 6#3 then f.sf != f.of
    else f.zf || f.sf != f.of
  v != cc.getLsbD 0

def bitAt (b : Bool) (i : ℕ) : Word := if b then 1#64 <<< i else 0#64

/-- The RFLAGS image that `pushfq` stores: bit 1 reads as one, RF and VM as zero. -/
def Flags.image (f : Flags) (sys : Word) : Word :=
  bitAt f.cf 0 ||| 2#64 ||| bitAt f.pf 2 ||| bitAt f.af 4 ||| bitAt f.zf 6 ||| bitAt f.sf 7 |||
    bitAt f.of 11 ||| (sys &&& 0x3C7700#64)

/-! ## Execution -/

def execAlu (op : AluOp) (d : Reg) (b : Word) (s : State) : State :=
  let a := s.reg d
  let s' := (s.setFlags (op.flags (s.undef 0) a b)).draw
  if op = .cmp then s' else s'.setReg d (op.eval a b)

/-- The count of a 64-bit shift is taken modulo 64, and a zero count keeps the flags. -/
def execShift (op : ShiftOp) (d : Reg) (n : Byte) (s : State) : State :=
  let k := n.toNat % 64
  if k = 0 then s
  else ((s.setFlags (op.flags (s.undef 0) (s.reg d) k)).draw).setReg d (op.eval (s.reg d) k)

/-- The effect of one instruction; the control transfer of `jcc`, `ret` and `int3` is in `step`. -/
def exec (i : Instr) (s : State) : State :=
  match i with
  | .movRI d imm => s.setReg d imm
  | .movRR d r => s.setReg d (s.reg r)
  | .load d b disp => s.setReg d (read64 s.mem (s.ea b disp))
  | .store b disp r => s.setMem (writeN 8 s.mem (s.ea b disp) (s.reg r))
  | .alu op d r => execAlu op d (s.reg r) s
  | .aluI op d imm => execAlu op d (imm.signExtend 64) s
  | .test d r => (s.setFlags (logicFlags (s.undef 0) (s.reg d &&& s.reg r))).draw
  | .shift op d n => execShift op d n s
  | .pushfq =>
    (s.setMem (writeN 8 s.mem (s.reg rsp - 8#64) (s.flags.image s.sys))).setReg rsp (s.reg rsp - 8#64)
  | .pop d => (s.setReg rsp (s.reg rsp + 8#64)).setReg d (read64 s.mem (s.reg rsp))
  | .jcc _ _ | .nop | .ret | .int3 => s

/-- Instructions that fall through to the next one. -/
def Instr.straight : Instr → Bool
  | .movRI _ _ | .movRR _ _ | .load _ _ _ | .store _ _ _ | .alu _ _ _ | .aluI _ _ _ | .test _ _
  | .shift _ _ _ | .pushfq | .pop _ | .nop => true
  | .jcc _ _ | .ret | .int3 => false

/-- A machine state with the byte offset of the next instruction. -/
structure Config where
  ip : ℕ
  st : State

/-- A relative jump from offset `p`; a target before the code is not in it. -/
def jump (p : ℕ) (rel : BitVec 32) (s : State) : Option Config :=
  if 0 ≤ (p : ℤ) + rel.toInt then some ⟨((p : ℤ) + rel.toInt).toNat, s⟩ else none

def step (code : List Byte) (c : Config) : Option Config :=
  match decode (code.drop c.ip) with
  | none => none
  | some (i, n) =>
    match i with
    | .ret | .int3 => none
    | .jcc cc rel => if c.st.flags.cond cc then jump (c.ip + n) rel c.st else some ⟨c.ip + n, c.st⟩
    | i => some ⟨c.ip + n, exec i c.st⟩

def execAll (is : List Instr) (s : State) : State := is.foldl (fun s i => exec i s) s

@[simp] theorem execAll_nil (s : State) : execAll [] s = s := rfl

@[simp] theorem execAll_cons (i : Instr) (is : List Instr) (s : State) :
    execAll (i :: is) s = execAll is (exec i s) := rfl

theorem execAll_append (is js : List Instr) (s : State) :
    execAll (is ++ js) s = execAll js (execAll is s) := by
  simp [execAll, List.foldl_append]

/-- The registers an instruction may change. -/
def Instr.writes : Instr → List Reg
  | .movRI d _ | .movRR d _ | .load d _ _ | .alu _ d _ | .aluI _ d _ | .shift _ d _ => [d]
  | .pushfq => [rsp]
  | .pop d => [rsp, d]
  | .store _ _ _ | .test _ _ | .jcc _ _ | .nop | .ret | .int3 => []

theorem execAlu_reg {op : AluOp} {d q : Reg} {b : Word} {s : State} (h : q ≠ d) :
    (execAlu op d b s).reg q = s.reg q := by
  unfold execAlu
  dsimp only
  split_ifs <;> simp [h]

theorem execShift_reg {op : ShiftOp} {d q : Reg} {n : Byte} {s : State} (h : q ≠ d) :
    (execShift op d n s).reg q = s.reg q := by
  unfold execShift
  dsimp only
  split_ifs <;> simp [h]

theorem exec_reg_of_notMem {i : Instr} {q : Reg} (h : q ∉ i.writes) (s : State) :
    (exec i s).reg q = s.reg q := by
  cases i with
  | alu op d r => exact execAlu_reg (by simpa [Instr.writes] using h)
  | aluI op d imm => exact execAlu_reg (by simpa [Instr.writes] using h)
  | shift op d n => exact execShift_reg (by simpa [Instr.writes] using h)
  | pop d =>
    simp only [Instr.writes, List.mem_cons, List.not_mem_nil, or_false, not_or] at h
    simp only [exec, setReg_reg, if_neg h.1, if_neg h.2]
  | movRI | movRR | load | pushfq =>
    simp only [Instr.writes, List.mem_singleton] at h
    simp only [exec, setReg_reg, setMem_reg, if_neg h]
  | store | test | jcc | nop | ret | int3 => rfl

theorem execAll_reg_of_notMem {is : List Instr} {q : Reg} (h : ∀ i ∈ is, q ∉ i.writes) (s : State) :
    (execAll is s).reg q = s.reg q := by
  induction is generalizing s with
  | nil => rfl
  | cons i is ih =>
    rw [execAll_cons, ih (fun j hj => h j (by simp [hj])), exec_reg_of_notMem (h i (by simp))]

@[simp] theorem execAlu_mem (op : AluOp) (d : Reg) (b : Word) (s : State) :
    (execAlu op d b s).mem = s.mem := by
  unfold execAlu
  dsimp only
  split_ifs <;> simp

@[simp] theorem execShift_mem (op : ShiftOp) (d : Reg) (n : Byte) (s : State) :
    (execShift op d n s).mem = s.mem := by
  unfold execShift
  dsimp only
  split_ifs <;> simp

/-- Instructions that store to memory. -/
def Instr.stores : Instr → Bool
  | .store _ _ _ | .pushfq => true
  | .movRI _ _ | .movRR _ _ | .load _ _ _ | .alu _ _ _ | .aluI _ _ _ | .test _ _ | .shift _ _ _
  | .pop _ | .jcc _ _ | .nop | .ret | .int3 => false

theorem exec_mem {i : Instr} (h : i.stores = false) (s : State) : (exec i s).mem = s.mem := by
  cases i with
  | store | pushfq => cases h
  | _ => simp [exec]

/-! ## Code layout -/

def encodeAll (is : List Instr) : List Byte := is.flatMap encode

@[simp] theorem encodeAll_nil : encodeAll [] = [] := rfl

@[simp] theorem encodeAll_cons (i : Instr) (is : List Instr) :
    encodeAll (i :: is) = encode i ++ encodeAll is := rfl

@[simp] theorem encodeAll_append (is js : List Instr) :
    encodeAll (is ++ js) = encodeAll is ++ encodeAll js := by
  simp [encodeAll]

/-- The offset behind the instructions `is`. -/
def size (is : List Instr) : ℕ := (encodeAll is).length

@[simp] theorem size_nil : size [] = 0 := rfl

@[simp] theorem size_cons (i : Instr) (is : List Instr) :
    size (i :: is) = (encode i).length + size is := by
  simp [size]

@[simp] theorem size_append (is js : List Instr) : size (is ++ js) = size is + size js := by
  simp [size]

theorem size_le_length (is : List Instr) : size is ≤ 10 * is.length := by
  induction is with
  | nil => exact Nat.le_refl 0
  | cons i is ih =>
    have := encode_length_le i
    rw [size_cons, List.length_cons]
    omega

theorem decode_at (pre : List Instr) (i : Instr) (post : List Instr) :
    decode ((encodeAll (pre ++ i :: post)).drop (size pre)) = some (i, (encode i).length) := by
  rw [encodeAll_append, size, List.drop_left, encodeAll_cons, decode_encode]

/-- The bytes as whole instructions back to back, at most `n` of them. -/
def disasmN : ℕ → List Byte → Option (List Instr)
  | _, [] => some []
  | 0, _ :: _ => none
  | n + 1, b :: l =>
    match decode (b :: l) with
    | none => none
    | some (i, k) => (disasmN n ((b :: l).drop k)).map (i :: ·)

/-- The instructions of the code from offset `0` on. -/
def disasm (code : List Byte) : Option (List Instr) := disasmN code.length code

theorem encode_ne_nil (i : Instr) : encode i ≠ [] := by
  intro h
  have := decode_encode i []
  rw [h] at this
  cases this

theorem disasmN_encodeAll (is : List Instr) {n : ℕ} (hn : is.length ≤ n) :
    disasmN n (encodeAll is) = some is := by
  induction is generalizing n with
  | nil => rw [encodeAll_nil, disasmN]
  | cons i is ih =>
    obtain ⟨n, rfl⟩ : ∃ k, n = k + 1 := ⟨n - 1, by rw [List.length_cons] at hn; omega⟩
    obtain ⟨b, l, he⟩ := List.exists_cons_of_ne_nil (encode_ne_nil i)
    have hd := decode_encode i (encodeAll is)
    have hdrop : (encode i ++ encodeAll is).drop (encode i).length = encodeAll is := List.drop_left
    rw [List.length_cons] at hn
    rw [encodeAll_cons]
    rw [he, List.cons_append] at hd hdrop ⊢
    simp only [disasmN, hd, hdrop, ih (by omega : is.length ≤ n), Option.map_some]

theorem length_le_size (is : List Instr) : is.length ≤ size is := by
  induction is with
  | nil => exact Nat.le_refl 0
  | cons i is ih =>
    have := List.length_pos_iff.mpr (encode_ne_nil i)
    rw [size_cons, List.length_cons]
    omega

/-- Encoded code disassembles to itself. -/
theorem disasm_encodeAll (is : List Instr) : disasm (encodeAll is) = some is :=
  disasmN_encodeAll is (length_le_size is)

theorem step_straight {i : Instr} (hi : i.straight = true) (pre post : List Instr) (s : State) :
    step (encodeAll (pre ++ i :: post)) ⟨size pre, s⟩ =
      some ⟨size pre + (encode i).length, exec i s⟩ := by
  unfold step
  rw [decode_at]
  cases i with
  | jcc | ret | int3 => cases hi
  | _ => rfl

theorem step_jcc_false {cc : BitVec 4} {s : State} (h : s.flags.cond cc = false) (rel : BitVec 32)
    (pre post : List Instr) :
    step (encodeAll (pre ++ .jcc cc rel :: post)) ⟨size pre, s⟩ = some ⟨size pre + 6, s⟩ := by
  unfold step
  rw [decode_at]
  simp [h, encode]

theorem step_jcc_true {cc : BitVec 4} {s : State} (h : s.flags.cond cc = true) {rel : BitVec 32}
    {n : ℕ} (hn : rel.toInt = n) (pre post : List Instr) :
    step (encodeAll (pre ++ .jcc cc rel :: post)) ⟨size pre, s⟩ = some ⟨size pre + 6 + n, s⟩ := by
  unfold step
  rw [decode_at]
  have e : ((size pre + 6 : ℕ) : ℤ) + rel.toInt = ((size pre + 6 + n : ℕ) : ℤ) := by omega
  simp only [h, encode, jump]
  simp only [List.length_append, List.length_cons, List.length_nil, le32_length, Nat.reduceAdd,
    ↓reduceIte, e]
  rw [if_pos (by omega), Int.toNat_natCast]

/-- A step in the front part of the code. -/
theorem step_append {code : List Byte} {c d : Config} (h : step code c = some d) (tail : List Byte) :
    step (code ++ tail) c = some d ∧ c.ip < code.length := by
  have hip : c.ip < code.length := by
    by_contra hge
    unfold step at h
    rw [List.drop_of_length_le (Nat.le_of_not_lt hge)] at h
    cases h
  refine ⟨?_, hip⟩
  unfold step at h ⊢
  rw [List.drop_append_of_le_length (Nat.le_of_lt hip)]
  cases hd : decode (code.drop c.ip) with
  | none =>
    rw [hd] at h
    cases h
  | some p =>
    rw [hd] at h
    rw [reads_decode _ p hd]
    exact h

/-! ## Runs -/

/-- Zero or more steps. -/
def Steps (code : List Byte) : Config → Config → Prop :=
  Relation.ReflTransGen fun a b => step code a = some b

/-- The code is at a `ret`. -/
def AtRet (code : List Byte) (c : Config) : Prop := decode (code.drop c.ip) = some (.ret, 1)

/-- The state behind a `ret`: the return address has left the stack. -/
def State.popRet (s : State) : State := s.setReg rsp (s.reg rsp + 8#64)

/-- The code, called in state `s`, returns in state `s'`. -/
def Returns (code : List Byte) (s s' : State) : Prop :=
  ∃ c, Steps code ⟨0, s⟩ c ∧ AtRet code c ∧ s' = c.st.popRet

section Steps

variable {code : List Byte} {a b c : Config}

theorem Steps.trans (h₁ : Steps code a b) (h₂ : Steps code b c) : Steps code a c :=
  Relation.ReflTransGen.trans h₁ h₂

theorem Steps.single (h : step code a = some b) : Steps code a b := Relation.ReflTransGen.single h

theorem AtRet.stuck (h : AtRet code a) : step code a = none := by
  unfold step
  rw [h]

/-- Steps are deterministic: what is reached from `a` lies on the way to a stuck configuration. -/
theorem Steps.reached (h : Steps code a b) (hb : step code b = none) (hc : Steps code a c) :
    Steps code c b := Halting.Run.reached h hb hc

theorem Returns.unique {s s₁ s₂ : State} (h₁ : Returns code s s₁) (h₂ : Returns code s s₂) :
    s₁ = s₂ := by
  obtain ⟨c₁, hc₁, hr₁, rfl⟩ := h₁
  obtain ⟨c₂, hc₂, hr₂, rfl⟩ := h₂
  rw [Halting.Run.unique hc₁ hr₁.stuck hc₂ hr₂.stuck]

/-- The code is behind its end. -/
theorem step_of_length_le (h : code.length ≤ c.ip) : step code c = none := by
  unfold step
  rw [List.drop_of_length_le h]
  rfl

end Steps

/-- **Straight-line rule**: a list of fall-through instructions runs to its end. -/
theorem steps_list {is : List Instr} (hs : ∀ i ∈ is, i.straight = true) (pre post : List Instr)
    (s : State) : Steps (encodeAll (pre ++ is ++ post)) ⟨size pre, s⟩
      ⟨size (pre ++ is), execAll is s⟩ := by
  induction is generalizing pre s with
  | nil => rw [List.append_nil]; exact .refl
  | cons i is ih =>
    have e : pre ++ i :: is ++ post = (pre ++ [i]) ++ is ++ post := by simp
    have hstep : step (encodeAll (pre ++ i :: is ++ post)) ⟨size pre, s⟩ =
        some ⟨size (pre ++ [i]), exec i s⟩ := by
      have := step_straight (hs i (by simp)) pre (is ++ post) s
      simpa using this
    refine Steps.trans (Steps.single hstep) ?_
    rw [e, execAll_cons, show pre ++ i :: is = pre ++ [i] ++ is by simp]
    exact ih (fun j hj => hs j (by simp [hj])) (pre ++ [i]) (exec i s)

/-- Straight-line code alone has one run to its end, where there is nothing to execute. -/
theorem steps_list_iff {is : List Instr} (hs : ∀ i ∈ is, i.straight = true) (s s' : State) :
    Steps (encodeAll is) ⟨0, s⟩ ⟨(encodeAll is).length, s'⟩ ↔ s' = execAll is s := by
  have hrun := steps_list hs [] [] s
  simp only [List.nil_append, List.append_nil] at hrun
  have hstop : ∀ t, step (encodeAll is) ⟨(encodeAll is).length, t⟩ = none :=
    fun t => step_of_length_le (Nat.le_refl _)
  have hiff := Halting.Run.iff_eq hrun (hstop _) (hstop s')
  refine hiff.trans ⟨?_, ?_⟩
  · intro he
    exact congrArg Config.st he
  · intro he
    rw [he]
    rfl

/-! ## What a run executes -/

/-- The run of the code from `s` comes to the instruction `i` in state `t`. -/
def Performs (code : List Byte) (s : State) (i : Instr) (t : State) : Prop :=
  ∃ b n, Steps code ⟨0, s⟩ b ∧ decode (code.drop b.ip) = some (i, n) ∧ b.st = t

/-- The instructions of a list with the states they are executed in. -/
def trace : List Instr → State → List (Instr × State)
  | [], _ => []
  | i :: is, s => (i, s) :: trace is (exec i s)

theorem mem_trace {is : List Instr} {s : State} {p : Instr × State} :
    p ∈ trace is s ↔ ∃ pre suf, is = pre ++ p.1 :: suf ∧ p.2 = execAll pre s := by
  induction is generalizing s with
  | nil => simp [trace]
  | cons i is ih =>
    rw [trace, List.mem_cons, ih]
    constructor
    · rintro (rfl | ⟨pre, suf, rfl, ht⟩)
      · exact ⟨[], is, rfl, rfl⟩
      · exact ⟨i :: pre, suf, rfl, ht⟩
    · rintro ⟨pre, suf, he, ht⟩
      cases pre with
      | nil =>
        obtain ⟨rfl, rfl⟩ := List.cons.inj he
        exact .inl (Prod.ext rfl ht)
      | cons j pre =>
        obtain ⟨rfl, rfl⟩ := List.cons.inj he
        exact .inr ⟨pre, suf, rfl, ht⟩

theorem mem_of_mem_trace {is : List Instr} {s : State} {p : Instr × State} (h : p ∈ trace is s) :
    p.1 ∈ is := by
  obtain ⟨pre, suf, rfl, -⟩ := mem_trace.mp h
  simp

theorem trace_append (is js : List Instr) (s : State) :
    trace (is ++ js) s = trace is s ++ trace js (execAll is s) := by
  induction is generalizing s with
  | nil => rfl
  | cons i is ih => rw [List.cons_append, trace, trace, ih, execAll_cons, List.cons_append]

/-- Every point of a run through straight-line code up to a `ret`. -/
theorem reached_straight {is post : List Instr} (hs : ∀ i ∈ is, i.straight = true) {s : State}
    {b : Config} (h : Steps (encodeAll (is ++ .ret :: post)) ⟨0, s⟩ b) :
    ∃ pre suf, is = pre ++ suf ∧ b = ⟨size pre, execAll pre s⟩ := by
  induction h with
  | refl => exact ⟨[], is, rfl, rfl⟩
  | @tail b c _ hbc ih =>
    obtain ⟨pre, suf, rfl, rfl⟩ := ih
    cases suf with
    | nil =>
      unfold step at hbc
      rw [List.append_nil, decode_at] at hbc
      cases hbc
    | cons i suf =>
      have hstep := step_straight (hs i (by simp)) pre (suf ++ .ret :: post) (execAll pre s)
      rw [List.append_assoc, List.cons_append] at hbc
      obtain rfl := Option.some.inj (hstep.symm.trans hbc)
      exact ⟨pre ++ [i], suf, by simp, by simp [execAll_append]⟩

/-- **What straight-line code executes**: its instructions one by one, and the `ret`. -/
theorem performs_iff {is post : List Instr} (hs : ∀ i ∈ is, i.straight = true) {s t : State}
    {i : Instr} : Performs (encodeAll (is ++ .ret :: post)) s i t ↔
      (i, t) ∈ trace is s ∨ i = .ret ∧ t = execAll is s := by
  constructor
  · rintro ⟨b, n, hb, hd, rfl⟩
    obtain ⟨pre, suf, rfl, rfl⟩ := reached_straight hs hb
    cases suf with
    | nil =>
      rw [List.append_nil, decode_at] at hd
      exact .inr ⟨(congrArg Prod.fst (Option.some.inj hd)).symm, by rw [List.append_nil]⟩
    | cons j suf =>
      rw [List.append_assoc, List.cons_append, decode_at] at hd
      obtain rfl : j = i := congrArg Prod.fst (Option.some.inj hd)
      exact .inl (mem_trace.mpr ⟨pre, suf, rfl, rfl⟩)
  · rintro (hm | ⟨rfl, rfl⟩)
    · obtain ⟨pre, suf, rfl, ht⟩ := mem_trace.mp hm
      have hpre : ∀ j ∈ pre, j.straight = true := fun j hj => hs j (by simp [hj])
      have hrun := steps_list hpre [] (i :: suf ++ .ret :: post) s
      rw [List.nil_append, ← List.append_assoc] at hrun
      have hat := decode_at pre i (suf ++ .ret :: post)
      rw [← List.cons_append, ← List.append_assoc] at hat
      exact ⟨_, _, hrun, hat, ht.symm⟩
    · have hrun := steps_list hs [] (.ret :: post) s
      exact ⟨_, _, hrun, decode_at is .ret post, rfl⟩

/-- What `f` shows at the instructions of the run: `v`, and nothing else. -/
def Observes {α : Type} (f : Instr → State → Option α) (code : List Byte) (s : State) (v : α) : Prop :=
  (∃ i t, Performs code s i t ∧ f i t = some v) ∧
    ∀ i t w, Performs code s i t → f i t = some w → w = v

/-- Where `f` shows something at one instruction of the list only. -/
theorem observes_iff {α : Type} {f : Instr → State → Option α} {code : List Byte} {s : State}
    {pre suf : List Instr} {j : Instr} (hrun : ∀ i t, i ≠ .ret →
      (Performs code s i t ↔ (i, t) ∈ trace (pre ++ j :: suf) s)) (hret : ∀ t, f .ret t = none)
    (hpre : ∀ i ∈ pre, ∀ t, f i t = none) (hsuf : ∀ i ∈ suf, ∀ t, f i t = none) (hj : j ≠ .ret)
    {v w : α} (hw : f j (execAll pre s) = some w) : Observes f code s v ↔ w = v := by
  have hat : Performs code s j (execAll pre s) := by
    rw [hrun j _ hj, trace_append, trace]
    simp
  have honly : ∀ i t u, Performs code s i t → f i t = some u → u = w := by
    intro i t u hp hu
    have hne : i ≠ .ret := by
      rintro rfl
      rw [hret] at hu
      cases hu
    rw [hrun i t hne, trace_append, trace, List.mem_append, List.mem_cons] at hp
    rcases hp with hp | hp | hp
    · rw [hpre i (mem_of_mem_trace hp)] at hu
      cases hu
    · obtain ⟨rfl, rfl⟩ := Prod.mk.inj hp
      exact Option.some.inj (hu.symm.trans hw)
    · rw [hsuf i (mem_of_mem_trace hp)] at hu
      cases hu
  constructor
  · rintro ⟨-, h⟩
    exact h j _ w hat hw
  · rintro rfl
    exact ⟨⟨j, _, hat, hw⟩, honly⟩

/-! ## Forward jumps -/

/-- Every `jcc` skips whole instructions of the list, and not all that follow. -/
def JumpsForward (prog : List Instr) : Prop :=
  ∀ pre cc rel post, prog = pre ++ .jcc cc rel :: post →
    ∃ skip rest, post = skip ++ rest ∧ rest ≠ [] ∧ rel.toInt = (size skip : ℤ)

theorem JumpsForward.nil : JumpsForward [] := by
  intro pre cc rel post h
  simp at h

/-- Appending code keeps the jumps of both parts. -/
theorem JumpsForward.append {l l' : List Instr} (h : JumpsForward l) (h' : JumpsForward l') :
    JumpsForward (l ++ l') := by
  intro pre cc rel post he
  rcases List.append_eq_append_iff.mp he with ⟨m, rfl, hm⟩ | ⟨m, hl, hm⟩
  · exact h' m cc rel post hm
  · cases m with
    | nil => exact h' [] cc rel post hm.symm
    | cons j m =>
      obtain ⟨rfl, rfl⟩ := List.cons.inj hm
      obtain ⟨skip, rest, rfl, hne, hrel⟩ := h pre cc rel m hl
      exact ⟨skip, rest ++ l', by simp, by simp [hne], hrel⟩

/-- Straight-line code has no jumps. -/
theorem JumpsForward.of_straight {l : List Instr} (h : ∀ i ∈ l, i.straight = true) :
    JumpsForward l := by
  rintro pre cc rel post rfl
  exact absurd (h (.jcc cc rel) (by simp)) (by simp [Instr.straight])

/-- A step from an instruction boundary: the instruction there is executed, or a jump goes to a
boundary further on. -/
theorem step_boundary {prog pre post : List Instr} (hj : JumpsForward prog)
    (hp : prog = pre ++ post) {s : State} {c : Config}
    (h : step (encodeAll prog) ⟨size pre, s⟩ = some c) :
    ∃ i mid rest, post = i :: mid ++ rest ∧ c.ip = size (pre ++ i :: mid) ∧
      (i.straight = true ∧ c.st = exec i s ∨ i.straight = false ∧ c.st = s) := by
  subst hp
  cases post with
  | nil =>
    have he : (encodeAll (pre ++ [])).drop (size pre) = [] := by simp [size]
    unfold step at h
    rw [he] at h
    cases h
  | cons i post =>
    by_cases hi : i.straight = true
    · rw [step_straight hi] at h
      cases h
      exact ⟨i, [], post, rfl, by simp, .inl ⟨hi, rfl⟩⟩
    · have hstuck : i = .ret ∨ i = .int3 → step (encodeAll (pre ++ i :: post)) ⟨size pre, s⟩ = none := by
        unfold step
        rw [decode_at]
        rintro (rfl | rfl) <;> rfl
      cases i with
      | jcc cc rel =>
        obtain ⟨skip, rest, rfl, -, hrel⟩ := hj pre cc rel post rfl
        have hlen : (encode (.jcc cc rel)).length = 6 := rfl
        cases hc : s.flags.cond cc with
        | false =>
          rw [step_jcc_false hc] at h
          cases h
          exact ⟨_, [], skip ++ rest, rfl, by simp [hlen], .inr ⟨rfl, rfl⟩⟩
        | true =>
          rw [step_jcc_true hc hrel] at h
          cases h
          refine ⟨_, skip, rest, rfl, ?_, .inr ⟨rfl, rfl⟩⟩
          simp [hlen]
          omega
      | ret =>
        rw [hstuck (.inl rfl)] at h
        cases h
      | int3 =>
        rw [hstuck (.inr rfl)] at h
        cases h
      | _ => exact absurd rfl hi

/-- **Invariant rule**: a condition that every instruction behind `head` keeps, in every state where
the run executes it, holds at all times; the run stays on instruction boundaries. -/
theorem run_invariant {prog head tail : List Instr} (hj : JumpsForward prog)
    (hp : prog = head ++ tail) {K : State → Prop} {s : State} (hK : K s)
    (hstep : ∀ b i n, Steps (encodeAll prog) ⟨size head, s⟩ b → i ∈ tail → i.straight = true →
      decode ((encodeAll prog).drop b.ip) = some (i, n) → K b.st → K (exec i b.st))
    {b : Config} (hb : Steps (encodeAll prog) ⟨size head, s⟩ b) :
    K b.st ∧ ∃ mid rest, tail = mid ++ rest ∧ b.ip = size (head ++ mid) := by
  induction hb with
  | refl => exact ⟨hK, [], tail, rfl, by simp⟩
  | @tail b c hab hbc ih =>
    obtain ⟨hKb, mid, rest, rfl, hip⟩ := ih
    obtain ⟨ip, st⟩ := b
    obtain rfl : ip = size (head ++ mid) := hip
    have hp' : prog = (head ++ mid) ++ rest := by simp [hp]
    obtain ⟨i, skip, rest', rfl, hcip, hst⟩ := step_boundary hj hp' hbc
    refine ⟨?_, mid ++ i :: skip, rest', by simp, by simpa using hcip⟩
    rcases hst with ⟨hi, he⟩ | ⟨-, he⟩
    · rw [he]
      refine hstep _ i (encode i).length hab (by simp) hi ?_ hKb
      have := decode_at (head ++ mid) i (skip ++ rest')
      rw [hp']
      simpa using this
    · rw [he]
      exact hKb

end X86
