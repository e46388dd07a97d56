import Bbarm64.X86.Memory

/-!
# Decoder.Decode — `ARM64Decoder::decode`

The decoder routes a 32-bit word by tests on its bit ranges to one of the category decoders, each of
which fills the record `out` and says whether it knows the word.  A category decoder that does not
know the word can leave fields of `out` behind for the next one, so `out` is passed along; a
`uint8_t` field takes the low byte of what is assigned to it, and `int64_t` is a 64-bit vector read
in two's complement.
-/

namespace Bbarm64

open X86

inductive InstrCategory where
  | UNKNOWN | INTEGER_ARITH | LOGICAL | SHIFT | BRANCH | BRANCH_COND | LOAD_STORE | LOAD_STORE_PAIR
  | LOAD_EXCLUSIVE | COMPARE | MOVE | EXTEND | BITFIELD | SYSTEM | SIMD_FP | SYSCALL
  deriving DecidableEq, Repr

structure DecodedInstr where
  raw : BitVec 32
  category : InstrCategory
  opcode : Byte
  rd : Byte
  rn : Byte
  rm : Byte
  rt : Byte
  imm : BitVec 64
  imm_s : BitVec 64
  shift_type : Byte
  shift_amount : Byte
  size : Byte
  cond : Byte
  sets_flags : Bool
  is_pc_relative : Bool
  branch_offset : BitVec 32
  q : Byte
  vd : Byte
  deriving DecidableEq, Repr

/-- The record after `memset(&out, 0, sizeof(out)); out.raw = instr`. -/
def DecodedInstr.cleared (instr : BitVec 32) : DecodedInstr where
  raw := instr
  category := .UNKNOWN
  opcode := 0#8
  rd := 0#8
  rn := 0#8
  rm := 0#8
  rt := 0#8
  imm := 0#64
  imm_s := 0#64
  shift_type := 0#8
  shift_amount := 0#8
  size := 0#8
  cond := 0#8
  sets_flags := false
  is_pc_relative := false
  branch_offset := 0#32
  q := 0#8
  vd := 0#8

namespace ARM64Decoder

def bits (val : BitVec 32) (hi lo : ℕ) : BitVec 32 :=
  (val >>> lo) &&& ((1#32 <<< (hi - lo + 1)) - 1#32)

/-- A bit range stored in a `uint8_t` field. -/
def bits8 (val : BitVec 32) (hi lo : ℕ) : Byte := (bits val hi lo).setWidth 8

def sign_extend (val : BitVec 64) (width : ℕ) : BitVec 32 :=
  let mask := (1#64 <<< width) - 1#64
  let result := val &&& mask
  let result := if result &&& (1#64 <<< (width - 1)) ≠ 0#64 then result ||| ~~~mask else result
  result.setWidth 32

/-- A category decoder's answer when it does not know the word. -/
def unknown (out : DecodedInstr) : Bool × DecodedInstr := (false, { out with category := .UNKNOWN })

/-- The opcode of a byte, halfword, word or doubleword access (`opc` = bits 31:30). -/
def ldst_opcode (is_load : Bool) (opc : BitVec 32) : Byte :=
  if is_load then
    if opc = 0b11#32 then 0x63#8 else if opc = 0b10#32 then 0x62#8
    else if opc = 0b01#32 then 0x61#8 else 0x60#8
  else
    if opc = 0b11#32 then 0x73#8 else if opc = 0b10#32 then 0x72#8
    else if opc = 0b01#32 then 0x71#8 else 0x70#8

def decode_data_proc_reg (instr : BitVec 32) (out : DecodedInstr) : Bool × DecodedInstr :=
  let out := { out with size := bits8 instr 31 31 }
  let op := bits instr 30 21
  let out3 := { out with
    rd := bits8 instr 4 0, rn := bits8 instr 9 5, rm := bits8 instr 20 16 }
  let shifted := { out3 with
    shift_type := bits8 instr 23 22, shift_amount := bits8 instr 15 10 }
  let sets := bits instr 31 29 &&& 1#32 != 0#32
  let ands_op := bits instr 30 29
  let ands_op2 := bits instr 28 24
  if op = 0x02C#32 ∨ op = 0x2AC#32 then
    (true, { shifted with category := .INTEGER_ARITH, opcode := 0x00#8, sets_flags := sets })
  else if op = 0x034#32 ∨ op = 0x234#32 then
    (true, { shifted with category := .INTEGER_ARITH, opcode := 0x01#8, sets_flags := sets })
  else if (ands_op = 0b00#32 ∨ ands_op = 0b01#32 ∨ ands_op = 0b10#32) ∧
      (ands_op2 = 0b00000#32 ∨ ands_op2 = 0b00001#32 ∨ ands_op2 = 0b00010#32 ∨
        ands_op2 = 0b00011#32 ∨ ands_op2 = 0b01000#32 ∨ ands_op2 = 0b01001#32 ∨
        ands_op2 = 0b01010#32 ∨ ands_op2 = 0b01011#32) then
    let combined := (ands_op <<< 5) ||| ands_op2
    let opcode : Byte :=
      if combined = 0b0000000#32 then 0x10#8
      else if combined = 0b0000001#32 then 0x11#8
      else if combined = 0b0101010#32 then 0x12#8
      else if combined = 0b0101011#32 then 0x13#8
      else if combined = 0b1001000#32 then 0x14#8
      else if combined = 0b1001001#32 then 0x15#8
      else if combined = 0b0001010#32 then 0x16#8
      else if combined = 0b0001011#32 then 0x17#8
      else 0x10#8
    (true, { shifted with category := .LOGICAL, opcode := opcode,
                          sets_flags := opcode == 0x16#8 || opcode == 0x17#8 })
  else if bits instr 30 21 = 0x2A0#32 ∧ bits instr 9 5 = 31#32 then
    (true, { out with category := .MOVE, opcode := 0x20#8, rd := bits8 instr 4 0, rn := 31#8,
                      rm := bits8 instr 20 16 })
  else if bits instr 30 21 = 0x1B0#32 then
    (true, { out3 with category := .INTEGER_ARITH,
                       opcode := if bits instr 15 10 = 31#32 then 0x02#8 else 0x03#8 })
  else if bits instr 30 21 = 0x1AC#32 then
    (true, { out3 with category := .INTEGER_ARITH,
                       opcode := if bits instr 11 10 = 1#32 then 0x05#8 else 0x04#8 })
  else if bits instr 30 22 = 0x0D3#32 then
    (true, { out3 with category := .SHIFT, opcode := bits8 instr 23 22 })
  else if bits instr 30 21 = 0x2B0#32 ∧ bits instr 4 0 = 31#32 then
    (true, { out with category := .COMPARE, opcode := 0x30#8, rn := bits8 instr 9 5,
                      rm := bits8 instr 20 16, sets_flags := true })
  else if bits instr 30 21 = 0x2A0#32 ∧ bits instr 4 0 = 31#32 ∧ bits instr 28 24 = 0b01010#32 then
    (true, { out with category := .COMPARE, opcode := 0x31#8, rn := bits8 instr 9 5,
                      rm := bits8 instr 20 16, sets_flags := true })
  else if bits instr 30 24 = 0x1A8#32 then
    (true, { out3 with category := .BRANCH_COND, opcode := 0x40#8, cond := bits8 instr 15 12 })
  else unknown out

def decode_data_proc_imm (instr : BitVec 32) (out : DecodedInstr) : Bool × DecodedInstr :=
  let out := { out with size := bits8 instr 31 31 }
  let imm12 := (bits instr 21 10).setWidth 64
  let add_sub := { out with
    category := .INTEGER_ARITH, rd := bits8 instr 4 0, rn := bits8 instr 9 5, rm := 0xFF#8,
    imm := if bits instr 22 22 ≠ 0#32 then imm12 <<< 12 else imm12,
    sets_flags := bits instr 30 30 != 0#32 }
  if bits instr 30 24 = 0b0010001#32 ∨ bits instr 30 24 = 0b0110001#32 then
    (true, { add_sub with opcode := 0x00#8 })
  else if bits instr 30 24 = 0b1010001#32 ∨ bits instr 30 24 = 0b1110001#32 then
    (true, { add_sub with opcode := 0x01#8 })
  else if bits instr 28 23 = 0b100110#32 ∨ bits instr 28 23 = 0b100111#32 then
    let immr := bits instr 21 16
    let imms := bits instr 15 10
    let is_sbfm := bits instr 28 23 = 0b100110#32
    let out := { out with
      category := .INTEGER_ARITH, rd := bits8 instr 4 0, rn := bits8 instr 9 5, rm := 0xFF#8,
      imm := immr.setWidth 64 }
    if is_sbfm ∧ imms = 63#32 then (true, { out with opcode := 0x04#8 })
    else if ¬ is_sbfm ∧ imms = 63#32 then (true, { out with opcode := 0x05#8 })
    else if ¬ is_sbfm ∧ imms = 63#32 - immr then (true, { out with opcode := 0x06#8 })
    else
      (true, { out with opcode := if is_sbfm then 0x07#8 else 0x08#8, imm_s := imms.setWidth 64 })
  else if bits instr 28 23 = 0x25#32 then
    let opc := bits instr 30 29
    (true, { out with
      category := .MOVE, rd := bits8 instr 4 0, imm := (bits instr 20 5).setWidth 64,
      -- `opc = 01` assigns no opcode
      opcode := if opc = 0b00#32 then 0x21#8 else if opc = 0b10#32 then 0x22#8
        else if opc = 0b11#32 then 0x23#8 else out.opcode })
  else unknown out

def decode_branch (instr : BitVec 32) (out : DecodedInstr) : Bool × DecodedInstr :=
  let offset26 := sign_extend (instr.setWidth 64) 26 <<< 2
  let offset19 := sign_extend (instr.setWidth 64) 19 <<< 2
  if bits instr 31 26 = 0b000101#32 then
    (true, { out with category := .BRANCH, opcode := 0x50#8, branch_offset := offset26 })
  else if bits instr 31 26 = 0b100101#32 then
    (true, { out with category := .BRANCH, opcode := 0x51#8, branch_offset := offset26 })
  else if bits instr 31 26 = 0b110101#32 ∧ bits instr 15 10 = 0#32 ∧ bits instr 4 0 = 0#32 then
    if bits instr 9 5 = 30#32 then
      (true, { out with category := .BRANCH, opcode := 0x53#8, rn := 30#8 })
    else (true, { out with category := .BRANCH, opcode := 0x52#8, rn := bits8 instr 9 5 })
  else if bits instr 31 25 = 0b0101010#32 then
    (true, { out with category := .BRANCH_COND, opcode := 0x54#8, cond := bits8 instr 3 0,
                      branch_offset := offset19 })
  else if bits instr 31 25 = 0b0011010#32 ∨ bits instr 31 25 = 0b1011010#32 then
    (true, { out with category := .BRANCH_COND,
                      opcode := if bits instr 24 24 ≠ 0#32 then 0x56#8 else 0x55#8,
                      rn := bits8 instr 9 5, size := bits8 instr 31 31, branch_offset := offset19 })
  else unknown out

def decode_load_store (instr : BitVec 32) (out : DecodedInstr) : Bool × DecodedInstr :=
  let opc := bits instr 31 30
  let b28_26 := bits instr 28 26
  let is_load := bits instr 22 22 != 0#32
  let access := { out with
    category := .LOAD_STORE, rt := bits8 instr 4 0, rn := bits8 instr 9 5,
    opcode := ldst_opcode is_load opc }
  let register := { access with
    rm := bits8 instr 20 16, shift_type := bits8 instr 13 12, imm := 0#64 }
  if b28_26 = 0b111#32 then
    (true, { access with imm := (bits instr 21 10 <<< opc.toNat).setWidth 64 })
  else if b28_26 = 0b010#32 then (true, register)
  else if b28_26 = 0b011#32 then
    let imm9 := (sign_extend ((bits instr 20 12).setWidth 64) 9).signExtend 64
    (true, { access with rm := 255#8, imm_s := imm9, imm := imm9 })
  else if b28_26 = 0b110#32 then (true, register)
  else if bits instr 31 25 = 0b0010100#32 then
    let imm := (bits instr 21 15).setWidth 64
    (true, { out with
      category := .LOAD_STORE_PAIR, rt := bits8 instr 4 0, rn := bits8 instr 9 5,
      rm := bits8 instr 14 10, imm := imm, imm_s := (sign_extend imm 7).signExtend 64 <<< 3,
      opcode := if is_load then 0x80#8 else 0x81#8 })
  else unknown out

def decode_system (instr : BitVec 32) (out : DecodedInstr) : Bool × DecodedInstr :=
  if instr = 0xD503201F#32 then (true, { out with category := .SYSTEM, opcode := 0x90#8 })
  else if bits instr 31 22 = 0b1101010100#32 then
    let op1 := bits instr 11 8
    (true, { out with
      category := .SYSTEM, rd := bits8 instr 4 0,
      opcode := if op1 = 0b0101#32 then 0x91#8 else if op1 = 0b0110#32 then 0x92#8
        else if op1 = 0b0111#32 then 0x93#8 else if op1 = 0b0000#32 then 0x94#8
        else if op1 = 0b0001#32 then 0x95#8 else 0x90#8 })
  else unknown out

/-- Bits 31:24 of ADRP, for the four values of `immlo`. -/
def is_adrp (b31_24 : BitVec 32) : Prop :=
  b31_24 = 0b10010000#32 ∨ b31_24 = 0b10110000#32 ∨ b31_24 = 0b11010000#32 ∨ b31_24 = 0b11110000#32

instance (b : BitVec 32) : Decidable (is_adrp b) := inferInstanceAs (Decidable (_ ∨ _))

def decode_pcrel (instr : BitVec 32) (out : DecodedInstr) : Bool × DecodedInstr :=
  let imm21 := ((bits instr 23 5 <<< 2) ||| bits instr 30 29).setWidth 64
  let offset := (sign_extend imm21 21).signExtend 64
  let address := { out with
    category := .MOVE, rd := bits8 instr 4 0, imm_s := offset, imm := offset, is_pc_relative := true }
  if bits instr 31 24 = 0b00010000#32 then (true, { address with opcode := 0x24#8 })
  else if is_adrp (bits instr 31 24) then (true, { address with opcode := 0x25#8 })
  else if bits instr 31 26 = 0b010110#32 then
    let imm19 := (bits instr 23 5).setWidth 64
    let opc := bits instr 31 30
    let literal := { out with
      category := .LOAD_STORE, rt := bits8 instr 4 0, rn := 31#8,
      imm_s := (sign_extend imm19 19).signExtend 64, is_pc_relative := true }
    if opc = 0b00#32 then (true, { literal with opcode := 0x62#8 })
    else if opc = 0b01#32 then (true, { literal with opcode := 0x63#8 })
    else (true, { literal with category := .SIMD_FP })
  else unknown out

def decode_test_branch (instr : BitVec 32) (out : DecodedInstr) : Bool × DecodedInstr :=
  let cond := bits8 instr 24 24
  let offset := sign_extend ((bits instr 18 5).setWidth 64) 14 <<< 2
  (true, { out with
    category := .BRANCH_COND, rn := bits8 instr 4 0, size := bits8 instr 31 31, cond := cond,
    opcode := if cond ≠ 0#8 then 0x58#8 else 0x57#8, imm := (bits instr 23 19).setWidth 64,
    branch_offset := offset })

/-- The SIMD forms; on failure `out` is untouched. -/
def decode_simd (instr : BitVec 32) (out : DecodedInstr) : Bool × DecodedInstr :=
  let b31_24 := bits instr 31 24
  let b14_10 := bits instr 14 10
  let simd := { out with
    category := .SIMD_FP, rd := bits8 instr 4 0, rn := bits8 instr 5 5, size := bits8 instr 23 22,
    q := bits8 instr 30 30 }
  let three := { simd with rm := bits8 instr 16 16 }
  let is_three := b31_24 = 0x4E#32 ∧ bits instr 20 16 = 0x10#32
  if b31_24 = 0x4E#32 ∧ bits instr 20 16 = 0#32 ∧ b14_10 = 0#32 then
    (true, { simd with opcode := 0xA0#8, rm := bits8 instr 9 5 })
  else if is_three ∧ b14_10 = 0x10#32 then (true, { three with opcode := 0xA1#8 })
  else if is_three ∧ b14_10 = 0x12#32 then (true, { three with opcode := 0xA2#8 })
  else if is_three ∧ b14_10 = 0x00#32 then (true, { three with opcode := 0xA3#8 })
  else if is_three ∧ b14_10 = 0x01#32 then (true, { three with opcode := 0xA4#8 })
  else if is_three ∧ b14_10 = 0x02#32 then (true, { three with opcode := 0xA5#8 })
  else if is_three ∧ b14_10 = 0x03#32 then (true, { three with opcode := 0xA6#8 })
  else (false, out)

/-- Bits 28:24 that go to `decode_data_proc_reg` first. -/
def reg_route (b : BitVec 32) : Prop :=
  b ≤ 0b01011#32 ∨ b = 0b10000#32 ∨ b = 0b10001#32 ∨ b = 0b10010#32 ∨ b = 0b10011#32 ∨
    b = 0b11000#32 ∨ b = 0b11001#32

instance (b : BitVec 32) : Decidable (reg_route b) := inferInstanceAs (Decidable (_ ∨ _))

/-- Bits 30:24 of ADD, SUB, ADDS, SUBS (immediate). -/
def add_sub_imm (b : BitVec 32) : Prop :=
  b = 0b0010001#32 ∨ b = 0b1010001#32 ∨ b = 0b0110001#32 ∨ b = 0b1110001#32

instance (b : BitVec 32) : Decidable (add_sub_imm b) := inferInstanceAs (Decidable (_ ∨ _))

/-- `if (decoder) return true;`, with the rest of the function as `k`. -/
def orElse (r : Bool × DecodedInstr) (k : DecodedInstr → Bool × DecodedInstr) :
    Bool × DecodedInstr :=
  if r.1 then r else k r.2

/-- `if (c) { if (decoder) return true; }`, with the rest of the function as `k`. -/
def orElseIf (c : Prop) [Decidable c] (r : DecodedInstr → Bool × DecodedInstr) (out : DecodedInstr)
    (k : DecodedInstr → Bool × DecodedInstr) : Bool × DecodedInstr :=
  if c then orElse (r out) k else k out

/-- The end of `decode`, from the MOVZ test behind the data-processing routes on. -/
def decode_last (instr : BitVec 32) (out : DecodedInstr) : Bool × DecodedInstr :=
  let op1 := bits instr 31 29
  if op1 = 0b110#32 ∧ bits instr 28 23 = 0b100101#32 then decode_data_proc_imm instr out
  else if bits instr 31 25 = 0b1101010#32 then decode_system instr out
  else orElseIf (op1 = 0b010#32 ∨ op1 = 0b011#32) (decode_simd instr) out unknown

/-- The routes of op1 = 000, 010, 100, 110. -/
def decode_even (instr : BitVec 32) (out : DecodedInstr) : Bool × DecodedInstr :=
  let op1 := bits instr 31 29
  if op1 = 0b000#32 ∨ op1 = 0b010#32 ∨ op1 = 0b100#32 ∨ op1 = 0b110#32 then
    let op := bits instr 30 29
    orElseIf (bits instr 28 23 = 0b100110#32 ∨ bits instr 28 23 = 0b100111#32)
      (decode_data_proc_imm instr) out fun out =>
    orElseIf (op = 0b00#32 ∨ op = 0b01#32) (decode_data_proc_reg instr) out fun out =>
    orElseIf (op = 0b10#32) (decode_data_proc_imm instr) out (decode_last instr)
  else decode_last instr out

/-- From the MOVZ/MOVK/MOVN test behind the logical route on. -/
def decode_mid (instr : BitVec 32) (out : DecodedInstr) : Bool × DecodedInstr :=
  let op1 := bits instr 31 29
  if bits instr 28 23 = 0b100101#32 then decode_data_proc_imm instr out
  else if add_sub_imm (bits instr 30 24) then decode_data_proc_imm instr out
  else if bits instr 31 25 = 0b0101010#32 then decode_branch instr out
  else if bits instr 31 26 = 0b110101#32 ∧ bits instr 15 10 = 0#32 ∧ bits instr 4 0 = 0#32 then
    decode_branch instr out
  else if op1 = 0b001#32 ∨ op1 = 0b010#32 ∨ op1 = 0b011#32 ∨ op1 = 0b111#32 then
    decode_load_store instr out
  else decode_even instr out

/-- `ARM64Decoder::decode`: the Boolean result and the record. -/
def decode (instr : BitVec 32) : Bool × DecodedInstr :=
  let out := DecodedInstr.cleared instr
  let op1 := bits instr 31 29
  let op25 := bits instr 31 25
  let op28_24 := bits instr 28 24
  if bits instr 31 24 = 0b00010000#32 then decode_pcrel instr out
  else if is_adrp (bits instr 31 24) then decode_pcrel instr out
  else if bits instr 31 26 = 0b010110#32 then decode_pcrel instr out
  else if op25 = 0b00110110#32 ∨ op25 = 0b00110111#32 then decode_test_branch instr out
  else if op1 = 0b101#32 ∧ add_sub_imm (bits instr 30 24) then decode_data_proc_imm instr out
  else if op1 = 0b101#32 ∧ reg_route op28_24 then decode_data_proc_reg instr out
  else if op1 = 0b101#32 then
    let op2 := bits instr 31 29
    if op2 = 0b101#32 then decode_branch instr out
    else if bits instr 31 21 = 0b11010100001#32 then
      (true, { out with category := .SYSCALL, opcode := bits8 instr 20 5,
                        imm := (bits instr 20 5).setWidth 64 })
    else decode_system instr out
  else if bits instr 31 26 = 0b000101#32 ∨ bits instr 31 26 = 0b100101#32 then
    decode_branch instr out
  else
    orElseIf (reg_route op28_24 ∧ op1 ≠ 0b101#32) (decode_data_proc_reg instr) out
      (decode_mid instr)

/-- A successful decode, as `translate_block` and `run` use it. -/
def decode? (instr : BitVec 32) : Option DecodedInstr :=
  if (decode instr).1 then some (decode instr).2 else none

end ARM64Decoder

end Bbarm64
