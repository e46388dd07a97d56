import Bbarm64.Cache.Chaining
import Bbarm64.Engine.Exits
import Bbarm64.Engine.PoolUse
import Bbarm64.Engine.Slots
import Bbarm64.X86.StoreRun

/-!
# Engine.Chain — blocks behind `patch_chain_slot`

The patch goes to the last ten bytes of a block, and the lowering reserves none.  A block that ends in a
branch has returned before them and keeps its stores; any other block has the store to `ctx.pc` there.
-/

namespace Bbarm64

open X86 ARM64Decoder IRBuilder IROptimizer IRLowering

open TranslationCache (DEFAULT_CODE_POOL_SIZE)

namespace ExecEngine

/-! ## Chained blocks -/

/-- Control leaves the code at a `ret` or at one of `exits`. -/
def LeavesAt (code : List Byte) (exits : Set ℕ) (c : Config) : Prop := c.ip ∈ exits ∨ AtRet code c

/-- From every state `prog` comes to its `ret`, and the code makes the stores that `prog` makes up to
there, those and no others in their order, before control leaves it. -/
def KeepsStores (prog code : List Byte) (exits : Set ℕ) : Prop :=
  ∀ s, ∃ l c d, StoreRun prog ∅ ⟨0, s⟩ l c ∧ AtRet prog c ∧
    StoreRun code exits ⟨0, s⟩ l d ∧ LeavesAt code exits d

/-- The block behind the patch, with `tail` the bytes that follow it in memory: it does what `prog`
does, and the slot holds a jump to the target. -/
structure Chains (prog : List Byte) (m : Mem) (block : BlockInfo) (slot : ℤ) (target_addr : Word)
    (tail : List Byte) : Prop where
  keeps : KeepsStores prog (slot_bytes (patched m block slot target_addr) block ++ tail)
    {(chain_offset block slot).toNat}
  jumps : ∃ rel, decodeInsn ((slot_bytes (patched m block slot target_addr) block).drop
      (chain_offset block slot).toNat) = some (.jmp rel, 5) ∧
    slot_ptr block slot + 5#64 + rel.signExtend 64 = target_addr

/-- The live code ends at or before the first byte of the slot: 9 or 4 bytes before the end. -/
def SlotClear (ds : List DecodedInstr) (slot : ℤ) : Prop :=
  live_bytes ds + (if slot = 1 then 4 else 9) ≤ min slot_size (code_bytes ds)

/-! ## The bytes behind the patch -/

section Bytes

variable {m : Mem} {block : BlockInfo} {slot : ℤ} {target_addr : Word}

@[simp] theorem slot_bytes_length (m : Mem) (block : BlockInfo) :
    (slot_bytes m block).length = block.host_code_size.toNat := by simp [slot_bytes]

theorem slot_bytes_getElem? {i : ℕ} (hi : i < block.host_code_size.toNat) :
    (slot_bytes m block)[i]? = some (m (off block.host_code i)) := by simp [slot_bytes, hi]

theorem patched_bytes (h : slot = 0 ∨ slot = 1) (hsize : 10 ≤ block.host_code_size.toNat) :
    slot_bytes (patched m block slot target_addr) block =
      (slot_bytes m block).take (chain_offset block slot).toNat ++
        encodeInsn (.jmp (chain_rel block slot target_addr)) ++
          (slot_bytes m block).drop ((chain_offset block slot).toNat + 5) := by
  have hbyte := @patched_byte block slot h hsize m target_addr
  have hle : (chain_offset block slot).toNat + 5 ≤ block.host_code_size.toNat := by
    rw [chain_offset_toNat h hsize]
    split_ifs <;> omega
  generalize chain_rel block slot target_addr = rel at *
  generalize (chain_offset block slot).toNat = o at *
  have htake : ((slot_bytes m block).take o).length = o := by
    rw [List.length_take, slot_bytes_length]
    omega
  refine List.ext_getElem? fun i => ?_
  rw [List.append_assoc]
  by_cases hi : i < block.host_code_size.toNat
  · rw [slot_bytes_getElem? hi, hbyte hi]
    rcases Nat.lt_or_ge i o with hio | hio
    · rw [if_neg (by omega), if_neg (by omega), List.getElem?_append_left (by omega),
        List.getElem?_take_of_lt hio, slot_bytes_getElem? hi]
    · rw [List.getElem?_append_right (by omega), htake]
      obtain ⟨j, rfl⟩ := Nat.exists_eq_add_of_le hio
      rw [Nat.add_sub_cancel_left]
      rcases Nat.lt_or_ge j 5 with hj | hj
      · rw [List.getElem?_append_left hj]
        cases j with
        | zero =>
          rw [if_pos (Nat.add_zero o)]
          rfl
        | succ j =>
          rw [if_neg (by omega), if_pos (by omega), encodeInsn, List.getElem?_cons_succ,
            le32_getElem? _ (by omega)]
          congr 2
          omega
      · rw [if_neg (by omega), if_neg (by omega), List.getElem?_append_right hj, List.getElem?_drop]
        have hsum : o + 5 + (j - (encodeInsn (.jmp rel)).length) = o + j := by
          show o + 5 + (j - 5) = o + j
          omega
        rw [hsum, slot_bytes_getElem? hi]
  · rw [List.getElem?_eq_none (by rw [slot_bytes_length]; omega), List.getElem?_eq_none ?_]
    simp only [List.length_append, htake, List.length_drop, slot_bytes_length]
    show _ ≥ o + (5 + (_ - (o + 5)))
    omega

/-- The displacement reaches every target of the pool. -/
theorem chain_rel_target {pool : Word} {o k : ℕ} (hptr : slot_ptr block slot = off pool o)
    (ho : o < DEFAULT_CODE_POOL_SIZE) (hk : k < DEFAULT_CODE_POOL_SIZE) :
    slot_ptr block slot + 5#64 + (chain_rel block slot (off pool k)).signExtend 64 = off pool k := by
  have hsize : DEFAULT_CODE_POOL_SIZE = 67108864 := rfl
  have hnat : (off pool k - (off pool o + 5#64)).toNat = (k + (2 ^ 64 - (o + 5))) % 2 ^ 64 := by
    have hp := pool.isLt
    simp only [off, BitVec.toNat_sub, BitVec.toNat_add, BitVec.toNat_ofNat]
    omega
  have hext : ∀ x : Word, -2 ^ 31 ≤ x.toInt → x.toInt < 2 ^ 31 →
      (x.setWidth 32).signExtend 64 = x := by
    intro x h1 h2
    apply BitVec.eq_of_toInt_eq
    rw [BitVec.toInt_signExtend_of_le (by omega), BitVec.toInt_setWidth]
    have hb : x.toInt.bmod (2 ^ 32) = x.toInt := by
      rw [Int.bmod_def]
      split <;> omega
    rw [← hb]
    simp [BitVec.toInt_eq_toNat_bmod, Int.bmod_bmod_of_dvd]
  have hint : -2 ^ 31 ≤ (off pool k - (off pool o + 5#64)).toInt ∧
      (off pool k - (off pool o + 5#64)).toInt < 2 ^ 31 := by
    rw [BitVec.toInt_eq_toNat_cond, hnat]
    split_ifs <;> omega
  rw [chain_rel, hptr, hext _ hint.1 hint.2, BitVec.add_comm, BitVec.sub_add_cancel]

/-- Some target has a displacement whose first byte is `C3`. -/
theorem exists_ret_target {pool : Word} {o : ℕ} (hptr : slot_ptr block slot = off pool o) :
    ∃ k < DEFAULT_CODE_POOL_SIZE, byteAt (chain_rel block slot (off pool k)) 0 = 0xC3#8 := by
  have hsize : 256 < DEFAULT_CODE_POOL_SIZE := by decide
  refine ⟨(o + 200) % 256, Nat.lt_trans (Nat.mod_lt _ (by decide)) hsize, ?_⟩
  apply BitVec.eq_of_toNat_eq
  have hp := pool.isLt
  simp only [chain_rel, hptr, byteAt, off, BitVec.extractLsb'_toNat, BitVec.toNat_setWidth,
    BitVec.toNat_sub, BitVec.toNat_add, BitVec.toNat_ofNat, Nat.mul_zero, Nat.shiftRight_zero]
  omega

theorem jumps_of_size (h : slot = 0 ∨ slot = 1) (hsize : 10 ≤ block.host_code_size.toNat) {pool : Word}
    {o k : ℕ} (hptr : slot_ptr block slot = off pool o) (ho : o < DEFAULT_CODE_POOL_SIZE)
    (hk : k < DEFAULT_CODE_POOL_SIZE) :
    ∃ rel, decodeInsn ((slot_bytes (patched m block slot (off pool k)) block).drop
        (chain_offset block slot).toNat) = some (.jmp rel, 5) ∧
      slot_ptr block slot + 5#64 + rel.signExtend 64 = off pool k := by
  refine ⟨chain_rel block slot (off pool k), ?_, chain_rel_target hptr ho hk⟩
  have hle : (chain_offset block slot).toNat ≤ block.host_code_size.toNat := by
    rw [chain_offset_toNat h hsize]
    exact Nat.sub_le _ _
  have hlen : ((slot_bytes m block).take (chain_offset block slot).toNat).length =
      (chain_offset block slot).toNat := by
    rw [List.length_take, slot_bytes_length]
    omega
  rw [patched_bytes h hsize, List.append_assoc, List.drop_append_of_le_length (by omega),
    List.drop_of_length_le (by omega), List.nil_append]
  exact decodeInsn_encodeInsn _ _

end Bytes

/-! ## Live code before the slot -/

theorem atRet_append {code : List Byte} {c : Config} (h : AtRet code c) (tail : List Byte) :
    AtRet (code ++ tail) c := by
  have hip : c.ip < code.length := by
    by_contra hge
    unfold AtRet at h
    rw [List.drop_of_length_le (Nat.le_of_not_lt hge)] at h
    cases h
  unfold AtRet at h ⊢
  rw [List.drop_append_of_le_length (Nat.le_of_lt hip)]
  exact reads_decode _ _ h tail

theorem atRet_end {front : List Instr} {c : Config} (h : c.ip = size front) (rest : List Byte) :
    AtRet (encodeAll front ++ 0xC3#8 :: rest) c := by
  unfold AtRet
  rw [h, size, List.drop_left]
  exact decode_encode .ret rest

/-- **Code that starts with the live code** keeps the stores, if its `ret` is there or is an exit. -/
theorem keepsStores_of_front {front dead : List Instr} (hlive : LiveFront front) {rest : List Byte}
    {o : ℕ} (ho : size front ≤ o) (hrest : size front = o ∨ ∃ r, rest = 0xC3#8 :: r) :
    KeepsStores (encodeAll (front ++ .ret :: dead)) (encodeAll front ++ rest) {o} := by
  intro s
  obtain ⟨d, hsteps, hd⟩ := hlive s
  obtain ⟨k, hk⟩ := exists_storeRun hsteps
  have horig := hk (encodeAll (.ret :: dead)) ∅ fun _ h => absurd h (Set.notMem_empty _)
  have hstop : AtRet (encodeAll front ++ encodeAll (.ret :: dead)) d := by
    rcases hd with hd | hd
    · exact atRet_end hd (encodeAll dead)
    · exact atRet_append hd _
  rw [encodeAll_append]
  refine ⟨k, d, d, horig, hstop, hk rest {o} fun o' ho' => ?_, ?_⟩
  · rw [Set.mem_singleton_iff.mp ho']
    exact ho
  · rcases hd with hd | hd
    · rcases hrest with he | ⟨r, rfl⟩
      · exact .inl (hd.trans he)
      · exact .inr (atRet_end hd r)
    · exact .inr (atRet_append hd rest)

theorem keepsStores_of_live {m : Mem} {block : BlockInfo} {slot : ℤ} {target_addr : Word}
    (h : slot = 0 ∨ slot = 1) (hsize : 10 ≤ block.host_code_size.toNat) {front dead : List Instr}
    (hlive : LiveFront front) {t : List Byte}
    (hbytes : slot_bytes m block = encodeAll (front ++ [.ret]) ++ t)
    (ho : size front ≤ (chain_offset block slot).toNat) (tail : List Byte) :
    KeepsStores (encodeAll (front ++ .ret :: dead))
      (slot_bytes (patched m block slot target_addr) block ++ tail)
      {(chain_offset block slot).toNat} := by
  have hret : encodeAll (front ++ [.ret]) ++ t = encodeAll front ++ 0xC3#8 :: t := by
    rw [encodeAll_append, List.append_assoc]
    rfl
  rw [patched_bytes h hsize, hbytes, hret]
  generalize encodeInsn _ = jump
  generalize (chain_offset block slot).toNat = o at *
  obtain ⟨i, rfl⟩ := Nat.exists_eq_add_of_le ho
  have htake : (encodeAll front ++ 0xC3#8 :: t).take (size front + i) =
      encodeAll front ++ (0xC3#8 :: t).take i := List.take_length_add_append i
  rw [htake, List.append_assoc, List.append_assoc, List.append_assoc]
  refine keepsStores_of_front hlive ho ?_
  cases i with
  | zero => exact .inl rfl
  | succ i => exact .inr ⟨_, rfl⟩

/-! ## The final return under the slot -/

section Return

variable {main : List Instr} {code rest : List Byte} {exits : Set ℕ} {b0 b1 b2 b3 b4 b5 b6 b7 : Byte}

theorem decode_mov_rax : ∃ v, decode (0x48#8 :: 0xB8#8 :: b0 :: b1 :: b2 :: b3 :: b4 :: b5 :: b6 :: b7 ::
    rest) = some (.movRI rax v, 10) := ⟨_, rfl⟩

theorem decode_store_r12 (d0 d1 d2 d3 : Byte) :
    decode (0x49#8 :: 0x89#8 :: 0x84#8 :: 0x24#8 :: d0 :: d1 :: d2 :: d3 :: rest) =
      some (.store r12 (d3 ++ d2 ++ d1 ++ d0) rax, 8) := rfl

/-- The 19 bytes of `emit_block_ret`. -/
theorem blockRet_bytes (pc : Word) : ∃ b0 b1 b2 b3 b4 b5 b6 b7, encodeAll (blockRet pc) =
    [0x48#8, 0xB8#8, b0, b1, b2, b3, b4, b5, b6, b7, 0x49#8, 0x89#8, 0x84#8, 0x24#8, 0x00#8, 0x01#8,
      0x00#8, 0x00#8, 0xC3#8] := ⟨_, _, _, _, _, _, _, _, rfl⟩

theorem displacement_low_bit (a b c d : Byte) :
    ((a ++ b ++ c ++ d).signExtend 64).getLsbD 0 = d.getLsbD 0 := by
  rw [BitVec.getLsbD_signExtend, BitVec.getLsbD_append]
  simp

/-- The move to RAX. -/
theorem storeRun_mov (hcode : code = encodeAll main ++ 0x48#8 :: 0xB8#8 :: b0 :: b1 :: b2 :: b3 :: b4 :: b5 ::
    b6 :: b7 :: rest) (hx : size main ∉ exits) (s : State) :
    ∃ v, StoreRun code exits ⟨size main, s⟩ [] ⟨size main + 10, s.setReg rax v⟩ := by
  obtain ⟨v, hv⟩ := @decode_mov_rax rest b0 b1 b2 b3 b4 b5 b6 b7
  have hd : decode (code.drop (size main)) = some (.movRI rax v, 10) := by
    rw [hcode, size, List.drop_left]
    exact hv
  exact ⟨v, StoreRun.single (c := ⟨size main, s⟩) rfl hx hd⟩

/-- The move, and the store behind it. -/
theorem storeRun_mov_store {d0 d1 d2 d3 : Byte} (hcode : code = encodeAll main ++ 0x48#8 :: 0xB8#8 :: b0 ::
    b1 :: b2 :: b3 :: b4 :: b5 :: b6 :: b7 :: 0x49#8 :: 0x89#8 :: 0x84#8 :: 0x24#8 :: d0 :: d1 :: d2 ::
      d3 :: rest) (hx : size main ∉ exits) (hx' : size main + 10 ∉ exits) (s : State) :
    ∃ v t, StoreRun code exits ⟨size main, s⟩
      [(s.reg r12 + (d3 ++ d2 ++ d1 ++ d0).signExtend 64, v)] ⟨size main + 18, t⟩ := by
  obtain ⟨v, hv⟩ := storeRun_mov hcode hx s
  have hd : decode (code.drop (size main + 10)) = some (.store r12 (d3 ++ d2 ++ d1 ++ d0) rax, 8) := by
    rw [hcode, size, List.drop_length_add_append]
    exact decode_store_r12 d0 d1 d2 d3
  exact ⟨v, _, hv.trans (StoreRun.single (c := ⟨size main + 10, s.setReg rax v⟩) rfl hx' hd)⟩

variable {m : Mem} {block : BlockInfo} {slot : ℤ} {target_addr : Word} {ft : Word}
  (hmain : ∀ i ∈ main, i.straight = true)
  (hbytes : slot_bytes m block = encodeAll (main ++ blockRet ft))

include hbytes in
theorem slot_size_eq : block.host_code_size.toNat = size main + 19 := by
  rw [← slot_bytes_length m, hbytes, encodeAll_append, List.length_append]
  rfl

include hbytes in
theorem chain_offset_return (h : slot = 0 ∨ slot = 1) :
    (chain_offset block slot).toNat = size main + if slot = 1 then 14 else 9 := by
  have hsize := slot_size_eq hbytes
  rw [chain_offset_toNat h (by omega)]
  split_ifs <;> omega

include hbytes in
/-- The bytes from the body on: the return, with the jump in it from its byte `n` on. -/
theorem patched_return_bytes (h : slot = 0 ∨ slot = 1) {n : ℕ}
    (hoff : (chain_offset block slot).toNat = size main + n) (tail : List Byte) :
    slot_bytes (patched m block slot target_addr) block ++ tail = encodeAll main ++
      ((encodeAll (blockRet ft)).take n ++ encodeInsn (.jmp (chain_rel block slot target_addr)) ++
        (encodeAll (blockRet ft)).drop (n + 5) ++ tail) := by
  have hsize := slot_size_eq hbytes
  have htake : (encodeAll main ++ encodeAll (blockRet ft)).take (size main + n) =
      encodeAll main ++ (encodeAll (blockRet ft)).take n := List.take_length_add_append n
  have hdrop : (encodeAll main ++ encodeAll (blockRet ft)).drop (size main + (n + 5)) =
      (encodeAll (blockRet ft)).drop (n + 5) := List.drop_length_add_append (n + 5)
  rw [patched_bytes h (by omega), hbytes, hoff, encodeAll_append, htake, Nat.add_assoc, hdrop]
  simp only [List.append_assoc]

/-- The stores of the complete block from a state: those of its body, then the one to `ctx.pc`. -/
theorem storeRun_complete (hmain : ∀ i ∈ main, i.straight = true) (ft : Word) (s : State) :
    ∃ k v, (∀ {code rest : List Byte} {exits : Set ℕ}, code = encodeAll main ++ rest →
        (∀ o ∈ exits, size main ≤ o) → StoreRun code exits ⟨0, s⟩ k ⟨size main, execAll main s⟩) ∧
      ∃ c, StoreRun (encodeAll (main ++ blockRet ft)) ∅ ⟨0, s⟩
        (k ++ [((execAll main s).reg r12 + (0x00#8 ++ 0x00#8 ++ 0x01#8 ++ 0x00#8).signExtend 64, v)]) c ∧
        AtRet (encodeAll (main ++ blockRet ft)) c := by
  have hrun := steps_list hmain [] [] s
  rw [List.nil_append, List.append_nil] at hrun
  obtain ⟨k, hk⟩ := exists_storeRun hrun
  obtain ⟨b0, b1, b2, b3, b4, b5, b6, b7, hret⟩ := blockRet_bytes ft
  have hcode : encodeAll (main ++ blockRet ft) = encodeAll main ++ _ := encodeAll_append _ _
  rw [hret] at hcode
  obtain ⟨v, t, ht⟩ := storeRun_mov_store hcode (Set.notMem_empty _) (Set.notMem_empty _)
    (execAll main s)
  have hk' : ∀ {code rest : List Byte} {exits : Set ℕ}, code = encodeAll main ++ rest →
      (∀ o ∈ exits, size main ≤ o) →
        StoreRun code exits ⟨0, s⟩ k ⟨size main, execAll main s⟩ := by
    rintro code rest exits rfl hx
    exact hk rest exits hx
  have hfirst := hk' hcode fun o h => absurd h (Set.notMem_empty o)
  refine ⟨k, v, hk', _, hfirst.trans ht, ?_⟩
  unfold AtRet
  rw [hcode, size, List.drop_length_add_append]
  rfl

include hmain

/-- Code that starts with the body of the block keeps the stores only if it stores once more. -/
theorem KeepsStores.store_at {code rest : List Byte} {o : ℕ}
    (hkeep : KeepsStores (encodeAll (main ++ blockRet ft)) code {o}) (ho : size main ≤ o)
    (hcode : code = encodeAll main ++ rest) :
    ∃ v d, StoreRun code {o} ⟨size main, execAll main .cleared⟩
      [((execAll main .cleared).reg r12 + (0x00#8 ++ 0x00#8 ++ 0x01#8 ++ 0x00#8).signExtend 64, v)] d ∧
      Stops code {o} d := by
  obtain ⟨k, v, hk, c, hrun, hat⟩ := storeRun_complete hmain ft .cleared
  obtain ⟨l, c', d, hrun', hat', hd, hleave⟩ := hkeep .cleared
  obtain rfl := hrun'.unique (.of_atRet hat') hrun (.of_atRet hat)
  have hbefore : ∀ o' ∈ ({o} : Set ℕ), size main ≤ o' := by
    intro o' ho'
    rwa [Set.mem_singleton_iff.mp ho']
  have hstops : Stops code {o} d := hleave.elim .inl .of_atRet
  obtain ⟨r, hr, hrest⟩ := (hk hcode hbefore).rest hd hstops
  obtain rfl := List.append_cancel_left hr
  exact ⟨v, d, hrest, hstops⟩

include hbytes

/-- **Slot 1** lies on the displacement of the store to `ctx.pc` and the `ret`. -/
theorem not_keepsStores_one (tail : List Byte) :
    ¬ KeepsStores (encodeAll (main ++ blockRet ft))
      (slot_bytes (patched m block 1 target_addr) block ++ tail) {(chain_offset block 1).toNat} := by
  intro hkeep
  have hoff := chain_offset_return hbytes (.inr rfl)
  have hcode := @patched_return_bytes _ _ _ _ target_addr _ hbytes (.inr rfl) _ hoff tail
  obtain ⟨b0, b1, b2, b3, b4, b5, b6, b7, hret⟩ := blockRet_bytes ft
  rw [hret] at hcode
  rw [hoff] at hkeep
  have hx : ∀ n, n < 14 → size main + n ∉ ({size main + 14} : Set ℕ) := by
    intro n hn h
    have := Set.mem_singleton_iff.mp h
    omega
  obtain ⟨v, d, hd, hstops⟩ := hkeep.store_at hmain (Nat.le_add_right _ _) hcode
  obtain ⟨w, t, ht⟩ := storeRun_mov_store hcode (hx 0 (by decide)) (hx 10 (by decide))
    (execAll main .cleared)
  obtain ⟨r, hr, -⟩ := ht.rest hd hstops
  have haddr := congrArg Prod.fst (List.cons.inj hr).1
  -- the displacement has the opcode of the jump as its lowest byte
  have hbit := congrArg (·.getLsbD 0) ((BitVec.add_right_inj _).mp haddr)
  rw [displacement_low_bit, displacement_low_bit] at hbit
  cases hbit

/-- **Slot 0** lies on the last byte of the move and the first ones of the store, and a displacement
that starts with `C3` is a `ret` there. -/
theorem not_keepsStores_zero (hrel : byteAt (chain_rel block 0 target_addr) 0 = 0xC3#8)
    (tail : List Byte) :
    ¬ KeepsStores (encodeAll (main ++ blockRet ft))
      (slot_bytes (patched m block 0 target_addr) block ++ tail) {(chain_offset block 0).toNat} := by
  intro hkeep
  have hoff := chain_offset_return hbytes (.inl rfl)
  have hcode := @patched_return_bytes _ _ _ _ target_addr _ hbytes (.inl rfl) _ hoff tail
  obtain ⟨b0, b1, b2, b3, b4, b5, b6, b7, hret⟩ := blockRet_bytes ft
  rw [hret, encodeInsn, le32, hrel] at hcode
  rw [hoff] at hkeep
  have hx : size main ∉ ({size main + 9} : Set ℕ) := by
    intro h
    have := Set.mem_singleton_iff.mp h
    omega
  obtain ⟨v, d, hd, hstops⟩ := hkeep.store_at hmain (Nat.le_add_right _ _) hcode
  obtain ⟨w, hw⟩ := storeRun_mov hcode hx (execAll main .cleared)
  have hat : AtRet (slot_bytes (patched m block 0 target_addr) block ++ tail)
      ⟨size main + 10, (execAll main .cleared).setReg rax w⟩ := by
    unfold AtRet
    rw [hcode, size, List.drop_length_add_append]
    rfl
  have hnil := hw.unique (.of_atRet hat) hd hstops
  cases hnil

end Return

/-! ## Blocks of a run -/

section Translated

variable {capacity : ℕ} {pool : Word} {es : List (TranslationCache × Use)} {t : TranslationCache}
  {mem : MemoryManager} {pc : Word} {block : BlockInfo} {m : Mem} {slot : ℤ}

theorem pool_of_runs (hpool : Mapped pool) (h : UseRuns capacity pool es t) : Pool pool 0 t := by
  have ha := runs_accounts hpool h
  refine ⟨ha.pool, ha.size, Nat.zero_le _, ?_⟩
  rw [ha.used]
  calc slot_size * min (translations es) pool_slots
      ≤ slot_size * pool_slots := Nat.mul_le_mul_left _ (Nat.min_le_right _ _)
    _ = DEFAULT_CODE_POOL_SIZE := rfl

/-- The slot of a block lies in the pool. -/
theorem host_code_in_pool (hpool : Mapped pool) (h : UseRuns capacity pool es t)
    (hb : (translate_block t mem pc).block = some block) :
    ∃ p, block.host_code = off pool p ∧ p + slot_size ≤ DEFAULT_CODE_POOL_SIZE := by
  cases translate_block_takes (pool_of_runs hpool h) mem pc with
  | refused hnone => exact absurd (hnone.symm.trans hb) nofun
  | slot hsome _ hcode hin =>
    obtain rfl := Option.some.inj (hsome.symm.trans hb)
    exact ⟨_, hcode, hin⟩

theorem host_code_size_eq (hb : (translate_block t mem pc).block = some block) :
    block.host_code_size.toNat = min slot_size (code_bytes (collect mem max_instr pc)) := by
  have hslot : slot_size ≤ 2 ^ 64 := by decide
  obtain ⟨ir_block, hbuild, hnull, hbytes⟩ := translated_bytes hb
  have hlen := (lower_code collect_wellDecoded hbuild hnull mem.host hslot).2.1
  rw [← hbytes, slot_bytes_length, size_blockInstrs collect_wellDecoded collect_endsLast pc] at hlen
  exact hlen

/-- The code of a block that fits its slot. -/
theorem complete_bytes (hb : (translate_block t mem pc).block = some block)
    (hle : code_bytes (collect mem max_instr pc) ≤ slot_size) :
    slot_bytes (translate_block t mem pc).mem.host block =
      encodeAll (blockInstrs (collect mem max_instr pc) pc) := by
  have hslot : slot_size ≤ 2 ^ 64 := by decide
  rw [← size_blockInstrs collect_wellDecoded collect_endsLast pc] at hle
  obtain ⟨ir_block, hbuild, hnull, hbytes⟩ := translated_bytes hb
  rw [hbytes]
  exact (lower_code collect_wellDecoded hbuild hnull mem.host hslot).2.2 hle

/-- The live code is in the slot if it fits, also where the rest is cut off. -/
theorem live_bytes_slot (hb : (translate_block t mem pc).block = some block)
    (hle : live_bytes (collect mem max_instr pc) ≤ slot_size) :
    ∃ front dead rest, blockInstrs (collect mem max_instr pc) pc = front ++ .ret :: dead ∧
      LiveFront front ∧ size front + 1 = live_bytes (collect mem max_instr pc) ∧
      slot_bytes (translate_block t mem pc).mem.host block =
        encodeAll (front ++ [.ret]) ++ rest := by
  have hds := @collect_wellDecoded mem max_instr pc
  obtain ⟨front, dead, hinstrs, hlive, hsize, hfront⟩ := exists_front hds collect_endsLast pc
  by_cases hx : exits (collect mem max_instr pc)
  · obtain ⟨ir_block, hbuild, hnull, hbytes⟩ := translated_bytes hb
    have ho := optimized_blockIr hbuild
    have hl : ∀ ir ∈ (optimize ir_block).instructions, Lowerable ir := by
      intro ir hir
      rw [ho] at hir
      exact blockIr_lowerable hds ir hir
    have hslot : slot_size ≤ 2 ^ 64 := by decide
    have hroom : size (front ++ [.ret]) ≤ slot_size := by
      rw [size_append]
      exact hsize ▸ hle
    rw [hfront hx, ← ho] at hroom
    obtain ⟨rest, hrest⟩ := lower_block_front
      (e := .set_buffer block.host_code slot_size mem.host) hl
      (fallthrough (collect mem max_instr pc) pc) hnull hslot
      ((Nat.zero_add _).symm ▸ hroom)
    refine ⟨front, dead, rest, hinstrs, hlive, hsize, ?_⟩
    rw [hbytes, hrest, hfront hx, ho]
    rfl
  · rw [live_bytes, if_neg hx] at hle
    refine ⟨front, dead, encodeAll dead, hinstrs, hlive, hsize, ?_⟩
    rw [complete_bytes hb hle, hinstrs, ← encodeAll_append, List.append_assoc]
    rfl

theorem code_bytes_ge (ds : List DecodedInstr) : 22 ≤ code_bytes ds := by
  unfold code_bytes
  omega

theorem host_code_size_ge (hb : (translate_block t mem pc).block = some block) :
    10 ≤ block.host_code_size.toNat := by
  have hten : 10 ≤ slot_size := by decide
  rw [host_code_size_eq hb]
  exact Nat.le_min.mpr ⟨hten, Nat.le_trans (by decide) (code_bytes_ge _)⟩

theorem slotClear_of_exits {ds : List DecodedInstr} (hle : code_bytes ds ≤ slot_size) :
    SlotClear ds slot ↔ exits ds := by
  rw [SlotClear, live_bytes, Nat.min_eq_right hle]
  by_cases hx : exits ds
  · refine iff_of_true ?_ hx
    rw [if_pos hx, code_bytes]
    split_ifs <;> omega
  · refine iff_of_false ?_ hx
    rw [if_neg hx]
    split_ifs <;> omega

section Patched

variable (hpool : Mapped pool) (hrun : UseRuns capacity pool es t)
  (hb : (translate_block t mem pc).block = some block)
  (hm : slot_bytes m block = slot_bytes (translate_block t mem pc).mem.host block)
  (h : slot = 0 ∨ slot = 1)

include hb h

theorem slotClear_iff_offset :
    SlotClear (collect mem max_instr pc) slot ↔
      live_bytes (collect mem max_instr pc) ≤ (chain_offset block slot).toNat + 1 := by
  have hge := host_code_size_ge hb
  rw [SlotClear, ← host_code_size_eq hb, chain_offset_toNat h hge]
  split_ifs <;> omega

include hpool hrun

/-- The slot lies in the pool, and its jump goes to the target. -/
theorem exists_slot_ptr : ∃ o < DEFAULT_CODE_POOL_SIZE, slot_ptr block slot = off pool o := by
  have hge := host_code_size_ge hb
  have hle : block.host_code_size.toNat ≤ slot_size := by
    rw [host_code_size_eq hb]
    exact Nat.min_le_left _ _
  obtain ⟨p, hp, hin⟩ := host_code_in_pool hpool hrun hb
  refine ⟨p + (chain_offset block slot).toNat, ?_, ?_⟩
  · rw [chain_offset_toNat h hge]
    split_ifs <;> omega
  · rw [slot_ptr, hp, ← off_toNat, off_off]

include hm

/-- Live code before the slot is left as it is. -/
theorem chains_of_slotClear (hclear : SlotClear (collect mem max_instr pc) slot) (tail : List Byte)
    {k : ℕ} (hk : k < DEFAULT_CODE_POOL_SIZE) :
    Chains (encodeAll (blockInstrs (collect mem max_instr pc) pc)) m block slot (off pool k) tail := by
  have hge := host_code_size_ge hb
  have hlive : live_bytes (collect mem max_instr pc) ≤ slot_size :=
    Nat.le_trans (Nat.le_add_right _ _) (Nat.le_trans hclear (Nat.min_le_left _ _))
  obtain ⟨o, ho, hptr⟩ := exists_slot_ptr hpool hrun hb h
  rw [slotClear_iff_offset hb h] at hclear
  obtain ⟨front, dead, rest, hinstrs, hfront, hlast, hbytes⟩ := live_bytes_slot hb hlive
  refine ⟨?_, jumps_of_size h hge hptr ho hk⟩
  rw [hinstrs]
  exact keepsStores_of_live h hge hfront (hm.trans hbytes) (by omega) tail

/-- A complete block that does not return of its own does not survive the patch. -/
theorem exits_of_chains (hle : code_bytes (collect mem max_instr pc) ≤ slot_size) (tail : List Byte)
    (hchains : ∀ k < DEFAULT_CODE_POOL_SIZE,
      Chains (encodeAll (blockInstrs (collect mem max_instr pc) pc)) m block slot (off pool k) tail) :
    exits (collect mem max_instr pc) := by
  by_contra hx
  obtain ⟨main, hmain, hs⟩ := @blockInstrs_straight _ pc collect_wellDecoded collect_endsLast hx
  have hbytes := hm.trans (complete_bytes hb hle)
  rw [hmain] at hbytes hchains
  rcases h with rfl | rfl
  · obtain ⟨o, -, hptr⟩ := exists_slot_ptr hpool hrun hb (.inl rfl)
    obtain ⟨k, hk, hrel⟩ := exists_ret_target hptr
    exact not_keepsStores_zero hs hbytes hrel tail (hchains k hk).keeps
  · have hpos : 0 < DEFAULT_CODE_POOL_SIZE := by decide
    exact not_keepsStores_one hs hbytes tail (hchains 0 hpos).keeps

/-- **Chaining**: a block whose live code ends before the slot keeps all its stores behind the patch,
whatever the target.  Among the complete blocks those are the ones that end in a branch, and no other
survives. -/
theorem chains_iff (tail : List Byte) :
    (SlotClear (collect mem max_instr pc) slot → ∀ k < DEFAULT_CODE_POOL_SIZE,
      Chains (encodeAll (blockInstrs (collect mem max_instr pc) pc)) m block slot (off pool k) tail) ∧
    (code_bytes (collect mem max_instr pc) ≤ slot_size →
      ((∀ k < DEFAULT_CODE_POOL_SIZE,
        Chains (encodeAll (blockInstrs (collect mem max_instr pc) pc)) m block slot (off pool k) tail) ↔
          SlotClear (collect mem max_instr pc) slot) ∧
      (SlotClear (collect mem max_instr pc) slot ↔ exits (collect mem max_instr pc))) := by
  have hclear := fun hc k hk => chains_of_slotClear hpool hrun hb hm h hc tail (k := k) hk
  refine ⟨hclear, fun hle => ?_⟩
  have hiff := @slotClear_of_exits slot _ hle
  exact ⟨⟨fun hc => hiff.mpr (exits_of_chains hpool hrun hb hm h hle tail hc), hclear⟩, hiff⟩

end Patched

/-- Guest memory full of `ret`. -/
def rets : MemoryManager where
  regions_ := []
  translated_pages_ := []
  host a := [0xC0#8, 0x03#8, 0x5F#8, 0xD6#8].getD (a.toNat % 4) 0x00#8

/-- A block that is a `ret`. -/
theorem chains_iff_rets :
    ∃ block, (translate_block (.init 16 0x10000#64) rets 0x1000#64).block = some block ∧
      ∀ k < DEFAULT_CODE_POOL_SIZE,
        Chains (encodeAll (blockInstrs (collect rets max_instr 0x1000#64) 0x1000#64))
          (translate_block (.init 16 0x10000#64) rets 0x1000#64).mem.host block 0
          (off 0x10000#64 k) [] := by
  have hds : collect rets max_instr 0x1000#64 ≠ [] := by decide +kernel
  have hnull : ((TranslationCache.init 16 0x10000#64).alloc_host_code slot_size).1 ≠ 0#64 := by decide
  have hclear : SlotClear (collect rets max_instr 0x1000#64) 0 := by
    unfold SlotClear
    decide +kernel
  obtain ⟨block, hb⟩ := exists_block hds hnull
  exact ⟨block, hb, (chains_iff mapped_pool (useRuns_init 16 _) hb rfl (.inl rfl) []).1 hclear⟩

/-- A block of `nop`s whose slot 1 gets a jump to the start of the pool: the last store goes to another
address, and there is no `ret` any more. -/
theorem not_chains_nops :
    ∃ block, (translate_block (.init 16 0x10000#64) nops 0x1000#64).block = some block ∧
      ¬ Chains (encodeAll (blockInstrs (collect nops max_instr 0x1000#64) 0x1000#64))
        (translate_block (.init 16 0x10000#64) nops 0x1000#64).mem.host block 1 0x10000#64 [] := by
  have hnull : ((TranslationCache.init 16 0x10000#64).alloc_host_code slot_size).1 ≠ 0#64 := by decide
  have hle : code_bytes (collect nops max_instr 0x1000#64) ≤ slot_size := by decide +kernel
  have hx : ¬ exits (collect nops max_instr 0x1000#64) := by decide +kernel
  obtain ⟨block, hb⟩ := exists_block collect_nops hnull
  obtain ⟨main, hmain, hs⟩ := @blockInstrs_straight _ 0x1000#64 collect_wellDecoded collect_endsLast hx
  have hbytes := complete_bytes hb hle
  rw [hmain] at hbytes
  refine ⟨block, hb, fun hc => ?_⟩
  rw [hmain] at hc
  exact not_keepsStores_one hs hbytes [] hc.keeps

end Translated

end ExecEngine

end Bbarm64
