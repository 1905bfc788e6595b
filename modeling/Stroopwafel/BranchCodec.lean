import Stroopwafel.ArmExec
import Stroopwafel.TrampolinePool

set_option autoImplicit false

/- The branch decoders of the trampolines agree with what the machine executes. -/
namespace Stroopwafel.Trampoline

open Memory Arm

theorem low_bits (w : Word) (n : Nat) (bound : n ≤ 32) :
    (w &&& BitVec.ofNat 32 (2 ^ n - 1)).toNat = w.toNat % 2 ^ n := by
  have power : 2 ^ n ≤ 2 ^ 32 := Nat.pow_le_pow_right (by decide) bound
  have positive : 0 < 2 ^ n := Nat.two_pow_pos n
  rw [BitVec.toNat_and, BitVec.toNat_ofNat, Nat.mod_eq_of_lt (by omega)]
  exact Nat.and_two_pow_sub_one_eq_mod w.toNat n

/-- The upper byte, by mask and by shift. -/
theorem top_byte_iff (w : Word) (t : Nat) (bound : t < 256) :
    w >>> 24 = BitVec.ofNat 32 t ↔ w &&& 0xFF000000#32 = BitVec.ofNat 32 (t * 2 ^ 24) := by
  have low : (w &&& 0xFFFFFF#32).toNat = w.toNat % 2 ^ 24 := low_bits w 24 (by decide)
  have cleared : w &&& 0xFF000000#32 = w - (w &&& 0xFFFFFF#32) := clear_bits w 0xFFFFFF#32
  have shifted : (w >>> 24).toNat = w.toNat / 2 ^ 24 := by
    rw [BitVec.toNat_ushiftRight, Nat.shiftRight_eq_div_pow]
  have range := w.isLt
  constructor
  · intro same
    have value := congrArg BitVec.toNat same
    rw [shifted, BitVec.toNat_ofNat] at value
    apply BitVec.eq_of_toNat_eq
    rw [cleared, BitVec.toNat_sub, low, BitVec.toNat_ofNat]
    omega
  · intro same
    have value := congrArg BitVec.toNat same
    rw [cleared, BitVec.toNat_sub, low, BitVec.toNat_ofNat] at value
    apply BitVec.eq_of_toNat_eq
    rw [shifted, BitVec.toNat_ofNat]
    omega

/-- A word with another value under a part of the mask has another value under it. -/
theorem mask_other {n : Nat} {w top code mask v : BitVec n} (known : w &&& top = code)
    (full : mask &&& top = top) (distinct : v &&& top ≠ code) : ¬ w &&& mask = v := by
  rintro rfl
  rw [BitVec.and_assoc, full] at distinct
  exact distinct known

theorem ite_rest {α : Type} {p : Prop} [Decidable p] {a b x : α} (h : (if p then a else b) = x)
    (distinct : a ≠ x) : b = x := by
  by_cases holds : p
  · rw [if_pos holds] at h
    exact absurd h distinct
  · rwa [if_neg holds] at h

theorem mask_within {n : Nat} {w top code mask : BitVec n} (known : w &&& top = code)
    (inside : top &&& mask = mask) : w &&& mask = code &&& mask := by
  rw [← known, BitVec.and_assoc, inside]

/-- The instructions in front of the branches have other upper bytes. -/
theorem decodeArm_branch (w : Word) (top : w &&& 0xFE000000#32 = 0xEA000000#32) :
    decodeArm w =
      if w &&& 0xFF000000#32 = 0xEA000000#32 then some (.b (branchOffset w))
      else if w &&& 0xFF000000#32 = 0xEB000000#32 then some (.bl (branchOffset w))
      else none := by
  have word : ¬ w = 0xE52DE004#32 := by
    rintro rfl
    exact absurd top (by decide)
  have other {mask value : Word} (inside : mask &&& 0xFE000000#32 = 0xFE000000#32)
      (differs : value &&& 0xFE000000#32 ≠ 0xEA000000#32) : ¬ w &&& mask = value :=
    mask_other top inside differs
  simp (disch := decide) only [decodeArm, word, other, false_and, if_false]

theorem decodeArm_bl_iff (w offset : Word) :
    decodeArm w = some (.bl offset) ↔
      w &&& 0xFF000000#32 = 0xEB000000#32 ∧ offset = branchOffset w := by
  constructor
  · intro decoded
    unfold decodeArm at decoded
    iterate 11 replace decoded := ite_rest decoded (by simp)
    by_cases top : w &&& 0xFF000000#32 = 0xEB000000#32
    · rw [if_pos top] at decoded
      rw [Option.some.injEq, Insn.bl.injEq] at decoded
      exact ⟨top, decoded.symm⟩
    · rw [if_neg top] at decoded
      cases decoded
  · rintro ⟨top, rfl⟩
    rw [decodeArm_branch w (mask_within top rfl), if_neg (by simp [top]), if_pos top]

theorem decodeArm_b_iff (w offset : Word) :
    decodeArm w = some (.b offset) ↔
      w &&& 0xFF000000#32 = 0xEA000000#32 ∧ offset = branchOffset w := by
  constructor
  · intro decoded
    unfold decodeArm at decoded
    iterate 10 replace decoded := ite_rest decoded (by simp)
    by_cases top : w &&& 0xFF000000#32 = 0xEA000000#32
    · rw [if_pos top] at decoded
      rw [Option.some.injEq, Insn.b.injEq] at decoded
      exact ⟨top, decoded.symm⟩
    · rw [if_neg top] at decoded
      exact absurd (ite_rest decoded (by simp)) (by simp)
  · rintro ⟨top, rfl⟩
    rw [decodeArm_branch w (mask_within top rfl), if_pos top]

theorem xor_of_disjoint (x m : Word) (disjoint : x &&& m = 0#32) : x ^^^ m = x + m := by
  rw [BitVec.add_eq_or_of_and_eq_zero _ _ disjoint]
  ext i hi
  have bit := congrArg (fun w => w.getLsbD i) disjoint
  simp only [BitVec.getLsbD_eq_getElem hi, BitVec.getElem_and, BitVec.getElem_zero] at bit
  simp only [BitVec.getElem_xor, BitVec.getElem_or]
  revert bit
  cases x[i] <;> cases m[i] <;> simp

/-- Flipping a bit adds or subtracts its value. -/
theorem xor_twoPow (x : Word) (k : Nat) :
    x ^^^ BitVec.twoPow 32 k =
      if x.getLsbD k then x - BitVec.twoPow 32 k else x + BitVec.twoPow 32 k := by
  have masked := BitVec.and_twoPow x k
  by_cases bit : x.getLsbD k = true
  · rw [if_pos bit] at masked ⊢
    have disjoint : (x ^^^ BitVec.twoPow 32 k) &&& BitVec.twoPow 32 k = 0#32 := by
      rw [BitVec.and_twoPow, BitVec.getLsbD_xor, bit]
      by_cases inside : k < 32
      · simp [inside]
      · exact absurd bit (by simp [BitVec.getLsbD_of_ge x k (by omega)])
    have joined := xor_of_disjoint _ _ disjoint
    rw [BitVec.xor_assoc, BitVec.xor_self, BitVec.xor_zero] at joined
    exact BitVec.eq_sub_iff_add_eq.mpr joined.symm
  · rw [if_neg bit] at masked ⊢
    exact xor_of_disjoint _ _ masked

theorem signed_toNat (w : Word) : ((w.extractLsb' 0 24).signExtend 32 <<< 2).toNat =
    if 2 ^ 23 ≤ w.toNat % 2 ^ 24 then 4 * (w.toNat % 2 ^ 24) + 2 ^ 32 - 2 ^ 26
    else 4 * (w.toNat % 2 ^ 24) := by
  rw [BitVec.toNat_shiftLeft, BitVec.toNat_signExtend, BitVec.toNat_setWidth,
    BitVec.extractLsb'_toNat, BitVec.msb_eq_decide, BitVec.extractLsb'_toNat, Nat.shiftLeft_eq]
  simp only [Nat.shiftRight_zero, decide_eq_true_eq]
  split <;> omega

/-- The sign extension by exclusive or and subtraction. -/
theorem signed_offset (w : Word) :
    (((w &&& 0xFFFFFF#32) <<< 2) ^^^ (1#32 <<< 25)) - (1#32 <<< 25) =
      (w.extractLsb' 0 24).signExtend 32 <<< 2 := by
  have low : (w &&& 0xFFFFFF#32).toNat = w.toNat % 2 ^ 24 := low_bits w 24 (by decide)
  generalize hx : (w &&& 0xFFFFFF#32) <<< 2 = x
  have value : x.toNat = 4 * (w.toNat % 2 ^ 24) := by
    rw [← hx, BitVec.toNat_shiftLeft, low, Nat.shiftLeft_eq]
    omega
  have bit : x.getLsbD 25 = decide (2 ^ 23 ≤ w.toNat % 2 ^ 24) := by
    rw [BitVec.getLsbD, value, Nat.testBit_eq_decide_div_mod_eq]
    apply decide_eq_decide.mpr
    omega
  have flipped : x ^^^ (1#32 <<< 25) =
      if x.getLsbD 25 then x - (1#32 <<< 25) else x + (1#32 <<< 25) := xor_twoPow x 25
  have power : (1#32 <<< 25).toNat = 2 ^ 25 := rfl
  generalize 1#32 <<< 25 = m at flipped power ⊢
  apply BitVec.eq_of_toNat_eq
  rw [signed_toNat, flipped, bit]
  by_cases negative : 2 ^ 23 ≤ w.toNat % 2 ^ 24
  · rw [if_pos (decide_eq_true negative), if_pos negative, BitVec.toNat_sub, BitVec.toNat_sub,
      power, value]
    omega
  · rw [if_neg (by simpa using negative), if_neg negative, BitVec.add_sub_cancel, value]

theorem extractTarget_eq (addr w : Word) : extractTarget addr w = addr + branchOffset w := by
  simp only [extractTarget, branchOffset, signed_offset, BitVec.add_assoc]

theorem blTarget_eq (addr ins offset : Word) (decoded : decodeArm ins = some (.bl offset)) :
    blTarget addr ins = addr + offset := by
  obtain ⟨top, rfl⟩ := (decodeArm_bl_iff ins offset).mp decoded
  have byte : ins >>> 24 = 0xEB#32 := (top_byte_iff ins 0xEB (by decide)).mpr top
  rw [blTarget, if_neg (by simp [byte]), extractTarget_eq]

theorem blTarget_other (addr ins : Word) (other : ins &&& 0xFF000000#32 ≠ 0xEB000000#32) :
    blTarget addr ins = 0#32 := by
  have byte : ins >>> 24 ≠ 0xEB#32 := fun same =>
    other ((top_byte_iff ins 0xEB (by decide)).mp same)
  rw [blTarget, if_pos byte]

theorem bTarget_eq (addr ins offset : Word) (decoded : decodeArm ins = some (.b offset)) :
    bTarget addr ins = addr + offset := by
  obtain ⟨top, rfl⟩ := (decodeArm_b_iff ins offset).mp decoded
  have byte : ins >>> 24 = 0xEA#32 := (top_byte_iff ins 0xEA (by decide)).mpr top
  rw [bTarget, if_neg (by simp [byte]), extractTarget_eq]

theorem bTarget_other (addr ins : Word) (other : ins &&& 0xFF000000#32 ≠ 0xEA000000#32) :
    bTarget addr ins = 0#32 := by
  have byte : ins >>> 24 ≠ 0xEA#32 := fun same =>
    other ((top_byte_iff ins 0xEA (by decide)).mp same)
  rw [bTarget, if_pos byte]

/-- `dst` can be reached by an ARM branch at `addr`. -/
def Reaches (addr dst : Word) : Prop :=
  (dst - addr).toNat % 4 = 0 ∧ -2 ^ 25 ≤ (dst - addr - 8#32).toInt ∧
    (dst - addr - 8#32).toInt < 2 ^ 25

instance (addr dst : Word) : Decidable (Reaches addr dst) := inferInstanceAs (Decidable (_ ∧ _))

/-- The word offset an ARM branch is given survives its 24 bits. -/
theorem branchOffset_word (addr dst top : Word) (reaches : Reaches addr dst)
    (clear : top &&& 0xFFFFFF#32 = 0#32) :
    branchOffset (top ||| ((dst - addr - 8#32).sdiv 4#32 &&& 0xFFFFFF#32)) = dst - addr := by
  obtain ⟨multiple, lower, upper⟩ := reaches
  generalize hx : dst - addr - 8#32 = x at *
  have distance : dst - addr = x + 8#32 := by rw [← hx, BitVec.sub_add_cancel]
  rw [distance] at multiple ⊢
  have value := BitVec.toInt_eq_toNat_cond x
  have range := x.isLt
  rw [BitVec.toNat_add, show (8#32).toNat = 8 from rfl] at multiple
  obtain ⟨q, quotient⟩ : ∃ q, x.toInt = 4 * q := ⟨x.toInt / 4, by omega⟩
  have divided : (x.sdiv 4#32).toInt = q := by
    rw [BitVec.toInt_sdiv_of_ne_or_ne x 4#32 (Or.inr (by decide)), quotient]
    exact Int.mul_tdiv_cancel_left q (by decide)
  have dividedValue := BitVec.toInt_eq_toNat_cond (x.sdiv 4#32)
  generalize x.sdiv 4#32 = d at divided dividedValue ⊢
  have dividedRange := d.isLt
  have low : (top ||| (d &&& 0xFFFFFF#32)).toNat % 2 ^ 24 = d.toNat % 2 ^ 24 := by
    have bits : (top ||| (d &&& 0xFFFFFF#32)) &&& 0xFFFFFF#32 = d &&& 0xFFFFFF#32 := by
      rw [BitVec.and_or_distrib_right, clear, BitVec.zero_or, BitVec.and_assoc, BitVec.and_self]
    rw [← low_bits _ 24 (by decide), ← low_bits d 24 (by decide)]
    exact congrArg BitVec.toNat bits
  rw [branchOffset]
  congr 1
  apply BitVec.eq_of_toNat_eq
  rw [signed_toNat, low]
  split <;> omega

theorem top_of_or (top x : Word) (clear : top &&& 0xFF000000#32 = top) :
    (top ||| (x &&& 0xFFFFFF#32)) &&& 0xFF000000#32 = top := by
  rw [BitVec.and_or_distrib_right, clear, BitVec.and_assoc,
    show (0xFFFFFF#32 &&& 0xFF000000#32 : Word) = 0#32 by decide, BitVec.and_zero, BitVec.or_zero]

theorem Link.bl_decodes (addr dst : Word) (reaches : Reaches addr dst) :
    decodeArm (Link.bl.word addr dst) = some (.bl (dst - addr)) := by
  rw [decodeArm_bl_iff]
  exact ⟨top_of_or _ _ (by decide), (branchOffset_word addr dst _ reaches (by decide)).symm⟩

theorem Link.b_decodes (addr dst : Word) (reaches : Reaches addr dst) :
    decodeArm (Link.b.word addr dst) = some (.b (dst - addr)) := by
  rw [decodeArm_b_iff]
  exact ⟨top_of_or _ _ (by decide), (branchOffset_word addr dst _ reaches (by decide)).symm⟩

/-- The upper five bits of a halfword, by mask and by shift. -/
theorem top_bits_iff (h : Half) (t : Nat) (bound : t < 32) :
    h >>> 11 = BitVec.ofNat 16 t ↔ h &&& 0xF800#16 = BitVec.ofNat 16 (t * 2 ^ 11) := by
  have low : (h &&& 0x7FF#16).toNat = h.toNat % 2 ^ 11 := by
    rw [BitVec.toNat_and]
    exact Nat.and_two_pow_sub_one_eq_mod h.toNat 11
  have joined : (h &&& 0xF800#16) + (h &&& 0x7FF#16) = h := by
    rw [BitVec.add_eq_or_of_and_eq_zero _ _ (by
      rw [BitVec.and_assoc, BitVec.and_comm h 0x7FF#16, ← BitVec.and_assoc 0xF800#16,
        show (0xF800#16 &&& 0x7FF#16 : Half) = 0#16 by decide, BitVec.zero_and, BitVec.and_zero]),
      ← BitVec.and_or_distrib_left,
      show (0xF800#16 ||| 0x7FF#16 : Half) = BitVec.allOnes 16 by decide, BitVec.and_allOnes]
  have high : (h &&& 0xF800#16).toNat = h.toNat / 2 ^ 11 * 2 ^ 11 := by
    have value := congrArg BitVec.toNat joined
    rw [BitVec.toNat_add, low] at value
    have range := h.isLt
    have small : (h &&& 0xF800#16).toNat ≤ h.toNat := by
      rw [BitVec.toNat_and]
      exact Nat.and_le_left
    omega
  have shifted : (h >>> 11).toNat = h.toNat / 2 ^ 11 := by
    rw [BitVec.toNat_ushiftRight, Nat.shiftRight_eq_div_pow]
  have range := h.isLt
  constructor
  · intro same
    have value := congrArg BitVec.toNat same
    rw [shifted, BitVec.toNat_ofNat] at value
    apply BitVec.eq_of_toNat_eq
    rw [high, BitVec.toNat_ofNat]
    omega
  · intro same
    have value := congrArg BitVec.toNat same
    rw [high, BitVec.toNat_ofNat] at value
    apply BitVec.eq_of_toNat_eq
    rw [shifted, BitVec.toNat_ofNat]
    omega

theorem decodeThumb_blHigh_iff (h : Half) (offset : Word) :
    decodeThumb h = some (.blHigh offset) ↔
      h &&& 0xF800#16 = 0xF000#16 ∧ offset = (h.extractLsb' 0 11).signExtend 32 <<< 12 := by
  constructor
  · intro decoded
    unfold decodeThumb at decoded
    iterate 9 replace decoded := ite_rest decoded (by simp)
    by_cases top : h &&& 0xF800#16 = 0xF000#16
    · rw [if_pos top] at decoded
      rw [Option.some.injEq, Insn.blHigh.injEq] at decoded
      exact ⟨top, decoded.symm⟩
    · rw [if_neg top] at decoded
      exact absurd (ite_rest decoded (by simp)) (by simp)
  · rintro ⟨top, rfl⟩
    simp only [decodeThumb]
    rw [if_neg (mask_other top (by decide) (by decide)),
      if_neg (mask_other top (by decide) (by decide)),
      if_neg (mask_other top (by decide) (by decide)),
      if_neg (mask_other top (by decide) (by decide)),
      if_neg (mask_other top (by decide) (by decide)),
      if_neg (fun both => mask_other top (by decide) (by decide) both.1),
      if_neg (fun both => mask_other top (by decide) (by decide) both.1),
      if_neg (fun both => mask_other top (by decide) (by decide) both.1),
      if_neg (mask_other top (by decide) (by decide)), if_pos top]

theorem decodeThumb_blLow_iff (h : Half) (offset : Word) :
    decodeThumb h = some (.blLow offset) ↔
      h &&& 0xF800#16 = 0xF800#16 ∧ offset = (h.extractLsb' 0 11).setWidth 32 <<< 1 := by
  constructor
  · intro decoded
    unfold decodeThumb at decoded
    iterate 10 replace decoded := ite_rest decoded (by simp)
    by_cases top : h &&& 0xF800#16 = 0xF800#16
    · rw [if_pos top] at decoded
      rw [Option.some.injEq, Insn.blLow.injEq] at decoded
      exact ⟨top, decoded.symm⟩
    · rw [if_neg top] at decoded
      cases decoded
  · rintro ⟨top, rfl⟩
    simp only [decodeThumb]
    rw [if_neg (mask_other top (by decide) (by decide)),
      if_neg (mask_other top (by decide) (by decide)),
      if_neg (mask_other top (by decide) (by decide)),
      if_neg (mask_other top (by decide) (by decide)),
      if_neg (mask_other top (by decide) (by decide)),
      if_neg (fun both => mask_other top (by decide) (by decide) both.1),
      if_neg (fun both => mask_other top (by decide) (by decide) both.1),
      if_neg (fun both => mask_other top (by decide) (by decide) both.1),
      if_neg (mask_other top (by decide) (by decide)),
      if_neg (mask_other top (by decide) (by decide)), if_pos top]

/-- Both halves of a Thumb `BL` offset, joined at the top of a word and shifted down. -/
theorem thumb_offset (high low : Half) :
    ((high.setWidth 32 <<< 21 : Word) ||| (low &&& 0x7FF#16).setWidth 32 <<< 10).sshiftRight 9 =
      (high.extractLsb' 0 11).signExtend 32 <<< 12 + (low.extractLsb' 0 11).setWidth 32 <<< 1 := by
  have lowBits : (low &&& 0x7FF#16).toNat = low.toNat % 2 ^ 11 := by
    rw [BitVec.toNat_and]
    exact Nat.and_two_pow_sub_one_eq_mod low.toNat 11
  have highValue : (high.setWidth 32 <<< 21 : Word).toNat = high.toNat % 2 ^ 11 * 2 ^ 21 := by
    rw [BitVec.toNat_shiftLeft, BitVec.toNat_setWidth, Nat.shiftLeft_eq]
    have range := high.isLt
    omega
  have lowValue : ((low &&& 0x7FF#16).setWidth 32 <<< 10 : Word).toNat =
      low.toNat % 2 ^ 11 * 2 ^ 10 := by
    rw [BitVec.toNat_shiftLeft, BitVec.toNat_setWidth, lowBits, Nat.shiftLeft_eq]
    omega
  have joined : ((high.setWidth 32 <<< 21 : Word) |||
      (low &&& 0x7FF#16).setWidth 32 <<< 10).toNat =
      high.toNat % 2 ^ 11 * 2 ^ 21 + low.toNat % 2 ^ 11 * 2 ^ 10 := by
    rw [BitVec.toNat_or, highValue, lowValue, Nat.mul_comm _ (2 ^ 21)]
    exact (Nat.two_pow_add_eq_or_of_lt (by omega) _).symm
  generalize (high.setWidth 32 <<< 21 : Word) ||| (low &&& 0x7FF#16).setWidth 32 <<< 10 = x at *
  have range := x.isLt
  apply BitVec.eq_of_toNat_eq
  rw [BitVec.toNat_sshiftRight, BitVec.toNat_add, BitVec.toNat_shiftLeft, BitVec.toNat_shiftLeft,
    BitVec.toNat_signExtend, BitVec.toNat_setWidth, BitVec.toNat_setWidth,
    BitVec.extractLsb'_toNat, BitVec.extractLsb'_toNat, BitVec.msb_eq_decide, BitVec.msb_eq_decide,
    BitVec.extractLsb'_toNat, Nat.shiftLeft_eq, Nat.shiftLeft_eq, Nat.shiftRight_eq_div_pow,
    Nat.shiftRight_eq_div_pow, joined]
  simp only [Nat.shiftRight_zero, decide_eq_true_eq]
  have highBound : high.toNat % 2 ^ 11 < 2048 := Nat.mod_lt _ (by decide)
  have lowBound : low.toNat % 2 ^ 11 < 2048 := Nat.mod_lt _ (by decide)
  generalize high.toNat % 2 ^ 11 = a at *
  generalize low.toNat % 2 ^ 11 = b at *
  simp only [Nat.reducePow, Nat.reduceSub]
  by_cases negative : 1024 ≤ a
  · rw [if_pos (by omega), if_pos (by omega)]
    omega
  · rw [if_neg (by omega), if_neg (by omega)]
    omega

theorem blTTarget_eq (addr ins high low : Word)
    (decodedHigh : decodeThumb (ins.extractLsb' 16 16) = some (.blHigh high))
    (decodedLow : decodeThumb (ins.extractLsb' 0 16) = some (.blLow low)) :
    blTTarget addr ins = (addr + 4#32 + high + low) ||| 1#32 := by
  obtain ⟨topHigh, rfl⟩ := (decodeThumb_blHigh_iff _ _).mp decodedHigh
  obtain ⟨topLow, rfl⟩ := (decodeThumb_blLow_iff _ _).mp decodedLow
  have first := (top_bits_iff (ins.extractLsb' 16 16) 0x1E (by decide)).mpr topHigh
  have second := (top_bits_iff (ins.extractLsb' 0 16) 0x1F (by decide)).mpr topLow
  simp only [blTTarget]
  rw [if_neg (by simp [first, second]), thumb_offset]
  have order : ∀ x y : Word, addr + (x + y) + 4#32 = addr + 4#32 + x + y := by
    intro x y
    rw [← BitVec.add_assoc, BitVec.add_assoc addr 4#32, BitVec.add_comm 4#32, ← BitVec.add_assoc,
      BitVec.add_assoc (addr + x), BitVec.add_assoc (addr + x), BitVec.add_comm 4#32]
  rw [order]

end Stroopwafel.Trampoline
