import Stroopwafel.TrampolineHook

set_option autoImplicit false

namespace Stroopwafel.Trampoline

open Memory Arm IosElf

section ArmCodec

theorem sdiv_exact (x k : Word) (q : Int) (nontrivial : k ≠ -1#32)
    (multiple : x.toInt = k.toInt * q) (nonzero : k.toInt ≠ 0) : (x.sdiv k).toInt = q := by
  rw [BitVec.toInt_sdiv_of_ne_or_ne x k (Or.inr nontrivial), multiple]
  exact Int.mul_tdiv_cancel_left q nonzero

/-- The displacement that a branch at `addr` to `dst` is encoded with. -/
theorem displacement (addr offset : Word) (ahead : Nat) :
    addr + (offset + BitVec.ofNat 32 ahead) - addr - BitVec.ofNat 32 ahead = offset := by
  grind

/-- Encoding a decoded displacement keeps the 24 bits. -/
theorem branchOffset_low (ins : Word) :
    (((ins.extractLsb' 0 24).signExtend 32 <<< 2).sdiv 4#32).toNat % 2 ^ 24 =
      ins.toNat % 2 ^ 24 := by
  have value := signed_toNat ins
  generalize (ins.extractLsb' 0 24).signExtend 32 <<< 2 = x at value ⊢
  have signed := BitVec.toInt_eq_toNat_cond x
  have range := x.isLt
  obtain ⟨q, quotient⟩ : ∃ q : Int, x.toInt = 4 * q := by
    refine ⟨x.toInt / 4, ?_⟩
    split at value <;> omega
  have divided := sdiv_exact x 4#32 q (by decide) quotient (by decide)
  have dividedValue := BitVec.toInt_eq_toNat_cond (x.sdiv 4#32)
  generalize x.sdiv 4#32 = d at divided dividedValue ⊢
  have dividedRange := d.isLt
  split at value <;> omega

theorem join_masks (ins : Word) : (ins &&& 0xFF000000#32) ||| (ins &&& 0xFFFFFF#32) = ins := by
  rw [← BitVec.and_or_distrib_left,
    show (0xFF000000#32 ||| 0xFFFFFF#32 : Word) = BitVec.allOnes 32 by decide, BitVec.and_allOnes]

/-- Encoding the decoded target of a branch gives the branch. -/
theorem encode_extractTarget (addr ins top : Word) (high : ins &&& 0xFF000000#32 = top) :
    top ||| ((extractTarget addr ins - addr - 8#32).sdiv 4#32 &&& 0xFFFFFF#32) = ins := by
  have offset :
      extractTarget addr ins - addr - 8#32 = (ins.extractLsb' 0 24).signExtend 32 <<< 2 := by
    rw [extractTarget_eq, branchOffset]
    exact displacement addr _ 8
  have masked : ∀ w : Word, (w &&& 0xFFFFFF#32).toNat = w.toNat % 2 ^ 24 :=
    fun w => low_bits w 24 (by decide)
  have low : (extractTarget addr ins - addr - 8#32).sdiv 4#32 &&& 0xFFFFFF#32 =
      ins &&& 0xFFFFFF#32 := by
    apply BitVec.eq_of_toNat_eq
    rw [offset, masked, masked]
    exact branchOffset_low ins
  rw [low, ← high]
  exact join_masks ins

theorem distance_multiple (addr dst : Word) (addrAligned : Aligned addr)
    (dstAligned : Aligned dst) :
    (dst - addr).toNat % 4 = 0 := by
  rw [aligned_iff] at addrAligned dstAligned
  rw [BitVec.toNat_sub]
  omega

/-- ARM branches survive being written and read, in both directions. -/
theorem armBranch_roundTrip :
    (∀ (m : Mem) (addr dst : Word), Aligned addr → Aligned dst →
      -2 ^ 25 ≤ (dst - addr - 8#32).toInt → (dst - addr - 8#32).toInt < 2 ^ 25 →
      ∀ m' : Mem,
        (insAt m' addr = read32 (blTrampolineK m addr dst) (iosElfVaddrToPaddr m addr) →
          extractBlTarget m' addr = dst) ∧
        (insAt m' addr = read32 (branchPatchK m addr dst) (iosElfVaddrToPaddr m addr) →
          extractBTarget m' addr = dst)) ∧
    ∀ (m : Mem) (addr : Word),
      (insAt m addr >>> 24 = 0xEB#32 →
        read32 (blTrampolineK m addr (extractBlTarget m addr)) (iosElfVaddrToPaddr m addr) =
          insAt m addr) ∧
      (insAt m addr >>> 24 = 0xEA#32 →
        read32 (branchPatchK m addr (extractBTarget m addr)) (iosElfVaddrToPaddr m addr) =
          insAt m addr) := by
  have written : ∀ (m : Mem) (addr w : Word),
      read32 (patchU32K m addr w) (iosElfVaddrToPaddr m addr) = w := by
    intro m addr w
    rw [patchU32K_eq, read32_write32]
  refine ⟨?_, ?_⟩
  · intro m addr dst addrAligned dstAligned lower upper m'
    have reaches : Reaches addr dst :=
      ⟨distance_multiple addr dst addrAligned dstAligned, lower, upper⟩
    have there : addr + (dst - addr) = dst := by
      rw [BitVec.add_comm, BitVec.sub_add_cancel]
    refine ⟨?_, ?_⟩
    · intro word
      rw [blTrampolineK, written] at word
      rw [extractBlTarget_eq, word]
      exact (blTarget_eq addr _ _ (Link.bl_decodes addr dst reaches)).trans there
    · intro word
      rw [branchPatchK, written] at word
      rw [extractBTarget_eq, word]
      exact (bTarget_eq addr _ _ (Link.b_decodes addr dst reaches)).trans there
  · intro m addr
    refine ⟨?_, ?_⟩
    · intro byte
      have high := (top_byte_iff (insAt m addr) 0xEB (by decide)).mp byte
      rw [blTrampolineK, written, extractBlTarget_eq, blTarget, if_neg (by simp [byte])]
      exact encode_extractTarget addr (insAt m addr) 0xEB000000#32 high
    · intro byte
      have high := (top_byte_iff (insAt m addr) 0xEA (by decide)).mp byte
      rw [branchPatchK, written, extractBTarget_eq, bTarget, if_neg (by simp [byte])]
      exact encode_extractTarget addr (insAt m addr) 0xEA000000#32 high

theorem armBranch_roundTrip_sample :
    extractBlTarget (blTrampolineK (fun _ => 0#8) 0x08120000 0x08200040) 0x08120000 = 0x08200040 ∧
      read32 (blTrampolineK
          (blTrampolineK (fun _ => 0#8) 0x08120000 0x08200040) 0x08120000
          (extractBlTarget (blTrampolineK (fun _ => 0#8) 0x08120000 0x08200040) 0x08120000))
        (iosElfVaddrToPaddr (blTrampolineK (fun _ => 0#8) 0x08120000 0x08200040) 0x08120000) =
      insAt (blTrampolineK (fun _ => 0#8) 0x08120000 0x08200040) 0x08120000 :=
  ⟨(armBranch_roundTrip.1 (fun _ => 0#8) 0x08120000 0x08200040 (by decide) (by decide) (by decide)
      (by decide) _).1 (by decide +kernel),
    (armBranch_roundTrip.2 (blTrampolineK (fun _ => 0#8) 0x08120000 0x08200040) 0x08120000).1
      (by decide +kernel)⟩

end ArmCodec

section ThumbCodec

/-- The pair of halfwords for the halfword offset `offs`, with the 21 bits it keeps. -/
theorem thumbPair_toNat (offs : Word) :
    (0xF000F800#32 ||| (offs &&& 0x7FF#32) ||| (((offs >>> 11) &&& 0x3FF#32) <<< 16)).toNat =
      0xF000F800 + offs.toNat % 2 ^ 11 + offs.toNat / 2 ^ 11 % 2 ^ 10 * 2 ^ 16 := by
  have low : (offs &&& 0x7FF#32).toNat = offs.toNat % 2 ^ 11 := low_bits offs 11 (by decide)
  have high : ((offs >>> 11) &&& 0x3FF#32).toNat = offs.toNat / 2 ^ 11 % 2 ^ 10 := by
    have masked : ((offs >>> 11) &&& 0x3FF#32).toNat = (offs >>> 11).toNat % 2 ^ 10 :=
      low_bits (offs >>> 11) 10 (by decide)
    rw [masked, BitVec.toNat_ushiftRight, Nat.shiftRight_eq_div_pow]
  have first : 0xF000F800#32 &&& (offs &&& 0x7FF#32) = 0#32 := by
    rw [BitVec.and_comm offs, ← BitVec.and_assoc]
    exact BitVec.zero_and
  have second : (0xF000F800#32 ||| (offs &&& 0x7FF#32)) &&&
      (((offs >>> 11) &&& 0x3FF#32) <<< 16) = 0#32 := by
    have shifted : ((offs >>> 11) &&& 0x3FF#32) <<< 16 =
        ((offs >>> 11) <<< 16) &&& (0x3FF#32 <<< 16) := BitVec.shiftLeft_and_distrib _ _ _
    rw [shifted, BitVec.and_comm ((offs >>> 11) <<< 16), ← BitVec.and_assoc,
      BitVec.and_or_distrib_right, BitVec.and_assoc offs]
    simp
  rw [← BitVec.add_eq_or_of_and_eq_zero _ _ second, ← BitVec.add_eq_or_of_and_eq_zero _ _ first,
    BitVec.toNat_add, BitVec.toNat_add, BitVec.toNat_shiftLeft, low, high, Nat.shiftLeft_eq,
    show (0xF000F800#32).toNat = 0xF000F800 from rfl]
  omega

/-- What the two halves of a Thumb `BL` add to the address behind it. -/
theorem thumbOffset_toNat (high low : Half) :
    ((high.extractLsb' 0 11).signExtend 32 <<< 12 + (low.extractLsb' 0 11).setWidth 32 <<< 1 :
        Word).toNat =
      2 ^ 12 * (high.toNat % 2 ^ 11) + 2 * (low.toNat % 2 ^ 11) +
        if 2 ^ 10 ≤ high.toNat % 2 ^ 11 then 2 ^ 32 - 2 ^ 23 else 0 := by
  rw [BitVec.toNat_add, BitVec.toNat_shiftLeft, BitVec.toNat_shiftLeft, BitVec.toNat_signExtend,
    BitVec.toNat_setWidth, BitVec.toNat_setWidth, BitVec.msb_eq_decide, BitVec.extractLsb'_toNat,
    BitVec.extractLsb'_toNat, Nat.shiftLeft_eq, Nat.shiftLeft_eq]
  simp only [Nat.shiftRight_zero, decide_eq_true_eq]
  split <;> omega

/-- The target of a pair, by the numbers in its two fields. -/
theorem blTTarget_pair (addr ins : Word) (a b : Nat) (aBound : a < 2 ^ 11) (bBound : b < 2 ^ 11)
    (value : ins.toNat = 0xF000F800 + b + a * 2 ^ 16) :
    blTTarget addr ins = (addr + 4#32 + BitVec.ofNat 32 (2 ^ 12 * a + 2 * b +
      if 2 ^ 10 ≤ a then 2 ^ 32 - 2 ^ 23 else 0)) ||| 1#32 := by
  have high : (ins.extractLsb' 16 16).toNat = 0xF000 + a := by
    rw [BitVec.extractLsb'_toNat, Nat.shiftRight_eq_div_pow, value]
    omega
  have low : (ins.extractLsb' 0 16).toNat = 0xF800 + b := by
    rw [BitVec.extractLsb'_toNat, Nat.shiftRight_zero, value]
    omega
  have first : ins.extractLsb' 16 16 >>> 11 = 0x1E#16 := by
    apply BitVec.eq_of_toNat_eq
    rw [BitVec.toNat_ushiftRight, Nat.shiftRight_eq_div_pow, high]
    simp only [BitVec.toNat_ofNat]
    omega
  have second : ins.extractLsb' 0 16 >>> 11 = 0x1F#16 := by
    apply BitVec.eq_of_toNat_eq
    rw [BitVec.toNat_ushiftRight, Nat.shiftRight_eq_div_pow, low]
    simp only [BitVec.toNat_ofNat]
    omega
  have offset := thumbOffset_toNat (ins.extractLsb' 16 16) (ins.extractLsb' 0 16)
  rw [high, low, show (0xF000 + a) % 2 ^ 11 = a by omega,
    show (0xF800 + b) % 2 ^ 11 = b by omega] at offset
  rw [blTTarget_eq addr ins _ _
    ((decodeThumb_blHigh_iff _ _).mpr ⟨(top_bits_iff _ 0x1E (by decide)).mp first, rfl⟩)
    ((decodeThumb_blLow_iff _ _).mpr ⟨(top_bits_iff _ 0x1F (by decide)).mp second, rfl⟩),
    ← offset, BitVec.ofNat_toNat, BitVec.setWidth_eq, BitVec.add_assoc (addr + 4#32)]

/-- A written pair is read as the target exactly when the branch is a forward one. -/
theorem blTTarget_word_iff (addr dst : Word) (addrEven : addr.toNat % 2 = 0)
    (dstEven : dst.toNat % 2 = 0) (lower : -2 ^ 22 ≤ (dst - addr - 4#32).toInt)
    (upper : (dst - addr - 4#32).toInt < 2 ^ 22) :
    blTTarget addr (Link.blT.word addr dst) = dst ||| 1#32 ↔ 0 ≤ (dst - addr - 4#32).toInt := by
  have value := thumbPair_toNat ((dst - addr - 4#32).sdiv 2#32)
  have target := blTTarget_pair addr (Link.blT.word addr dst) _ _
    (Nat.lt_of_lt_of_le (Nat.mod_lt _ (by decide)) (by decide)) (Nat.mod_lt _ (by decide)) value
  have distance : dst = addr + 4#32 + (dst - addr - 4#32) := by grind
  have even : (dst - addr - 4#32).toNat % 2 = 0 := by
    rw [BitVec.toNat_sub, BitVec.toNat_sub, show (4#32).toNat = 4 from rfl]
    omega
  generalize dst - addr - 4#32 = x at *
  have signed := BitVec.toInt_eq_toNat_cond x
  have range := x.isLt
  obtain ⟨q, quotient⟩ : ∃ q : Int, x.toInt = 2 * q := ⟨x.toInt / 2, by split at signed <;> omega⟩
  have divided := sdiv_exact x 2#32 q (by decide) quotient (by decide)
  have dividedValue := BitVec.toInt_eq_toNat_cond (x.sdiv 2#32)
  generalize x.sdiv 2#32 = offs at *
  have dividedRange := offs.isLt
  rw [if_neg (by omega)] at target
  generalize kept : 2 ^ 12 * (offs.toNat / 2 ^ 11 % 2 ^ 10) + 2 * (offs.toNat % 2 ^ 11) + 0 = o
    at target
  have keptEven : (addr + 4#32 + BitVec.ofNat 32 o).toNat % 2 = 0 := by
    rw [BitVec.toNat_add, BitVec.toNat_add, BitVec.toNat_ofNat, BitVec.toNat_ofNat]
    omega
  rw [target]
  constructor
  · intro same
    have whole := congrArg (· &&& ~~~1#32) same
    simp only [(clear_odd _ keptEven).1, (clear_odd _ dstEven).1] at whole
    rw [distance, BitVec.add_right_inj] at whole
    have number := congrArg BitVec.toNat whole
    rw [BitVec.toNat_ofNat] at number
    split at signed <;> split at dividedValue <;> omega
  · intro forward
    have number : BitVec.ofNat 32 o = x := by
      apply BitVec.eq_of_toNat_eq
      rw [BitVec.toNat_ofNat]
      split at signed <;> split at dividedValue <;> omega
    rw [number, ← distance]

theorem thumbPair_fields (ins : Word) (first : ins.extractLsb' 16 16 >>> 11 = 0x1E#16)
    (second : ins.extractLsb' 0 16 >>> 11 = 0x1F#16) :
    ins.toNat = 0xF000F800 + ins.toNat % 2 ^ 11 + ins.toNat / 2 ^ 16 % 2 ^ 11 * 2 ^ 16 := by
  have high := congrArg BitVec.toNat first
  have low := congrArg BitVec.toNat second
  rw [BitVec.toNat_ushiftRight, Nat.shiftRight_eq_div_pow, BitVec.extractLsb'_toNat,
    Nat.shiftRight_eq_div_pow, BitVec.toNat_ofNat] at high
  rw [BitVec.toNat_ushiftRight, Nat.shiftRight_eq_div_pow, BitVec.extractLsb'_toNat,
    Nat.shiftRight_zero, BitVec.toNat_ofNat] at low
  have range := ins.isLt
  omega

theorem bit_iff (w : Word) (k : Nat) : w.getLsbD k = true ↔ w.toNat / 2 ^ k % 2 = 1 := by
  rw [BitVec.getLsbD, Nat.testBit_eq_decide_div_mod_eq, decide_eq_true_eq]

/-- Encoding the decoded target of a pair gives the pair exactly when the branch is a
forward one. -/
theorem word_blTTarget_iff (addr ins : Word) (addrEven : addr.toNat % 2 = 0)
    (first : ins.extractLsb' 16 16 >>> 11 = 0x1E#16)
    (second : ins.extractLsb' 0 16 >>> 11 = 0x1F#16) :
    Link.blT.word addr (blTTarget addr ins &&& ~~~1#32) = ins ↔ ins.getLsbD 26 = false := by
  have fields := thumbPair_fields ins first second
  have bit := bit_iff ins 26
  have aBound : ins.toNat / 2 ^ 16 % 2 ^ 11 < 2 ^ 11 := Nat.mod_lt _ (by decide)
  have bBound : ins.toNat % 2 ^ 11 < 2 ^ 11 := Nat.mod_lt _ (by decide)
  generalize ins.toNat / 2 ^ 16 % 2 ^ 11 = a at fields aBound
  generalize ins.toNat % 2 ^ 11 = b at fields bBound
  have target := blTTarget_pair addr ins a b aBound bBound fields
  generalize number : (2 ^ 12 * a + 2 * b + if 2 ^ 10 ≤ a then 2 ^ 32 - 2 ^ 23 else 0) = o at target
  have even : (addr + 4#32 + BitVec.ofNat 32 o).toNat % 2 = 0 := by
    rw [BitVec.toNat_add, BitVec.toNat_add, BitVec.toNat_ofNat, BitVec.toNat_ofNat]
    split at number <;> omega
  have distance : addr + 4#32 + BitVec.ofNat 32 o - addr - 4#32 = BitVec.ofNat 32 o := by grind
  have value := thumbPair_toNat ((BitVec.ofNat 32 o).sdiv 2#32)
  rw [target, (clear_odd _ even).1, Link.word, distance]
  have signed := BitVec.toInt_eq_toNat_cond (BitVec.ofNat 32 o)
  have bound : o < 2 ^ 32 := by split at number <;> omega
  rw [BitVec.toNat_ofNat, Nat.mod_eq_of_lt bound] at signed
  obtain ⟨q, quotient⟩ : ∃ q : Int, (BitVec.ofNat 32 o).toInt = 2 * q :=
    ⟨(BitVec.ofNat 32 o).toInt / 2, by split at signed <;> split at number <;> omega⟩
  have divided := sdiv_exact _ 2#32 q (by decide) quotient (by decide)
  have dividedValue := BitVec.toInt_eq_toNat_cond ((BitVec.ofNat 32 o).sdiv 2#32)
  generalize (BitVec.ofNat 32 o).sdiv 2#32 = offs at *
  have dividedRange := offs.isLt
  have sign : ins.getLsbD 26 = false ↔ a < 2 ^ 10 := by
    rw [← Bool.not_eq_true, bit]
    omega
  rw [sign]
  constructor
  · intro same
    have numbers := congrArg BitVec.toNat same
    rw [value, fields] at numbers
    omega
  · intro forward
    apply BitVec.eq_of_toNat_eq
    rw [value, fields]
    rw [if_neg (by omega)] at number
    split at signed <;> split at dividedValue <;> omega

/-- A Thumb `BL` survives being written and read, and being read and written, exactly
when it is a forward one. -/
theorem thumbBranch_roundTrip_iff (m : Mem) (addr : Word) (addrEven : addr.toNat % 2 = 0) :
    (∀ dst : Word, dst.toNat % 2 = 0 → -2 ^ 22 ≤ (dst - addr - 4#32).toInt →
      (dst - addr - 4#32).toInt < 2 ^ 22 → ∀ m' : Mem,
        insAt m' addr = read32 (blTTrampolineK m addr dst) (iosElfVaddrToPaddr m addr) →
          (extractBlTTarget m' addr = dst ||| 1#32 ↔ 0 ≤ (dst - addr - 4#32).toInt)) ∧
    (read16 m (iosElfVaddrToPaddr m addr) >>> 11 = 0x1E#16 →
      read16 m (iosElfVaddrToPaddr m addr + 2#32) >>> 11 = 0x1F#16 →
      (read32 (blTTrampolineK m addr (extractBlTTarget m addr &&& ~~~1#32))
          (iosElfVaddrToPaddr m addr) = insAt m addr ↔
        (read16 m (iosElfVaddrToPaddr m addr)).getLsbD 10 = false)) := by
  refine ⟨?_, ?_⟩
  · intro dst dstEven lower upper m' word
    rw [blTTrampolineK, patchU32K_eq, read32_write32] at word
    rw [extractBlTTarget_eq, word]
    exact blTTarget_word_iff addr dst addrEven dstEven lower upper
  · intro first second
    obtain ⟨high, low⟩ := read32_halves m (iosElfVaddrToPaddr m addr)
    rw [← high] at first
    rw [← low] at second
    have sign : (read16 m (iosElfVaddrToPaddr m addr)).getLsbD 10 = (insAt m addr).getLsbD 26 := by
      rw [← high, BitVec.getLsbD_extractLsb']
      rfl
    rw [sign, blTTrampolineK, patchU32K_eq, read32_write32, extractBlTTarget_eq]
    exact word_blTTarget_iff addr (insAt m addr) addrEven first second

/-- Memory with a Thumb `BL` at `0x05010002`. -/
def thumbMem : Mem := blTTrampolineK (fun _ => 0#8) 0x05010002 0x05200040

theorem thumbBranch_roundTrip_iff_sample :
    (extractBlTTarget (blTTrampolineK thumbMem 0x05010002 0x05200080) 0x05010002 =
        0x05200080 ||| 1#32 ↔ 0 ≤ ((0x05200080 : Word) - 0x05010002 - 4#32).toInt) ∧
      (read32 (blTTrampolineK thumbMem 0x05010002
            (extractBlTTarget thumbMem 0x05010002 &&& ~~~1#32))
          (iosElfVaddrToPaddr thumbMem 0x05010002) = insAt thumbMem 0x05010002 ↔
        (read16 thumbMem (iosElfVaddrToPaddr thumbMem 0x05010002)).getLsbD 10 = false) :=
  ⟨(thumbBranch_roundTrip_iff thumbMem 0x05010002 (by decide)).1 0x05200080 (by decide) (by decide)
      (by decide) _ (by decide +kernel),
    (thumbBranch_roundTrip_iff thumbMem 0x05010002 (by decide)).2 (by decide +kernel)
      (by decide +kernel)⟩

/-- A Thumb branch to itself is written as one that leads 4 MiB ahead. -/
theorem thumbBranch_backward :
    ¬ ∀ (m : Mem) (addr dst : Word), addr.toNat % 2 = 0 → dst.toNat % 2 = 0 →
      -2 ^ 22 ≤ (dst - addr - 4#32).toInt → (dst - addr - 4#32).toInt < 2 ^ 22 →
      extractBlTTarget (blTTrampolineK m addr dst) addr = dst ||| 1#32 := by
  intro roundTrip
  have same := roundTrip (fun _ => 0#8) 0x05010000 0x05010000 (by decide) (by decide) (by decide)
    (by decide)
  revert same
  decide +kernel

end ThumbCodec

section Mappings

/-- `dst` lies within what the branch at `addr` can encode. -/
def Within (link : Link) (addr dst : Word) : Prop :=
  match link with
  | .blT => -2 ^ 22 ≤ (dst - addr - 4#32).toInt ∧ (dst - addr - 4#32).toInt < 2 ^ 22
  | _ => -2 ^ 25 ≤ (dst - addr - 8#32).toInt ∧ (dst - addr - 8#32).toInt < 2 ^ 25

def Link.thumb (link : Link) : Bool := link = .blT

/-- Every machine that fetches the written branch at `addr` is led to `dst`. -/
def Enters (link : Link) (m : Mem) (addr dst : Word) : Prop :=
  ∀ c : Cpu, c.pc = addr → c.thumb = link.thumb →
    read32 c.mem addr = read32 (link.patch m addr dst) (iosElfVaddrToPaddr m addr) →
    Arrives link c dst

/-- The mapping is found where the branch needs it: 32 MiB to both sides for an ARM
branch, and 4 MiB ahead only for a Thumb one. -/
def Close (link : Link) (addr dst : Word) : Prop :=
  match link with
  | .blT => addr.toNat + 4 ≤ dst.toNat ∧ dst.toNat < addr.toNat + 4 + 2 ^ 22
  | _ => addr.toNat + 8 ≤ dst.toNat + 2 ^ 25 ∧ dst.toNat < addr.toNat + 8 + 2 ^ 25

/-- The first mapping in the block of `addr` is close to `addr`. -/
def CloseMapping (sym : Symbols) (link : Link) (addr trampoline : Word) : Prop :=
  ∀ (front : List Word) (a : Word) (back : List Word),
    mappings sym trampoline = front ++ a :: back →
    (∀ b ∈ front, b >>> link.offsetBits ≠ addr >>> link.offsetBits) →
    a >>> link.offsetBits = addr >>> link.offsetBits → Close link addr a

theorem findMapping_eq_some_iff (sym : Symbols) (addr trampoline alt : Word) (bits : Nat) :
    trampolineFindMapping sym addr trampoline bits = some alt ↔
      alt >>> bits = addr >>> bits ∧ ∃ front back, mappings sym trampoline = front ++ alt :: back ∧
        ∀ b ∈ front, b >>> bits ≠ addr >>> bits := by
  simp only [trampolineFindMapping, List.find?_eq_some_iff_append, beq_iff_eq, Bool.not_eq_true',
    beq_eq_false_iff_ne]

theorem closeMapping_iff (sym : Symbols) (link : Link) (addr trampoline alt : Word)
    (found : trampolineFindMapping sym addr trampoline link.offsetBits = some alt) :
    CloseMapping sym link addr trampoline ↔ Close link addr alt := by
  obtain ⟨block, front, back, split, others⟩ := (findMapping_eq_some_iff _ _ _ _ _).mp found
  constructor
  · exact fun close => close front alt back split others block
  · intro close front' a back' split' others' block'
    have again := (findMapping_eq_some_iff sym addr trampoline a link.offsetBits).mpr
      ⟨block', front', back', split', others'⟩
    rw [found, Option.some.injEq] at again
    rwa [← again]

theorem block_distance (a b : Word) (bits : Nat) (same : a >>> bits = b >>> bits) :
    a.toNat / 2 ^ bits = b.toNat / 2 ^ bits := by
  have value := congrArg BitVec.toNat same
  rwa [BitVec.toNat_ushiftRight, BitVec.toNat_ushiftRight, Nat.shiftRight_eq_div_pow,
    Nat.shiftRight_eq_div_pow] at value

theorem mapping_aligned (sym : Symbols) (trampoline alt : Word) (aligned : Aligned trampoline)
    (base : Aligned sym.wafelPluginBaseAddr) (member : alt ∈ mappings sym trampoline) :
    Aligned alt := by
  rw [mappings, List.mem_cons, List.mem_map] at member
  rcases member with rfl | ⟨altBase, listed, rfl⟩
  · exact aligned
  · have bases : altBase.toNat % 4 = 0 := by
      simp only [List.mem_cons, List.not_mem_nil, or_false] at listed
      rcases listed with rfl | rfl | rfl | rfl | rfl | rfl <;> rfl
    rw [aligned_iff] at *
    rw [BitVec.toNat_add, BitVec.toNat_sub]
    omega

/-- In one block the branch reaches exactly what is close, and a Thumb branch also
some addresses behind it. -/
theorem within_of_close (link : Link) (addr dst : Word)
    (block : dst >>> link.offsetBits = addr >>> link.offsetBits) (close : Close link addr dst) :
    Within link addr dst := by
  have blocks := block_distance _ _ _ block
  have value8 := BitVec.toInt_eq_toNat_cond (dst - addr - 8#32)
  have value4 := BitVec.toInt_eq_toNat_cond (dst - addr - 4#32)
  rw [BitVec.toNat_sub, BitVec.toNat_sub, BitVec.toNat_ofNat] at value8 value4
  have addrRange := addr.isLt
  have dstRange := dst.isLt
  cases link <;> simp only [Close, Within, Link.offsetBits] at close blocks ⊢
  · rw [value8]
    split <;> omega
  · rw [value8]
    split <;> omega
  · rw [value4]
    split <;> omega

theorem close_of_within (link : Link) (addr dst : Word)
    (block : dst >>> link.offsetBits = addr >>> link.offsetBits) (within : Within link addr dst)
    (forward : link = .blT → 0 ≤ (dst - addr - 4#32).toInt) : Close link addr dst := by
  have blocks := block_distance _ _ _ block
  have value8 := BitVec.toInt_eq_toNat_cond (dst - addr - 8#32)
  have value4 := BitVec.toInt_eq_toNat_cond (dst - addr - 4#32)
  rw [BitVec.toNat_sub, BitVec.toNat_sub, BitVec.toNat_ofNat] at value8 value4
  have addrRange := addr.isLt
  have dstRange := dst.isLt
  cases link <;> simp only [Close, Within, Link.offsetBits] at within blocks ⊢
  · rw [value8] at within
    split at within <;> omega
  · rw [value8] at within
    split at within <;> omega
  · have ahead := forward rfl
    rw [value4] at within ahead
    split at within <;> split at ahead <;> omega

/-- The word at the program counter calls `dst`, read as a Thumb pair. -/
theorem calls_thumb_iff (c : Cpu) (dst : Word) (mode : c.thumb = true)
    (pcEven : c.pc.toNat % 2 = 0) (dstEven : dst.toNat % 2 = 0) :
    Calls c dst ↔ blTTarget c.pc (read32 c.mem c.pc) = dst ||| 1#32 := by
  obtain ⟨high, low⟩ := read32_halves c.mem c.pc
  rw [Calls, if_pos mode, ← high, ← low]
  constructor
  · rintro ⟨first, second, decodedHigh, decodedLow, rfl⟩
    exact blTTarget_eq c.pc _ first second decodedHigh decodedLow
  · intro target
    have callee := callee_or_plain_thumb c.pc (read32 c.mem c.pc)
    have nonzero : blTTarget c.pc (read32 c.mem c.pc) ≠ 0#32 := by
      rw [target]
      intro zero
      have bit := congrArg (BitVec.getLsbD · 0) zero
      simp at bit
    rw [if_neg nonzero, target] at callee
    obtain ⟨first, second, decodedHigh, decodedLow, same⟩ := callee
    refine ⟨first, second, decodedHigh, decodedLow, ?_⟩
    have even : (c.pc + 4#32 + first + second).toNat % 2 = 0 := by
      obtain ⟨_, rfl⟩ := (decodeThumb_blHigh_iff _ _).mp decodedHigh
      obtain ⟨_, rfl⟩ := (decodeThumb_blLow_iff _ _).mp decodedLow
      have sum := thumbOffset_toNat ((read32 c.mem c.pc).extractLsb' 16 16)
        ((read32 c.mem c.pc).extractLsb' 0 16)
      rw [BitVec.add_assoc, BitVec.toNat_add, sum, BitVec.toNat_add, BitVec.toNat_ofNat]
      split <;> omega
    have whole := congrArg (· &&& ~~~1#32) same
    simp only [(clear_odd _ even).1, (clear_odd _ dstEven).1] at whole
    exact whole.symm

theorem enters_arm (link : Link) (m : Mem) (addr dst : Word) (arm : link ≠ .blT)
    (reaches : Reaches addr dst) : Enters link m addr dst := by
  intro c pc mode word
  rw [Link.patch, patchU32K_eq, read32_write32] at word
  cases link with
  | bl =>
      have arm : c.thumb = false := mode
      rw [Arrives, Calls, arm, pc, word]
      simp only [Bool.false_eq_true, if_false]
      exact Link.bl_decodes addr dst reaches
  | b =>
      refine ⟨mode, ?_⟩
      rw [pc, word]
      exact Link.b_decodes addr dst reaches
  | blT => exact absurd rfl arm

theorem enters_thumb_iff (m : Mem) (addr dst : Word) (addrEven : addr.toNat % 2 = 0)
    (dstEven : dst.toNat % 2 = 0) (within : Within .blT addr dst) :
    Enters .blT m addr dst ↔ 0 ≤ (dst - addr - 4#32).toInt := by
  rw [← blTTarget_word_iff addr dst addrEven dstEven within.1 within.2]
  have written : read32 (Link.blT.patch m addr dst) (iosElfVaddrToPaddr m addr) =
      Link.blT.word addr dst := by rw [Link.patch, patchU32K_eq, read32_write32]
  constructor
  · intro enters
    -- a machine that has the written word at the address
    have arrives := enters
      ⟨fun _ => 0, addr, true, ⟨false, false, false, false⟩,
        write32 m addr (Link.blT.word addr dst)⟩ rfl rfl (by rw [written, read32_write32])
    have target := (calls_thumb_iff _ dst rfl addrEven dstEven).mp arrives
    rwa [read32_write32] at target
  · intro target c pc mode word
    rw [written] at word
    apply (calls_thumb_iff c dst mode (by rwa [pc]) dstEven).mpr
    rw [pc, word, target]

/-- What a branch to an installed trampoline relies on. -/
structure Reached (sym : Symbols) (link : Link) (m : Mem) (addr trampoline alt : Word) : Prop where
  mapping : alt ∈ mappings sym trampoline
  within : Within link addr alt
  enters : Enters link m addr alt

/-- A mapping in the block of the address is only good if it is close, and for a Thumb
branch ahead. -/
theorem findMapping_reached_iff (sym : Symbols) (link : Link) (m : Mem) (addr trampoline alt : Word)
    (base : Aligned sym.wafelPluginBaseAddr) (installed : Aligned trampoline)
    (site : if link = .blT then addr.toNat % 2 = 0 else Aligned addr)
    (found : trampolineFindMapping sym addr trampoline link.offsetBits = some alt) :
    Reached sym link m addr trampoline alt ↔ CloseMapping sym link addr trampoline := by
  rw [closeMapping_iff sym link addr trampoline alt found]
  obtain ⟨block, front, back, split, _⟩ := (findMapping_eq_some_iff _ _ _ _ _).mp found
  have member : alt ∈ mappings sym trampoline := by
    rw [split]
    simp
  have aligned := mapping_aligned sym trampoline alt installed base member
  have even : alt.toNat % 2 = 0 := by
    rw [aligned_iff] at aligned
    omega
  by_cases thumb : link = .blT
  · subst thumb
    rw [if_pos rfl] at site
    constructor
    · intro reached
      exact close_of_within .blT addr alt block reached.within fun _ =>
        (enters_thumb_iff m addr alt site even reached.within).mp reached.enters
    · intro close
      have within := within_of_close .blT addr alt block close
      refine ⟨member, within, (enters_thumb_iff m addr alt site even within).mpr ?_⟩
      have value := BitVec.toInt_eq_toNat_cond (alt - addr - 4#32)
      rw [BitVec.toNat_sub, BitVec.toNat_sub, BitVec.toNat_ofNat] at value
      simp only [Close] at close
      have range := alt.isLt
      split at value <;> omega
  · rw [if_neg thumb] at site
    constructor
    · intro reached
      exact close_of_within link addr alt block reached.within fun same => absurd same thumb
    · intro close
      have within := within_of_close link addr alt block close
      have range : -2 ^ 25 ≤ (alt - addr - 8#32).toInt ∧ (alt - addr - 8#32).toInt < 2 ^ 25 := by
        cases link with
        | bl => exact within
        | b => exact within
        | blT => exact absurd rfl thumb
      exact ⟨member, within, enters_arm link m addr alt thumb
        ⟨distance_multiple addr alt site aligned, range⟩⟩

theorem findMapping_reached_iff_sample :
    Reached sampleSymbols .blT (fun _ => 0#8) 0x05400002 0x27F01000 0x05601000 ↔
      CloseMapping sampleSymbols .blT 0x05400002 0x27F01000 :=
  findMapping_reached_iff sampleSymbols .blT (fun _ => 0#8) 0x05400002 0x27F01000 0x05601000
    (by decide) (by decide) (by decide) (by decide)

/-- An address at the end of the block that holds the mapping at `0x05601000`. -/
theorem findMapping_unreached :
    ¬ ∀ (sym : Symbols) (addr trampoline alt : Word), Aligned sym.wafelPluginBaseAddr →
      Aligned trampoline → Aligned addr →
      trampolineFindMapping sym addr trampoline 26 = some alt →
      -2 ^ 25 ≤ (alt - addr - 8#32).toInt ∧ (alt - addr - 8#32).toInt < 2 ^ 25 := by
  intro within
  have range := within sampleSymbols 0x07FFFFF0 0x27F01000 0x05601000 (by decide) (by decide)
    (by decide) (by decide)
  revert range
  decide

end Mappings

end Stroopwafel.Trampoline
