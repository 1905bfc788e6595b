import Stroopwafel.ArmExec

set_option autoImplicit false

namespace Stroopwafel.Cache

open Memory

abbrev lineSize : Word := 0x20#32

/-- `ALIGN_FORWARD` and `ALIGN_BACKWARD` to the size of a line -/
def alignForward (x : Word) : Word := (x + lineSize - 1#32) &&& ~~~(lineSize - 1#32)

def alignBackward (x : Word) : Word := x &&& ~~~(lineSize - 1#32)

/-- An operation on the data cache: a line given by an address in it, or the whole cache. -/
inductive Op where
  | inval (mva : Word)
  | clean (mva : Word)
  | cleanAll

/-- The loop over entries: after each operation the count is decremented and tested. -/
def entries (op : Word → Op) (r0 r1 : Word) : List Op :=
  op r0 :: if r1 - 1#32 = 0#32 then [] else entries op (r0 + 0x20#32) (r1 - 1#32)
termination_by (r1 - 1#32).toNat
decreasing_by
  rename_i more
  bv_omega

def dcInvalEntries (start count : Word) : List Op := entries .inval start count

def dcFlushEntries (start count : Word) : List Op := entries .clean start count

/-- The difference of the two pointers is signed, and so is the division. -/
def dcFlushrange (start size : Word) : List Op :=
  if size > 0x4000#32 then [.cleanAll]
  else
    let stop := alignForward (start + size)
    let start := alignBackward start
    dcFlushEntries start ((stop - start).sdiv lineSize)

def dcInvalidaterange (start size : Word) : List Op :=
  let stop := alignForward (start + size)
  let start := alignBackward start
  dcInvalEntries start ((stop - start).sdiv lineSize)

/-- The line of an address, by its number. -/
def line (a : Word) : Nat := a.toNat / 32

def Invalidates (ops : List Op) (l : Nat) : Prop := ∃ mva, .inval mva ∈ ops ∧ line mva = l

def Cleans (ops : List Op) (l : Nat) : Prop :=
  .cleanAll ∈ ops ∨ ∃ mva, .clean mva ∈ ops ∧ line mva = l

/-- A line has a byte in the range. -/
def Meets (start size : Word) (l : Nat) : Prop :=
  ∃ x, start.toNat ≤ x ∧ x < start.toNat + size.toNat ∧ x / 32 = l

/-- The lines from the first byte of the range to the byte behind it, rounded outwards. -/
def lines (start size : Word) : Nat := (start.toNat % 32 + size.toNat + 31) / 32

section Rounding

theorem alignBackward_toNat (x : Word) : (alignBackward x).toNat = x.toNat / 32 * 32 := by
  have low : (x &&& 31#32).toNat = x.toNat % 32 := by
    rw [BitVec.toNat_and]
    exact Nat.and_two_pow_sub_one_eq_mod x.toNat 5
  have bound := x.isLt
  unfold alignBackward
  rw [show lineSize - 1#32 = 31#32 from rfl, Arm.clear_bits, BitVec.toNat_sub, low]
  omega

theorem alignForward_eq (x : Word) : alignForward x = alignBackward (x + 31#32) := by
  have rounding : x + lineSize - 1#32 = x + 31#32 := by bv_omega
  unfold alignForward alignBackward
  rw [rounding]

/-- The distance of the rounded ends, also where the range wraps. -/
theorem distance_toNat (start size : Word) :
    (alignForward (start + size) - alignBackward start).toNat = 32 * lines start size % 2 ^ 32 := by
  have bound := start.isLt
  rw [BitVec.toNat_sub, alignForward_eq, alignBackward_toNat, alignBackward_toNat,
    BitVec.toNat_add, BitVec.toNat_add]
  simp only [lines, BitVec.toNat_ofNat]
  omega

/-- The rounds of the loop over `w` bytes. A count of 0 stands for 2^32 rounds. -/
def rounds (w : Word) : Nat := (w.sdiv lineSize - 1#32).toNat + 1

theorem rounds_small (w : Word) (few : 32 ≤ w.toNat) (small : w.toNat < 2 ^ 31) :
    rounds w = w.toNat / 32 := by
  have positive : w.msb = false := by
    rw [BitVec.msb_eq_decide]
    exact decide_eq_false (by omega)
  have divisor : (lineSize : Word).msb = false := by decide
  unfold rounds
  rw [BitVec.sdiv, positive, divisor]
  simp only [BitVec.udiv_eq, BitVec.toNat_sub, BitVec.toNat_udiv, BitVec.toNat_ofNat, Nat.reducePow,
    Nat.reduceMod]
  omega

/-- From 2 GiB on the count is negative, and large as an unsigned number. -/
theorem rounds_large (w : Word) (large : 2 ^ 31 ≤ w.toNat) : 2 ^ 27 ≤ rounds w := by
  have negative : w.msb = true := by
    rw [BitVec.msb_eq_decide]
    exact decide_eq_true (by omega)
  have divisor : (lineSize : Word).msb = false := by decide
  have bound := w.isLt
  unfold rounds
  rw [BitVec.sdiv, negative, divisor]
  simp only [BitVec.neg_eq, BitVec.udiv_eq, BitVec.toNat_sub, BitVec.toNat_neg, BitVec.toNat_udiv,
    BitVec.toNat_ofNat, Nat.reducePow, Nat.reduceMod]
  omega

end Rounding

section Entries

variable (op : Word → Op)

theorem entries_eq (start count : Word) :
    entries op start count =
      (List.range ((count - 1#32).toNat + 1)).map fun k =>
        op (start + BitVec.ofNat 32 (32 * k)) := by
  fun_induction entries op start count with
  | case1 start count ih =>
      rw [List.range_succ_eq_map, List.map_cons, Nat.mul_zero, BitVec.add_zero]
      congr 1
      by_cases last : count - 1#32 = 0#32
      · rw [if_pos last, last]
        rfl
      · have next : (count - 1#32).toNat = (count - 1#32 - 1#32).toNat + 1 := by bv_omega
        rw [if_neg last, ih last, ← next, List.map_map]
        apply List.map_congr_left
        intro k _
        rw [Function.comp_apply, show (0x20#32 : Word) = BitVec.ofNat 32 32 from rfl,
          ofNat_add_ofNat, Nat.mul_succ, Nat.add_comm]

/-- The lines follow one another, and wrap around. -/
theorem line_entry (start : Word) (k : Nat) :
    line (alignBackward start + BitVec.ofNat 32 (32 * k)) = (start.toNat / 32 + k) % 2 ^ 27 := by
  have bound := start.isLt
  unfold line
  rw [BitVec.toNat_add, alignBackward_toNat, BitVec.toNat_ofNat]
  omega

/-- The lines of the loop over a range. -/
theorem entries_lines (op_inj : ∀ a b, op a = op b → a = b) (start size : Word) (l : Nat) :
    (∃ mva, op mva ∈ entries op (alignBackward start)
        ((alignForward (start + size) - alignBackward start).sdiv lineSize) ∧ line mva = l) ↔
      ∃ k < rounds (alignForward (start + size) - alignBackward start),
        (start.toNat / 32 + k) % 2 ^ 27 = l := by
  rw [entries_eq]
  constructor
  · rintro ⟨mva, member, rfl⟩
    obtain ⟨k, inside, same⟩ := List.mem_map.mp member
    refine ⟨k, List.mem_range.mp inside, ?_⟩
    rw [← op_inj _ _ same, line_entry]
  · rintro ⟨k, inside, rfl⟩
    exact ⟨_, List.mem_map.mpr ⟨k, List.mem_range.mpr inside, rfl⟩, line_entry start k⟩

end Entries

section Ranges

variable (start size : Word)

theorem dcInvalidaterange_lines (l : Nat) :
    Invalidates (dcInvalidaterange start size) l ↔
      ∃ k < rounds (alignForward (start + size) - alignBackward start),
        (start.toNat / 32 + k) % 2 ^ 27 = l :=
  entries_lines .inval (fun _ _ same => Op.inval.inj same) start size l

theorem dcFlushrange_lines (small : size.toNat ≤ 0x4000) (l : Nat) :
    Cleans (dcFlushrange start size) l ↔
      ∃ k < rounds (alignForward (start + size) - alignBackward start),
        (start.toNat / 32 + k) % 2 ^ 27 = l := by
  have few : ¬ size > 0x4000#32 := by
    rw [gt_iff_lt, BitVec.lt_def]
    exact Nat.not_lt_of_le small
  have parts : ∀ r0 r1, .cleanAll ∉ entries .clean r0 r1 := by
    intro r0 r1 member
    rw [entries_eq] at member
    obtain ⟨k, _, same⟩ := List.mem_map.mp member
    cases same
  unfold Cleans dcFlushrange
  simp only [if_neg few, dcFlushEntries, parts, false_or]
  exact entries_lines .clean (fun _ _ same => Op.clean.inj same) start size l

/-- The lines of a range, where the rounds are counted right. -/
theorem meets_iff (some : size.toNat ≠ 0) (inRange : start.toNat + size.toNat ≤ 2 ^ 32 - 32)
    (l : Nat) :
    (∃ k < lines start size, (start.toNat / 32 + k) % 2 ^ 27 = l) ↔ Meets start size l := by
  unfold lines Meets
  constructor
  · rintro ⟨k, inside, rfl⟩
    refine ⟨max start.toNat ((start.toNat / 32 + k) * 32), ?_, ?_, ?_⟩
    · omega
    · omega
    · omega
  · rintro ⟨x, lower, upper, rfl⟩
    refine ⟨x / 32 - start.toNat / 32, ?_, ?_⟩
    · omega
    · omega

theorem rounds_exact (some : size.toNat ≠ 0) (small : 32 * lines start size < 2 ^ 31) :
    rounds (alignForward (start + size) - alignBackward start) = lines start size := by
  have distance := distance_toNat start size
  rw [Nat.mod_eq_of_lt (by omega)] at distance
  have positive : 1 ≤ lines start size := by
    unfold lines
    omega
  rw [rounds_small _ (by omega) (by omega), distance]
  omega

end Ranges

/-- Exactly the lines of the range are invalidated, and cleaned. -/
def Exact (start size : Word) : Prop :=
  (∀ l, Invalidates (dcInvalidaterange start size) l ↔ Meets start size l) ∧
    (size.toNat ≤ 0x4000 → ∀ l, Cleans (dcFlushrange start size) l ↔ Meets start size l)

/-- The first line is invalidated, and an empty range has none. -/
theorem empty_inexact (start : Word) : ¬ Exact start 0#32 := by
  rintro ⟨invalidated, _⟩
  have first : Invalidates (dcInvalidaterange start 0#32) (start.toNat / 32) := by
    rw [dcInvalidaterange_lines]
    have bound := start.isLt
    exact ⟨0, Nat.succ_pos _, by omega⟩
  obtain ⟨x, lower, upper, _⟩ := (invalidated _).mp first
  rw [BitVec.toNat_ofNat] at upper
  omega

/-- The line behind the range is invalidated as well. -/
theorem large_inexact (start size : Word) (inRange : start.toNat + size.toNat ≤ 2 ^ 32 - 32)
    (large : 2 ^ 31 ≤ 32 * lines start size) : ¬ Exact start size := by
  rintro ⟨invalidated, _⟩
  have distance := distance_toNat start size
  have within : (start.toNat + size.toNat + 31) / 32 = start.toNat / 32 + lines start size := by
    unfold lines
    omega
  rw [Nat.mod_eq_of_lt (by omega)] at distance
  have many := rounds_large _ (by rw [distance]; exact large)
  have behind : Invalidates (dcInvalidaterange start size)
      (start.toNat / 32 + lines start size) := by
    rw [dcInvalidaterange_lines]
    exact ⟨lines start size, by omega, by omega⟩
  obtain ⟨x, lower, upper, there⟩ := (invalidated _).mp behind
  omega

/-- The maintenance touches exactly the range if and only if it is not empty and its lines have less
than 2 GiB. -/
theorem range_exact_iff (start size : Word)
    (inRange : start.toNat + size.toNat ≤ 2 ^ 32 - 32) :
    Exact start size ↔ size ≠ 0#32 ∧ 32 * lines start size < 2 ^ 31 := by
  constructor
  · intro exact_
    constructor
    · rintro rfl
      exact empty_inexact start exact_
    · apply Nat.lt_of_not_le
      intro large
      exact large_inexact start size inRange large exact_
  · rintro ⟨nonzero, small⟩
    have some : size.toNat ≠ 0 := fun zero => nonzero (BitVec.eq_of_toNat_eq zero)
    have counted := rounds_exact start size some small
    have met := meets_iff start size some inRange
    constructor
    · intro l
      rw [dcInvalidaterange_lines, counted]
      exact met l
    · intro few l
      rw [dcFlushrange_lines start size few, counted]
      exact met l

theorem range_exact_iff_lines :
    Exact 0x1010#32 64#32 ↔ (64#32 : Word) ≠ 0#32 ∧ 32 * lines 0x1010#32 64#32 < 2 ^ 31 :=
  range_exact_iff 0x1010#32 64#32 (by decide)

/-- The empty range at 0x1000. -/
theorem empty_not_left_alone : ¬ Exact 0x1000#32 0#32 := empty_inexact 0x1000#32

end Stroopwafel.Cache
