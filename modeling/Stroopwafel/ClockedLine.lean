import Mathlib.Algebra.Group.Int.Defs
import Mathlib.Algebra.GroupWithZero.Nat

set_option autoImplicit false

/- A serial line that carries its own clock. -/
namespace ClockedLine

variable {w : Nat}

/-- The levels at one moment. -/
structure Line where
  clock : Bool
  mark : Bool
  data : Bool
  deriving DecidableEq, Repr

def pushBit (shift : BitVec w) (bit : Bool) : BitVec w :=
  shift <<< 1 ||| (BitVec.ofBool bit).setWidth w

/-- The most significant bit goes first. -/
def bitsOf (word : BitVec w) : List Bool := (List.range w).reverse.map word.getLsbD

structure Receiver (w : Nat) where
  clock : Bool
  shift : BitVec w

/-- A rising edge shifts in the data, or hands over the word when the mark is set. -/
def sample (rx : Receiver w) (line : Line) : Receiver w × List (BitVec w) :=
  if line.clock && !rx.clock then
    if line.mark then (⟨true, rx.shift⟩, [rx.shift])
    else (⟨true, pushBit rx.shift line.data⟩, [])
  else (⟨line.clock, rx.shift⟩, [])

def receive (rx : Receiver w) : List Line → Receiver w × List (BitVec w)
  | [] => (rx, [])
  | line :: rest =>
      let (rx, first) := sample rx line
      let (rx, others) := receive rx rest
      (rx, first ++ others)

section Shift

theorem pushBit_getLsbD (shift : BitVec w) (bit : Bool) (i : Nat) (inside : i < w) :
    (pushBit shift bit).getLsbD i = if i = 0 then bit else shift.getLsbD (i - 1) := by
  unfold pushBit
  rw [BitVec.getLsbD_or, BitVec.getLsbD_shiftLeft, BitVec.getLsbD_setWidth, BitVec.getLsbD_ofBool]
  by_cases low : i = 0
  · simp [low]
    omega
  · have next : ¬ i < 1 := by omega
    simp [low, inside, next]

/-- The bits that were shifted in last stand lowest. -/
theorem foldl_pushBit_getLsbD (bits : List Bool) (shift : BitVec w) (i : Nat) (inside : i < w) :
    (bits.foldl pushBit shift).getLsbD i =
      if i < bits.length then (bits.reverse[i]?).getD false
      else shift.getLsbD (i - bits.length) := by
  induction bits generalizing shift with
  | nil => rfl
  | cons bit rest ih =>
      rw [List.foldl_cons, ih, List.reverse_cons, List.length_cons]
      by_cases before : i < rest.length
      · rw [if_pos before, if_pos (by omega), List.getElem?_append_left (by simpa using before)]
      · rw [if_neg before, pushBit_getLsbD _ _ _ (by omega)]
        by_cases here : i = rest.length
        · rw [if_pos (by omega), if_pos (by omega),
            List.getElem?_append_right (by simp [here])]
          simp [here]
        · rw [if_neg (by omega), if_neg (by omega), Nat.sub_sub]

theorem bitsOf_length (word : BitVec w) : (bitsOf word).length = w := by simp [bitsOf]

/-- A whole word pushes out what was there. -/
theorem foldl_bitsOf (word shift : BitVec w) : (bitsOf word).foldl pushBit shift = word := by
  apply BitVec.eq_of_getLsbD_eq
  intro i inside
  rw [foldl_pushBit_getLsbD _ _ _ inside, bitsOf_length, if_pos inside]
  simp [bitsOf, ← List.map_reverse, inside]

end Shift

section Receive

variable (rx : Receiver w)

theorem receive_append (first second : List Line) :
    receive rx (first ++ second) =
      ((receive (receive rx first).1 second).1,
        (receive rx first).2 ++ (receive (receive rx first).1 second).2) := by
  induction first generalizing rx with
  | nil => rfl
  | cons line rest ih => simp only [List.cons_append, receive, ih, List.append_assoc]

theorem sample_clock (line : Line) : (sample rx line).1.clock = line.clock := by
  unfold sample
  cases line.clock <;> cases rx.clock <;> cases line.mark <;> rfl

/-- No edge, nothing to do. -/
theorem sample_level (line : Line) (level : line.clock = rx.clock) : sample rx line = (rx, []) := by
  obtain ⟨clock, shift⟩ := rx
  unfold sample
  rw [level]
  cases clock <;> rfl

theorem sample_low (line : Line) (low : line.clock = false) :
    sample rx line = (⟨false, rx.shift⟩, []) := by
  simp [sample, low]

theorem sample_bit (line : Line) (high : line.clock = true) (before : rx.clock = false)
    (bit : line.mark = false) : sample rx line = (⟨true, pushBit rx.shift line.data⟩, []) := by
  simp [sample, high, before, bit]

theorem sample_mark (line : Line) (high : line.clock = true) (before : rx.clock = false)
    (mark : line.mark = true) : sample rx line = (⟨true, rx.shift⟩, [rx.shift]) := by
  simp [sample, high, before, mark]

end Receive

end ClockedLine
