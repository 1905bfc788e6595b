import Mathlib.Algebra.Group.Int.Defs
import Mathlib.Algebra.GroupWithZero.Nat

set_option autoImplicit false

/- Hashes that compress their input block by block. -/
namespace BlockHash

variable {α σ : Type} (compress : σ → List α → σ) (n : Nat)

/-- The state behind the whole blocks of `xs`. -/
def blocks [NeZero n] (s : σ) (xs : List α) : σ :=
  if _ : n ≤ xs.length then blocks (compress s (xs.take n)) (xs.drop n) else s
termination_by xs.length
decreasing_by
  have positive := Nat.pos_of_neZero n
  rw [List.length_drop]
  omega

/-- What is left of `xs` behind its whole blocks. -/
def rest (xs : List α) : List α := xs.drop (n * (xs.length / n))

theorem rest_length (xs : List α) : (rest n xs).length = xs.length % n := by
  have split := Nat.mod_add_div xs.length n
  unfold rest
  rw [List.length_drop]
  omega

theorem rest_short (xs : List α) (short : xs.length < n) : rest n xs = xs := by
  unfold rest
  rw [Nat.div_eq_of_lt short, Nat.mul_zero, List.drop_zero]

/-- Whole blocks in front leave nothing. -/
theorem rest_front (xs ys : List α) (whole : n ∣ xs.length) : rest n (xs ++ ys) = rest n ys := by
  obtain ⟨k, size⟩ := whole
  rcases Nat.eq_zero_or_pos n with rfl | positive
  · rw [Nat.zero_mul] at size
    rw [List.eq_nil_of_length_eq_zero size, List.nil_append]
  · unfold rest
    rw [List.length_append, size, Nat.mul_add_div positive, Nat.mul_add, ← size,
      ← List.drop_drop, List.drop_left]

/-- `xs` is its whole blocks with the rest behind them. -/
theorem blocks_rest (xs : List α) : ∃ front, n ∣ front.length ∧ xs = front ++ rest n xs := by
  refine ⟨xs.take (n * (xs.length / n)), ?_, (List.take_append_drop _ _).symm⟩
  rw [List.length_take, Nat.min_eq_left (Nat.mul_div_le _ _)]
  exact Nat.dvd_mul_right n _

theorem rest_append (xs ys : List α) : rest n (xs ++ ys) = rest n (rest n xs ++ ys) := by
  obtain ⟨front, whole, split⟩ := blocks_rest n xs
  calc rest n (xs ++ ys) = rest n (front ++ (rest n xs ++ ys)) := by
        rw [← List.append_assoc, ← split]
    _ = rest n (rest n xs ++ ys) := rest_front n front _ whole

section Blocks

variable [NeZero n]

theorem blocks_short (s : σ) (xs : List α) (short : xs.length < n) :
    blocks compress n s xs = s := by
  rw [blocks, dif_neg (by omega)]

theorem blocks_step (s : σ) (xs : List α) (enough : n ≤ xs.length) :
    blocks compress n s xs = blocks compress n (compress s (xs.take n)) (xs.drop n) := by
  rw [blocks, dif_pos enough]

theorem blocks_one (s : σ) (xs : List α) (size : xs.length = n) :
    blocks compress n s xs = compress s xs := by
  have positive := Nat.pos_of_neZero n
  rw [blocks_step compress n s xs (by omega), List.take_of_length_le (by omega),
    List.drop_of_length_le (by omega), blocks_short compress n _ [] positive]

/-- The input can come in two pieces: what the first one leaves goes in front of the second. -/
theorem blocks_append (s : σ) (xs ys : List α) :
    blocks compress n s (xs ++ ys) =
      blocks compress n (blocks compress n s xs) (rest n xs ++ ys) := by
  by_cases enough : n ≤ xs.length
  · have behind : rest n (xs.drop n) = rest n xs := by
      have front : n ∣ (xs.take n).length := by
        have length : (xs.take n).length = n := List.length_take_of_le enough
        exact length.symm ▸ Nat.dvd_refl n
      rw [← rest_front n _ (xs.drop n) front, List.take_append_drop]
    rw [blocks_step compress n s (xs ++ ys) (by rw [List.length_append]; omega),
      List.take_append_of_le_length enough, List.drop_append_of_le_length enough,
      blocks_append _ (xs.drop n) ys, behind, blocks_step compress n s xs enough]
  · rw [blocks_short compress n s xs (by omega), rest_short n xs (by omega)]
termination_by xs.length
decreasing_by
  have positive := Nat.pos_of_neZero n
  rw [List.length_drop]
  omega

/-- A whole block in front of more input. -/
theorem blocks_cons (s : σ) (xs ys : List α) (size : xs.length = n) :
    blocks compress n s (xs ++ ys) = blocks compress n (compress s xs) ys := by
  have none : rest n xs = [] := by
    apply List.eq_nil_of_length_eq_zero
    rw [rest_length, size, Nat.mod_self]
  rw [blocks_append, blocks_one compress n s xs size, none, List.nil_append]

end Blocks

end BlockHash
