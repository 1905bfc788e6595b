import Mathlib.Algebra.Group.Int.Defs
import Mathlib.Algebra.GroupWithZero.Nat

set_option autoImplicit false

/- Cipher block chaining, and hashes that take their input in pieces. -/
namespace Cbc

variable {α : Type} {n : Nat}

/-- A block cipher under one key. -/
structure BlockCipher (α : Type) (n : Nat) where
  encrypt : List α → List α
  encrypt_length : ∀ block, block.length = n → (encrypt block).length = n

/-- The last `n` bytes -/
def tail (n : Nat) (xs : List α) : List α := xs.drop (xs.length - n)

/-- A way to encrypt in which the next piece needs the last block of what came before only. -/
structure Feedback (α : Type) (n : Nat) where
  output : List α → List α → List α
  output_length : ∀ iv data, iv.length = n → n ∣ data.length →
    (output iv data).length = data.length
  output_append : ∀ iv xs ys, iv.length = n → n ∣ xs.length →
    output iv (xs ++ ys) = output iv xs ++ output (tail n (iv ++ output iv xs)) ys

/-- A hash whose input comes in pieces. -/
structure Incremental (α : Type) where
  State : Type
  Digest : Type
  init : State
  update : State → List α → State
  digest : State → Digest
  update_nil : ∀ s, update s [] = s
  update_append : ∀ s xs ys, update s (xs ++ ys) = update (update s xs) ys

/-- The digest of the whole input -/
def Incremental.oneShot (h : Incremental α) (data : List α) : h.Digest :=
  h.digest (h.update h.init data)

theorem tail_length (xs : List α) (enough : n ≤ xs.length) : (tail n xs).length = n := by
  unfold tail
  rw [List.length_drop]
  omega

/-- What is in front of `n` bytes is not seen. -/
theorem tail_append (xs ys : List α) (enough : n ≤ ys.length) : tail n (xs ++ ys) = tail n ys := by
  unfold tail
  rw [List.drop_append, List.length_append, List.drop_of_length_le (by omega), List.nil_append]
  congr 1
  omega

theorem tail_self (xs : List α) (exact_ : xs.length = n) : tail n xs = xs := by
  unfold tail
  rw [exact_, Nat.sub_self, List.drop_zero]

/-- Nothing is encrypted. -/
def plain : Feedback α n where
  output _ data := data
  output_length _ _ _ _ := rfl
  output_append _ _ _ _ _ := rfl

section Chain

variable (cipher : BlockCipher α n) (mix : α → α → α)

/-- Each block is mixed with the encrypted block before it. -/
def chain [NeZero n] (iv data : List α) : List α :=
  if _ : n ≤ data.length then
    let block := cipher.encrypt (List.zipWith mix iv (data.take n))
    block ++ chain block (data.drop n)
  else
    []
termination_by data.length
decreasing_by
  have positive := Nat.pos_of_neZero n
  rw [List.length_drop]
  omega

theorem chain_short [NeZero n] (iv data : List α) (short : data.length < n) :
    chain cipher mix iv data = [] := by
  rw [chain, dif_neg (by omega)]

theorem chain_step [NeZero n] (iv data : List α) (enough : n ≤ data.length) :
    chain cipher mix iv data =
      cipher.encrypt (List.zipWith mix iv (data.take n)) ++
        chain cipher mix (cipher.encrypt (List.zipWith mix iv (data.take n))) (data.drop n) := by
  rw [chain, dif_pos enough]

theorem block_length (iv data : List α) (whole : iv.length = n) (enough : n ≤ data.length) :
    (cipher.encrypt (List.zipWith mix iv (data.take n))).length = n := by
  apply cipher.encrypt_length
  rw [List.length_zipWith, List.length_take]
  omega

theorem chain_length [NeZero n] (iv data : List α) (whole : iv.length = n)
    (aligned : n ∣ data.length) :
    (chain cipher mix iv data).length = data.length := by
  by_cases enough : n ≤ data.length
  · have block := block_length cipher mix iv data whole enough
    have rest := chain_length _ (data.drop n) block (by
      rw [List.length_drop]
      exact Nat.dvd_sub aligned (Nat.dvd_refl n))
    rw [chain_step cipher mix iv data enough, List.length_append, rest, block, List.length_drop]
    omega
  · have none : data.length = 0 := Nat.eq_zero_of_dvd_of_lt aligned (by omega)
    rw [chain_short cipher mix iv data (by omega), none, List.length_nil]
termination_by data.length
decreasing_by
  have positive := Nat.pos_of_neZero n
  rw [List.length_drop]
  omega

/-- Behind whole blocks the chain goes on with the last of them. -/
theorem chain_append [NeZero n] (iv xs ys : List α) (whole : iv.length = n)
    (aligned : n ∣ xs.length) :
    chain cipher mix iv (xs ++ ys) =
      chain cipher mix iv xs ++ chain cipher mix (tail n (iv ++ chain cipher mix iv xs)) ys := by
  by_cases enough : n ≤ xs.length
  · have block := block_length cipher mix iv xs whole enough
    have aligned' : n ∣ (xs.drop n).length := by
      rw [List.length_drop]
      exact Nat.dvd_sub aligned (Nat.dvd_refl n)
    rw [chain_step cipher mix iv (xs ++ ys) (by rw [List.length_append]; omega),
      List.take_append_of_le_length enough, List.drop_append_of_le_length enough,
      chain_append _ (xs.drop n) ys block aligned', chain_step cipher mix iv xs enough,
      tail_append iv _ (by rw [List.length_append]; omega), List.append_assoc]
  · have none : xs = [] :=
      List.eq_nil_of_length_eq_zero (Nat.eq_zero_of_dvd_of_lt aligned (by omega))
    rw [none, chain_short cipher mix iv [] (Nat.pos_of_neZero n), List.nil_append,
      List.append_nil, tail_self iv whole, List.nil_append]
termination_by xs.length
decreasing_by
  have positive := Nat.pos_of_neZero n
  rw [List.length_drop]
  omega

def cbc [NeZero n] : Feedback α n where
  output := chain cipher mix
  output_length := chain_length cipher mix
  output_append := chain_append cipher mix

end Chain

end Cbc
