import Mathlib.Algebra.Group.Int.Defs
import Mathlib.Algebra.GroupWithZero.Nat

set_option autoImplicit false

/- Occurrences of a pattern in a text, and what a partial match at one place says about others. -/
namespace Matching

section Occurrence

variable {α : Type} (text pat : List α)

/-- The pattern stands in the text from index `k` on. -/
def OccursAt (k : Nat) : Prop := ∀ i < pat.length, text[k + i]? = pat[i]?

/-- The first occurrence, or none. -/
def IsFirst : Option Nat → Prop
  | some k => OccursAt text pat k ∧ ∀ k' < k, ¬ OccursAt text pat k'
  | none => ∀ k, ¬ OccursAt text pat k

/-- With the pattern at `base`, its items behind index `j` agree with the text. -/
def Agrees (base j : Nat) : Prop :=
  ∀ k < pat.length, j < k → text[base + k]? = pat[k]?

/-- A shift by `s` keeps what agrees behind `j`, and brings another item to `j`. -/
structure Compatible (j s : Nat) : Prop where
  keeps : ∀ k < pat.length, j < k → s ≤ k → pat[k - s]? = pat[k]?
  changes : s ≤ j → pat[j - s]? ≠ pat[j]?

variable {text pat}

theorem OccursAt.bound {k : Nat} (occurs : OccursAt text pat k) (some : 0 < pat.length) :
    k + pat.length ≤ text.length := by
  have last := occurs (pat.length - 1) (by omega)
  rw [List.getElem?_eq_getElem (by omega : pat.length - 1 < pat.length)] at last
  have inside := (List.getElem?_eq_some_iff.mp last).1
  omega

theorem OccursAt.shifted {base j s : Nat} (occurs : OccursAt text pat (base + s))
    (inside : j < pat.length) (within : s ≤ j) : pat[j - s]? = text[base + j]? := by
  have item := occurs (j - s) (by omega)
  rw [← item]
  congr 1
  omega

/-- An occurrence after a mismatch is a compatible shift. -/
theorem OccursAt.compatible {base j s : Nat} (occurs : OccursAt text pat (base + s))
    (agrees : Agrees text pat base j) (inside : j < pat.length)
    (mismatch : text[base + j]? ≠ pat[j]?) : Compatible pat j s := by
  constructor
  · intro k bound behind within
    rw [occurs.shifted bound within, agrees k bound behind]
  · intro within
    rw [occurs.shifted inside within]
    exact mismatch

theorem IsFirst.unique {first first' : Option Nat} (isFirst : IsFirst text pat first)
    (isFirst' : IsFirst text pat first') : first = first' := by
  cases first with
  | none =>
      cases first' with
      | none => rfl
      | some k => exact absurd isFirst'.1 (isFirst k)
  | some k =>
      cases first' with
      | none => exact absurd isFirst.1 (isFirst' k)
      | some k' =>
          have order : ¬ k < k' := fun less => isFirst'.2 k less isFirst.1
          have order' : ¬ k' < k := fun less => isFirst.2 k' less isFirst'.1
          rw [Nat.le_antisymm (Nat.le_of_not_lt order') (Nat.le_of_not_lt order)]

end Occurrence

end Matching
