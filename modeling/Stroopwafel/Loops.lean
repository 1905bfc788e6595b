import Mathlib.Algebra.Group.Int.Defs
import Mathlib.Algebra.GroupWithZero.Nat

set_option autoImplicit false

/- Invariants of counted loops that can fail. -/
namespace Loops

section Counted

variable {σ : Type}

/-- `for (i = 0; i < n; i++)` -/
theorem foldlM_range (f : σ → Nat → Option σ) (inv : Nat → σ → Prop) (n : Nat) (start : σ)
    (init : inv 0 start)
    (step : ∀ i < n, ∀ s, inv i s → ∃ s', f s i = some s' ∧ inv (i + 1) s') :
    ∃ s, (List.range n).foldlM f start = some s ∧ inv n s := by
  induction n with
  | zero => exact ⟨start, rfl, init⟩
  | succ n ih =>
      obtain ⟨s, ran, holds⟩ := ih fun i below => step i (Nat.lt_succ_of_lt below)
      obtain ⟨s', last, kept⟩ := step n (Nat.lt_succ_self n) s holds
      refine ⟨s', ?_, kept⟩
      rw [List.range_succ, List.foldlM_append, ran]
      simp only [Option.bind_eq_bind, Option.bind_some, List.foldlM_cons, last]
      rfl

/-- `for (i = n - 1; i >= 0; i--)` -/
theorem foldlM_range_reverse (f : σ → Nat → Option σ) (inv : Nat → σ → Prop) (n : Nat)
    (start : σ) (init : inv n start)
    (step : ∀ i < n, ∀ s, inv (i + 1) s → ∃ s', f s i = some s' ∧ inv i s') :
    ∃ s, (List.range n).reverse.foldlM f start = some s ∧ inv 0 s := by
  induction n generalizing start with
  | zero => exact ⟨start, rfl, init⟩
  | succ n ih =>
      obtain ⟨s, first, kept⟩ := step n (Nat.lt_succ_self n) start init
      obtain ⟨s', ran, holds⟩ := ih s kept fun i below => step i (Nat.lt_succ_of_lt below)
      refine ⟨s', ?_, holds⟩
      rw [List.range_succ, List.reverse_append, List.reverse_singleton, List.singleton_append,
        List.foldlM_cons, first]
      exact ran

end Counted

/-- A loop over a list changes the element that it has come to. -/
theorem modify_append {α : Type} (front back : List α) (a : α) (f : α → α) :
    (front ++ a :: back).modify front.length f = front ++ f a :: back := by
  induction front with
  | nil => rfl
  | cons b front ih => simp only [List.cons_append, List.length_cons, List.modify_succ_cons, ih]

end Loops
