import Stroopwafel.Memory

set_option autoImplicit false

/- Loops over 32-bit addresses that may break, and their invariants. -/
namespace Scan

open Memory

section Loop

variable {σ : Type}

/-- `for (a = start; more; a = next)`. The body says with `done` that the loop breaks. `fuel` has to
be more than the rounds. -/
def forLoop (more : Word → Bool) (next : Word → Word)
    (body : Word → σ → Option (ForInStep σ)) : Nat → Word → σ → Option σ
  | 0, _, _ => none
  | fuel + 1, a, s =>
      if more a then
        match body a s with
        | none => none
        | some (.done s') => some s'
        | some (.yield s') => forLoop more next body fuel (next a) s'
      else some s

/-- `for (a = start; a < stop; a += stride)` -/
def scan (stop stride : Word) : (Word → σ → Option (ForInStep σ)) → Nat → Word → σ → Option σ :=
  forLoop (fun a => a < stop) (fun a => a + stride)

/-- `for (a = start; a >= stop; a -= stride)` -/
def scanDown (stop stride : Word) :
    (Word → σ → Option (ForInStep σ)) → Nat → Word → σ → Option σ :=
  forLoop (fun a => stop ≤ a) (fun a => a - stride)

variable (body : Word → σ → Option (ForInStep σ))

section Rule

variable (more : Word → Bool) (next : Word → Word)

theorem forLoop_past (fuel : Nat) (a : Word) (s : σ) (enough : 0 < fuel) (past : more a = false) :
    forLoop more next body fuel a s = some s := by
  obtain ⟨fuel, rfl⟩ := Nat.exists_eq_add_of_le' enough
  unfold forLoop
  rw [past]
  rfl

/-- The invariant of a loop with `n` rounds, and what holds behind it, also after a break. -/
theorem forLoop_ok (address : Nat → Word) (n fuel : Nat) (enough : n < fuel)
    (forward : ∀ i < n, more (address i) = true ∧ next (address i) = address (i + 1))
    (past : more (address n) = false) (inv : Nat → σ → Prop) (post : σ → Prop) (s : σ)
    (init : inv 0 s)
    (round : ∀ i < n, ∀ s, inv i s →
      (∃ s', body (address i) s = some (.yield s') ∧ inv (i + 1) s') ∨
      ∃ s', body (address i) s = some (.done s') ∧ post s')
    (finish : ∀ s, inv n s → post s) :
    ∃ s', forLoop more next body fuel (address 0) s = some s' ∧ post s' := by
  -- `k` rounds are left at index `i`
  have rounds : ∀ k i s fuel, i + k = n → k < fuel → inv i s →
      ∃ s', forLoop more next body fuel (address i) s = some s' ∧ post s' := by
    intro k
    induction k with
    | zero =>
        intro i s fuel whole enough holds
        have last : i = n := whole
        rw [last] at holds ⊢
        exact ⟨s, forLoop_past body more next fuel _ s enough past, finish s holds⟩
    | succ k ih =>
        intro i s fuel whole enough holds
        obtain ⟨fuel, rfl⟩ := Nat.exists_eq_add_of_le' (show 1 ≤ fuel by omega)
        obtain ⟨goes, step⟩ := forward i (by omega)
        unfold forLoop
        rw [if_pos goes]
        rcases round i (by omega) s holds with ⟨s', result, kept⟩ | ⟨s', result, done⟩
        · obtain ⟨s'', ran, reached⟩ := ih (i + 1) s' fuel (by omega) (by omega) kept
          refine ⟨s'', ?_, reached⟩
          rw [result, step]
          exact ran
        · refine ⟨s', ?_, done⟩
          rw [result]
  exact rounds n 0 s fuel (Nat.zero_add n) enough init

end Rule

variable (stop stride start : Word) (n fuel : Nat)

theorem scan_past (s : σ) (enough : 0 < fuel) (past : stop.toNat ≤ start.toNat) :
    scan stop stride body fuel start s = some s := by
  apply forLoop_past body _ _ fuel start s enough
  rw [decide_eq_false]
  bv_omega

theorem scan_ok (enough : n < fuel) (positive : 0 < stride.toNat)
    (range : start.toNat + stride.toNat * n = stop.toNat) (inv : Nat → σ → Prop)
    (post : σ → Prop) (s : σ) (init : inv 0 s)
    (round : ∀ i < n, ∀ s, inv i s →
      (∃ s', body (start + BitVec.ofNat 32 (stride.toNat * i)) s = some (.yield s') ∧
        inv (i + 1) s') ∨
      ∃ s', body (start + BitVec.ofNat 32 (stride.toNat * i)) s = some (.done s') ∧ post s')
    (finish : ∀ s, inv n s → post s) :
    ∃ s', scan stop stride body fuel start s = some s' ∧ post s' := by
  have ran := forLoop_ok body (fun a => a < stop) (fun a => a + stride)
    (fun i => start + BitVec.ofNat 32 (stride.toNat * i)) n fuel enough ?_ ?_ inv post s init round
    finish
  · rwa [Nat.mul_zero, BitVec.add_zero] at ran
  · intro i inside
    have room : stride.toNat * (i + 1) ≤ stride.toNat * n := Nat.mul_le_mul_left _ inside
    rw [Nat.mul_succ] at room ⊢
    constructor
    · apply decide_eq_true
      bv_omega
    · bv_omega
  · apply decide_eq_false
    bv_omega

/-- The lowest address that the loop looks at is `stop`. -/
theorem scanDown_ok (enough : n + 1 < fuel) (positive : 0 < stride.toNat)
    (range : stop.toNat + stride.toNat * n = start.toNat) (room : stride.toNat ≤ stop.toNat)
    (inv : Nat → σ → Prop) (post : σ → Prop) (s : σ) (init : inv 0 s)
    (round : ∀ i < n + 1, ∀ s, inv i s →
      (∃ s', body (start - BitVec.ofNat 32 (stride.toNat * i)) s = some (.yield s') ∧
        inv (i + 1) s') ∨
      ∃ s', body (start - BitVec.ofNat 32 (stride.toNat * i)) s = some (.done s') ∧ post s')
    (finish : ∀ s, inv (n + 1) s → post s) :
    ∃ s', scanDown stop stride body fuel start s = some s' ∧ post s' := by
  have ran := forLoop_ok body (fun a => stop ≤ a) (fun a => a - stride)
    (fun i => start - BitVec.ofNat 32 (stride.toNat * i)) (n + 1) fuel enough ?_ ?_ inv post s init
    round finish
  · rwa [Nat.mul_zero, BitVec.sub_zero] at ran
  · intro i inside
    have within : stride.toNat * i ≤ stride.toNat * n :=
      Nat.mul_le_mul_left _ (Nat.le_of_lt_succ inside)
    rw [Nat.mul_succ]
    constructor
    · apply decide_eq_true
      bv_omega
    · bv_omega
  · apply decide_eq_false
    rw [Nat.mul_succ]
    bv_omega

end Loop

end Scan
