import Stroopwafel.Memory

set_option autoImplicit false

namespace Stroopwafel.Udelay

open Memory

/-- A loop over the reads `timer k`, the first of them with the index `k` and `fuel` of them at
most, with the index of the read that ends it. -/
def pollWhile (more : Word → Prop) [DecidablePred more] (timer : Nat → Word) :
    Nat → Nat → Option Nat
  | 0, _ => none
  | fuel + 1, k => if more (timer k) then pollWhile more timer fuel (k + 1) else some k

/-- The index of the last read before the return. -/
def udelay (d : Word) (timer : Nat → Word) (fuel : Nat) : Option Nat :=
  let ticks := d * 19#32 / 10#32
  let ticks := if ticks < 2#32 then 2#32 else ticks
  let now := timer 0
  let stop := now + ticks
  if stop < now then do
    let k ← pollWhile (fun read => read ≥ now) timer fuel 1
    -- the read behind the loop is another one
    pollWhile (fun now => now < stop) timer fuel (k + 1)
  else pollWhile (fun now => now < stop) timer fuel 0

/-- The polls of a free-running timer: the ticks since the first of them. -/
structure Polls where
  start : Word
  elapsed : Nat → Nat
  first : elapsed 0 = 0
  mono : ∀ k, elapsed k ≤ elapsed (k + 1)
  near : ∀ k, elapsed (k + 1) < elapsed k + 2 ^ 31

/-- What the polls read. -/
def Polls.timer (p : Polls) (k : Nat) : Word := p.start + BitVec.ofNat 32 (p.elapsed k)

def delayTicks (d : Word) : Nat := max 2 (19 * d.toNat / 10)

/-- The return is not before the ticks have elapsed, and at the latest with the second poll from
then on. -/
def OnTime (d : Word) (p : Polls) : Prop :=
  (∀ fuel k, udelay d p.timer fuel = some k → delayTicks d ≤ p.elapsed k) ∧
    ∀ i, delayTicks d ≤ p.elapsed i → ∃ fuel k, k ≤ i + 1 ∧ udelay d p.timer fuel = some k

/-- The first poll behind the deadline comes before the timer wraps. -/
def Caught (d : Word) (p : Polls) : Prop :=
  ∀ i, (∀ j < i, p.elapsed j < delayTicks d) → delayTicks d ≤ p.elapsed i →
    p.start.toNat + p.elapsed i < 2 ^ 32

section Loop

variable (more : Word → Prop) [DecidablePred more] (timer : Nat → Word)

theorem pollWhile_eq_some_iff (fuel k j : Nat) :
    pollWhile more timer fuel k = some j ↔
      k ≤ j ∧ j < k + fuel ∧ ¬ more (timer j) ∧ ∀ l, k ≤ l → l < j → more (timer l) := by
  induction fuel generalizing k with
  | zero =>
      simp only [pollWhile, reduceCtorEq, false_iff]
      omega
  | succ fuel ih =>
      unfold pollWhile
      by_cases again : more (timer k)
      · rw [if_pos again, ih]
        constructor
        · rintro ⟨lower, upper, ends, before⟩
          refine ⟨by omega, by omega, ends, fun l above below => ?_⟩
          rcases Nat.eq_or_lt_of_le above with rfl | later
          · exact again
          · exact before l later below
        · rintro ⟨lower, upper, ends, before⟩
          have other : k ≠ j := by
            rintro rfl
            exact ends again
          exact ⟨by omega, by omega, ends, fun l above below => before l (by omega) below⟩
      · rw [if_neg again]
        constructor
        · intro same
          obtain rfl := Option.some.inj same
          exact ⟨Nat.le_refl k, by omega, again, by omega⟩
        · rintro ⟨lower, _, _, before⟩
          rcases Nat.eq_or_lt_of_le lower with rfl | later
          · rfl
          · exact absurd (before k (Nat.le_refl k) later) again

/-- The loop ends at a read that ends it, or before. -/
theorem pollWhile_ends (k j : Nat) (lower : k ≤ j) (ends : ¬ more (timer j)) (fuel : Nat)
    (enough : j < k + fuel) : ∃ i, i ≤ j ∧ pollWhile more timer fuel k = some i := by
  induction fuel generalizing k with
  | zero => omega
  | succ fuel ih =>
      unfold pollWhile
      by_cases again : more (timer k)
      · have other : k ≠ j := by
          rintro rfl
          exact ends again
        rw [if_pos again]
        exact ih (k + 1) (by omega) (by omega)
      · rw [if_neg again]
        exact ⟨k, lower, rfl⟩

end Loop

section Time

variable {d : Word} {p : Polls}

theorem Polls.mono_le (p : Polls) {i j : Nat} (order : i ≤ j) : p.elapsed i ≤ p.elapsed j := by
  induction j with
  | zero =>
      obtain rfl := Nat.le_zero.mp order
      exact Nat.le_refl _
  | succ j ih =>
      rcases Nat.eq_or_lt_of_le order with rfl | less
      · exact Nat.le_refl _
      · exact Nat.le_trans (ih (Nat.le_of_lt_succ less)) (p.mono j)

theorem Polls.timer_toNat (p : Polls) (k : Nat) :
    (p.timer k).toNat = (p.start.toNat + p.elapsed k) % 2 ^ 32 := by
  unfold timer
  rw [BitVec.toNat_add, BitVec.toNat_ofNat, Nat.add_mod_mod]

theorem ticks_toNat (small : 19 * d.toNat < 2 ^ 32) :
    (if d * 19#32 / 10#32 < 2#32 then 2#32 else d * 19#32 / 10#32).toNat = delayTicks d := by
  have product : (d * 19#32 / 10#32).toNat = 19 * d.toNat / 10 := by
    rw [BitVec.toNat_udiv, BitVec.toNat_mul]
    simp only [BitVec.toNat_ofNat, Nat.reducePow, Nat.reduceMod]
    rw [Nat.mod_eq_of_lt (by omega), Nat.mul_comm]
  unfold delayTicks
  by_cases few : d * 19#32 / 10#32 < 2#32
  · rw [if_pos few]
    rw [BitVec.lt_def, product] at few
    simp only [BitVec.toNat_ofNat, Nat.reducePow, Nat.reduceMod] at few ⊢
    omega
  · rw [if_neg few, product]
    rw [BitVec.lt_def, product] at few
    simp only [BitVec.toNat_ofNat, Nat.reducePow, Nat.reduceMod] at few
    omega

theorem delayTicks_lt (small : 19 * d.toNat < 2 ^ 32) : delayTicks d < 2 ^ 31 := by
  unfold delayTicks
  omega

/-- The first poll behind the deadline. -/
theorem exists_first (i : Nat) (past : delayTicks d ≤ p.elapsed i) :
    ∃ k, k ≤ i ∧ delayTicks d ≤ p.elapsed k ∧ ∀ j < k, p.elapsed j < delayTicks d := by
  induction i with
  | zero => exact ⟨0, Nat.le_refl 0, past, fun j less => absurd less (Nat.not_lt_zero j)⟩
  | succ i ih =>
      by_cases earlier : delayTicks d ≤ p.elapsed i
      · obtain ⟨k, order, here, before⟩ := ih earlier
        exact ⟨k, by omega, here, before⟩
      · refine ⟨i + 1, Nat.le_refl _, past, fun j less => ?_⟩
        have upTo := p.mono_le (Nat.le_of_lt_succ less)
        omega

/-- The word `then`. -/
def deadline (d : Word) (p : Polls) : Word := p.start + BitVec.ofNat 32 (delayTicks d)

theorem deadline_toNat : (deadline d p).toNat = (p.start.toNat + delayTicks d) % 2 ^ 32 := by
  unfold deadline
  rw [BitVec.toNat_add, BitVec.toNat_ofNat, Nat.add_mod_mod]

theorem udelay_eq (small : 19 * d.toNat < 2 ^ 32) (fuel : Nat) :
    udelay d p.timer fuel =
      if deadline d p < p.start then
        (pollWhile (fun read => read ≥ p.start) p.timer fuel 1).bind fun k =>
          pollWhile (fun now => now < deadline d p) p.timer fuel (k + 1)
      else pollWhile (fun now => now < deadline d p) p.timer fuel 0 := by
  have first : p.timer 0 = p.start := by
    rw [Polls.timer, p.first, BitVec.add_zero]
  have ticks : (if d * 19#32 / 10#32 < 2#32 then 2#32 else d * 19#32 / 10#32) =
      BitVec.ofNat 32 (delayTicks d) := by
    apply BitVec.eq_of_toNat_eq
    have bound := delayTicks_lt small
    rw [ticks_toNat small, BitVec.toNat_ofNat, Nat.mod_eq_of_lt (by omega)]
  unfold udelay
  simp only [ticks, first]
  rfl

/-- A poll with a value below the start comes behind the wrap. -/
theorem wrapped_of_lt {k : Nat} (below : p.timer k < p.start) :
    2 ^ 32 ≤ p.start.toNat + p.elapsed k := by
  rw [BitVec.lt_def, p.timer_toNat] at below
  omega

section Straight

variable (small : 19 * d.toNat < 2 ^ 32) (fits : p.start.toNat + delayTicks d < 2 ^ 32)
include fits

theorem straight_past {k : Nat} (past : ¬ p.timer k < deadline d p) :
    delayTicks d ≤ p.elapsed k := by
  have wrap := p.start.isLt
  rw [BitVec.lt_def, p.timer_toNat, deadline_toNat, Nat.mod_eq_of_lt fits] at past
  omega

include small

theorem straight_eq (fuel : Nat) :
    udelay d p.timer fuel = pollWhile (fun now => now < deadline d p) p.timer fuel 0 := by
  rw [udelay_eq small, if_neg]
  rw [BitVec.lt_def, deadline_toNat, Nat.mod_eq_of_lt fits]
  omega

/-- The deadline is seen by the poll that first has it, or not before the timer has made a lap. -/
theorem straight_iff :
    (∀ i, delayTicks d ≤ p.elapsed i → ∃ fuel k, k ≤ i + 1 ∧ udelay d p.timer fuel = some k) ↔
      Caught d p := by
  constructor
  · intro returns i before past
    obtain ⟨fuel, k, order, result⟩ := returns i past
    rw [straight_eq small fits, pollWhile_eq_some_iff] at result
    obtain ⟨_, _, ends, _⟩ := result
    have elapsed := straight_past fits ends
    have lower : i ≤ k := by
      apply Nat.le_of_not_lt
      intro less
      exact absurd elapsed (Nat.not_le_of_lt (before k less))
    -- the poll before was not behind the deadline, so the second from it is less than a lap ahead
    have positive : 1 ≤ i := by
      apply Nat.pos_of_ne_zero
      rintro rfl
      rw [p.first] at past
      unfold delayTicks at past
      omega
    obtain ⟨i, rfl⟩ := Nat.exists_eq_add_of_le' positive
    have previous := before i (by omega)
    have bound := delayTicks_lt small
    have near := p.near i
    have near' := p.near (i + 1)
    rw [BitVec.lt_def, p.timer_toNat, deadline_toNat, Nat.mod_eq_of_lt fits] at ends
    rcases (by omega : k = i + 1 ∨ k = i + 1 + 1) with rfl | rfl
    · omega
    · have later := p.mono (i + 1)
      omega
  · intro caught i past
    obtain ⟨first, order, here, before⟩ := exists_first i past
    have ends : ¬ p.timer first < deadline d p := by
      rw [BitVec.lt_def, p.timer_toNat, deadline_toNat, Nat.mod_eq_of_lt fits,
        Nat.mod_eq_of_lt (caught first before here)]
      omega
    obtain ⟨k, upper, result⟩ := pollWhile_ends (fun now => now < deadline d p) p.timer 0 first
      (Nat.zero_le first) ends (first + 1) (by omega)
    refine ⟨first + 1, k, by omega, ?_⟩
    rw [straight_eq small fits]
    exact result

end Straight

section Wrap

variable (small : 19 * d.toNat < 2 ^ 32) (wraps : 2 ^ 32 ≤ p.start.toNat + delayTicks d)
include small wraps

theorem wrap_deadline :
    (deadline d p).toNat = p.start.toNat + delayTicks d - 2 ^ 32 ∧ deadline d p < p.start := by
  have bound := delayTicks_lt small
  have start := p.start.isLt
  have value : (deadline d p).toNat = p.start.toNat + delayTicks d - 2 ^ 32 := by
    rw [deadline_toNat]
    omega
  refine ⟨value, ?_⟩
  rw [BitVec.lt_def, value]
  omega

theorem wrap_eq (fuel : Nat) :
    udelay d p.timer fuel = (pollWhile (fun read => read ≥ p.start) p.timer fuel 1).bind fun k =>
      pollWhile (fun now => now < deadline d p) p.timer fuel (k + 1) := by
  rw [udelay_eq small, if_pos (wrap_deadline small wraps).2]

theorem wrap_not_early (fuel k : Nat) (result : udelay d p.timer fuel = some k) :
    delayTicks d ≤ p.elapsed k := by
  rw [wrap_eq small wraps, Option.bind_eq_some_iff] at result
  obtain ⟨j, wrapped, waited⟩ := result
  rw [pollWhile_eq_some_iff] at wrapped waited
  have behind := wrapped_of_lt (BitVec.not_le.mp wrapped.2.2.1)
  have later := p.mono_le (show j ≤ k by omega)
  have ends := waited.2.2.1
  have bound := delayTicks_lt small
  have start := p.start.isLt
  rw [BitVec.lt_def, p.timer_toNat, (wrap_deadline small wraps).1] at ends
  omega

/-- The return comes with the next poll, where the poll that first has the deadline ends the first
loop, and with that poll otherwise. -/
theorem wrap_returns (i : Nat) (past : delayTicks d ≤ p.elapsed i) :
    ∃ fuel k, k ≤ i + 1 ∧ udelay d p.timer fuel = some k := by
  obtain ⟨first, order, here, before⟩ := exists_first i past
  obtain ⟨value, _⟩ := wrap_deadline small wraps
  have bound := delayTicks_lt small
  have start := p.start.isLt
  have positive : 1 ≤ first := by
    apply Nat.pos_of_ne_zero
    rintro rfl
    rw [p.first] at here
    unfold delayTicks at here
    omega
  obtain ⟨previous, rfl⟩ := Nat.exists_eq_add_of_le' positive
  have less := before previous (by omega)
  have near := p.near previous
  have near' : p.elapsed (previous + 2) < p.elapsed (previous + 1) + 2 ^ 31 := p.near (previous + 1)
  have ends : ¬ p.timer (previous + 1) ≥ p.start := by
    rw [ge_iff_le, BitVec.le_def, p.timer_toNat]
    omega
  obtain ⟨j, upper, wrapped⟩ := pollWhile_ends (fun read => read ≥ p.start) p.timer 1
    (previous + 1) (by omega) ends (previous + 3) (by omega)
  have seen : ∃ k, j + 1 ≤ k ∧ k ≤ previous + 2 ∧ ¬ p.timer k < deadline d p := by
    rcases Nat.eq_or_lt_of_le upper with rfl | less'
    · -- the poll before was not below the start, and not behind the wrap
      have before' : previous = 0 ∨ p.start ≤ p.timer previous := by
        rcases Nat.eq_zero_or_pos previous with zero | some
        · exact .inl zero
        · rw [pollWhile_eq_some_iff] at wrapped
          exact .inr (wrapped.2.2.2 previous some (Nat.lt_succ_self previous))
      have unwrapped : p.start.toNat + p.elapsed previous < 2 ^ 32 := by
        rcases before' with rfl | above
        · rw [p.first]
          exact start
        · rw [BitVec.le_def, p.timer_toNat] at above
          omega
      refine ⟨previous + 2, Nat.le_refl _, Nat.le_refl _, ?_⟩
      have later : p.elapsed (previous + 1) ≤ p.elapsed (previous + 2) := p.mono (previous + 1)
      rw [BitVec.lt_def, p.timer_toNat, value]
      omega
    · refine ⟨previous + 1, less', by omega, ?_⟩
      rw [BitVec.lt_def, p.timer_toNat, value]
      omega
  obtain ⟨k, lower, within, past'⟩ := seen
  obtain ⟨last, final, waited⟩ := pollWhile_ends (fun now => now < deadline d p) p.timer (j + 1)
    k lower past' (previous + 3) (by omega)
  refine ⟨previous + 3, last, by omega, ?_⟩
  rw [wrap_eq small wraps, wrapped, Option.bind_some]
  exact waited

end Wrap

/-- The delay is on time exactly when the deadline is behind a wrap of the timer, or a poll that has
it comes before the timer wraps. -/
theorem udelay_onTime_iff (d : Word) (p : Polls) (small : 19 * d.toNat < 2 ^ 32) :
    OnTime d p ↔ 2 ^ 32 ≤ p.start.toNat + delayTicks d ∨ Caught d p := by
  unfold OnTime
  by_cases wraps : 2 ^ 32 ≤ p.start.toNat + delayTicks d
  · exact ⟨fun _ => .inl wraps, fun _ => ⟨wrap_not_early small wraps, wrap_returns small wraps⟩⟩
  · have fits := Nat.lt_of_not_le wraps
    have notEarly : ∀ fuel k, udelay d p.timer fuel = some k → delayTicks d ≤ p.elapsed k := by
      intro fuel k result
      rw [straight_eq small fits, pollWhile_eq_some_iff] at result
      exact straight_past fits result.2.2.1
    rw [and_iff_right notEarly, straight_iff small fits, or_iff_right wraps]

/-- One tick passes from one poll to the next. -/
def steady (start : Word) : Polls where
  start := start
  elapsed k := k
  first := rfl
  mono k := Nat.le_succ k
  near k := by omega

/-- The deadline is behind the wrap, which is between the first two polls. -/
theorem udelay_onTime_iff_steady :
    OnTime 1#32 (steady 0xFFFFFFFF#32) ↔
      2 ^ 32 ≤ (steady 0xFFFFFFFF#32).start.toNat + delayTicks 1#32 ∨
        Caught 1#32 (steady 0xFFFFFFFF#32) :=
  udelay_onTime_iff 1#32 (steady 0xFFFFFFFF#32) (by decide)

/-- Four ticks pass from one poll to the next, and the timer wraps behind the deadline. -/
def coarse : Polls where
  start := 0xFFFFFFFD#32
  elapsed k := 4 * k
  first := rfl
  mono k := by omega
  near k := by omega

/-- The first poll behind the deadline has the value 1, and the deadline is 0xFFFFFFFF. -/
theorem coarse_missed : ¬ OnTime 1#32 coarse := by
  rintro ⟨_, returns⟩
  obtain ⟨fuel, k, order, result⟩ := returns 1 (by decide)
  rw [udelay_eq (by decide), if_neg (by decide), pollWhile_eq_some_iff] at result
  have ends := result.2.2.1
  rcases (by omega : k = 0 ∨ k = 1 ∨ k = 2) with rfl | rfl | rfl
  · exact ends (by decide)
  · exact ends (by decide)
  · exact ends (by decide)

end Time

end Stroopwafel.Udelay
