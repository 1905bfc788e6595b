import Stroopwafel.Memory

set_option autoImplicit false

/- Address translation by the first matching segment of an unsorted list, for a
match that takes the upper bound of a range as inside. -/
namespace Segments

open Memory

structure Segment where
  vaddr : Word
  paddr : Word
  memsz : Word
  deriving DecidableEq

namespace Segment

/-- The half-open range `[vaddr, vaddr + memsz)`. -/
def Covers (s : Segment) (x : Word) : Prop :=
  s.vaddr.toNat ≤ x.toNat ∧ x.toNat < s.vaddr.toNat + s.memsz.toNat

/-- The closed range, with its end computed in 32 bits. -/
def Matches (s : Segment) (x : Word) : Prop := s.vaddr ≤ x ∧ x ≤ s.vaddr + s.memsz

/-- `x` is the first address behind the range. -/
def EndsAt (s : Segment) (x : Word) : Prop := s.vaddr ≤ x ∧ s.vaddr + s.memsz = x

/-- The range is a range of 32-bit addresses. It may end at `2 ^ 32`. -/
def Bounded (s : Segment) : Prop := s.vaddr.toNat + s.memsz.toNat ≤ 2 ^ 32

/-- The end of the range is itself an address. -/
def BelowTop (s : Segment) : Prop := s.vaddr.toNat + s.memsz.toNat < 2 ^ 32

def displacement (s : Segment) : Word := s.paddr - s.vaddr

def translate (s : Segment) (x : Word) : Word := x - s.vaddr + s.paddr

instance (s : Segment) (x : Word) : Decidable (s.Covers x) := inferInstanceAs (Decidable (_ ∧ _))
instance (s : Segment) (x : Word) : Decidable (s.Matches x) := inferInstanceAs (Decidable (_ ∧ _))
instance (s : Segment) (x : Word) : Decidable (s.EndsAt x) := inferInstanceAs (Decidable (_ ∧ _))
instance (s : Segment) : Decidable s.BelowTop := inferInstanceAs (Decidable (_ < _))

theorem translate_eq (s : Segment) (x : Word) : s.translate x = x + s.displacement := by
  simp only [translate, displacement]
  bv_omega

theorem translate_eq_iff (s t : Segment) (x : Word) :
    s.translate x = t.translate x ↔ s.displacement = t.displacement := by
  rw [translate_eq, translate_eq]
  constructor
  · intro same
    bv_omega
  · intro same
    rw [same]

theorem translate_self_iff (s : Segment) (x : Word) :
    s.translate x = x ↔ s.displacement = 0#32 := by
  rw [translate_eq]
  constructor
  · intro same
    bv_omega
  · intro zero
    rw [zero, BitVec.add_zero]

/-- Inside a range the closed test only fails when its bound wraps to zero. -/
theorem matches_of_covers (s : Segment) (x : Word) (bounded : s.Bounded) (covers : s.Covers x) :
    s.Matches x ↔ s.BelowTop := by
  simp only [Bounded, Covers, Matches, BelowTop] at bounded covers ⊢
  bv_omega

/-- Outside its range a segment only matches at its end. -/
theorem matches_of_not_covers (s : Segment) (x : Word) (outside : ¬ s.Covers x) :
    s.Matches x ↔ s.EndsAt x := by
  simp only [Covers, Matches, EndsAt] at outside ⊢
  bv_omega

end Segment

def Disjoint (s t : Segment) : Prop := ∀ x, ¬ (s.Covers x ∧ t.Covers x)

/-- One range ends before the other starts. -/
def Ordered (s t : Segment) : Prop :=
  s.vaddr.toNat + s.memsz.toNat ≤ t.vaddr.toNat ∨ t.vaddr.toNat + t.memsz.toNat ≤ s.vaddr.toNat

instance (s t : Segment) : Decidable (Ordered s t) := inferInstanceAs (Decidable (_ ∨ _))

theorem Ordered.disjoint {s t : Segment} (order : Ordered s t) : Disjoint s t := by
  intro x
  simp only [Ordered, Segment.Covers] at *
  omega

def firstMatch : List Segment → Word → Word
  | [], x => x
  | s :: rest, x => if s.Matches x then s.translate x else firstMatch rest x

theorem firstMatch_eq_find (segments : List Segment) (x : Word) :
    firstMatch segments x =
      ((segments.find? fun s => decide (s.Matches x)).map fun s => s.translate x).getD x := by
  induction segments with
  | nil => rfl
  | cons s rest ih =>
      rw [firstMatch, List.find?_cons]
      by_cases hit : s.Matches x
      · simp [hit]
      · simp [hit, ih]

/-- The first segment of the list that ends exactly at `x`. -/
def firstEnding (segments : List Segment) (x : Word) : Option Segment :=
  segments.find? fun s => decide (s.EndsAt x)

/-- No segment that is tried before `owner` ends at `x` with another displacement.
An owner that ends at `2 ^ 32` is never matched itself: there every other segment
is tried, and the fallback is the identity. -/
def Undisturbed (before : List Segment) (owner : Segment) (after : List Segment) (x : Word) :
    Prop :=
  if owner.BelowTop then
    ∀ s, firstEnding before x = some s → s.displacement = owner.displacement
  else
    match firstEnding (before ++ after) x with
    | some s => s.displacement = owner.displacement
    | none => owner.displacement = 0#32

theorem find_matches_eq_firstEnding (segments : List Segment) (x : Word)
    (outside : ∀ s ∈ segments, ¬ s.Covers x) :
    (segments.find? fun s => decide (s.Matches x)) = firstEnding segments x := by
  induction segments with
  | nil => rfl
  | cons s rest ih =>
      have head := s.matches_of_not_covers x (outside s (by simp))
      have tail := ih fun t member => outside t (by simp [member])
      simp only [firstEnding, List.find?_cons, head, tail]

/-- An address is translated by the segment it belongs to exactly when no end of
another segment intercepts it. -/
theorem firstMatch_eq_translate_iff (before after : List Segment) (owner : Segment) (x : Word)
    (bounded : owner.Bounded) (disjoint : (before ++ owner :: after).Pairwise Disjoint)
    (covers : owner.Covers x) :
    firstMatch (before ++ owner :: after) x = owner.translate x ↔
      Undisturbed before owner after x := by
  have outsideBefore : ∀ s ∈ before, ¬ s.Covers x := by
    intro s member inside
    have apart := (List.pairwise_append.mp disjoint).2.2 s member owner (by simp)
    exact apart x ⟨inside, covers⟩
  have outsideAfter : ∀ s ∈ after, ¬ s.Covers x := by
    intro s member inside
    have tail := (List.pairwise_append.mp disjoint).2.1
    exact (List.pairwise_cons.mp tail).1 s member x ⟨covers, inside⟩
  have owned := owner.matches_of_covers x bounded covers
  rw [firstMatch_eq_find, List.find?_append, List.find?_cons,
    find_matches_eq_firstEnding before x outsideBefore,
    find_matches_eq_firstEnding after x outsideAfter]
  by_cases belowTop : owner.BelowTop
  · have hit : decide (owner.Matches x) = true := by simpa using owned.mpr belowTop
    simp only [hit, Undisturbed, belowTop, if_true]
    cases ending : firstEnding before x with
    | none => simp
    | some s => simpa using s.translate_eq_iff owner x
  · have miss : decide (owner.Matches x) = false := by
      simpa using fun hit => belowTop (owned.mp hit)
    have joined : firstEnding (before ++ after) x =
        (firstEnding before x).or (firstEnding after x) := List.find?_append
    simp only [miss, Undisturbed, belowTop, if_false, joined]
    cases (firstEnding before x).or (firstEnding after x) with
    | none => simpa [eq_comm] using owner.translate_self_iff x
    | some s => simpa using s.translate_eq_iff owner x

/-- Every address of every segment is undisturbed. -/
def Clear (segments : List Segment) : Prop :=
  ∀ before owner after x, segments = before ++ owner :: after → owner.Covers x →
    Undisturbed before owner after x

theorem firstMatch_correct_iff (segments : List Segment) (bounded : ∀ s ∈ segments, s.Bounded)
    (disjoint : segments.Pairwise Disjoint) :
    (∀ owner ∈ segments, ∀ x, owner.Covers x → firstMatch segments x = owner.translate x) ↔
      Clear segments := by
  constructor
  · rintro correct before owner after x rfl covers
    have member : owner ∈ before ++ owner :: after := by simp
    exact (firstMatch_eq_translate_iff before after owner x (bounded owner member) disjoint
      covers).mp (correct owner member x covers)
  · intro clear owner member x covers
    obtain ⟨before, after, rfl⟩ := List.append_of_mem member
    exact (firstMatch_eq_translate_iff before after owner x (bounded owner member) disjoint
      covers).mpr (clear before owner after x rfl covers)

end Segments
