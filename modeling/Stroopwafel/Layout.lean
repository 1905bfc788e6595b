import Mathlib.Algebra.Group.Int.Defs
import Mathlib.Algebra.GroupWithZero.Nat

set_option autoImplicit false

namespace Layout

/-- `f` with the items of `l` from `offset` on. -/
def overlay {α : Type} (f : Nat → α) (offset : Nat) (l : List α) : Nat → α :=
  fun i => if offset ≤ i then (l[i - offset]?).getD (f i) else f i

/-- The first `n` items of `s`, or `s` and as many `zero` as it takes. -/
def padded {α : Type} (zero : α) (n : Nat) (s : List α) : List α :=
  (List.range n).map fun i => (s[i]?).getD zero

/-- A piece of a record: a terminated text with room for `bound` items before the terminator,
or items of a fixed number. -/
inductive Piece (α : Type) where
  | text (offset bound : Nat) (s : List α)
  | data (offset : Nat) (l : List α)

section Encode

variable {α : Type} (zero : α)

def Piece.start : Piece α → Nat
  | .text offset _ _ => offset
  | .data offset _ => offset

def Piece.stop : Piece α → Nat
  | .text offset bound _ => offset + bound + 1
  | .data offset l => offset + l.length

/-- The text is cut at its bound, and what is left of the room is cleared. -/
def Piece.bounded (f : Nat → α) : Piece α → Nat → α
  | .text offset bound s => overlay f offset (padded zero bound s)
  | .data offset l => overlay f offset l

/-- The text is stored whole, with its terminator. -/
def Piece.unbounded (f : Nat → α) : Piece α → Nat → α
  | .text offset _ s => overlay f offset (s ++ [zero])
  | .data offset l => overlay f offset l

def Piece.Fits : Piece α → Prop
  | .text _ bound s => s.length ≤ bound
  | .data _ _ => True

def Piece.Nonzero : Piece α → Prop
  | .text _ _ s => zero ∉ s
  | .data _ _ => True

/-- Each field starts where the one before has ended, or later; none ends after `size`. -/
def Ordered (size : Nat) : Nat → List (Piece α) → Prop
  | _, [] => True
  | low, field :: rest =>
      low ≤ field.start ∧ field.stop ≤ size ∧ Ordered size field.stop rest

theorem overlay_before (f : Nat → α) (offset : Nat) (l : List α) (i : Nat) (before : i < offset) :
    overlay f offset l i = f i :=
  if_neg (Nat.not_le_of_lt before)

theorem overlay_after (f : Nat → α) (offset : Nat) (l : List α) (i : Nat)
    (after : offset + l.length ≤ i) : overlay f offset l i = f i := by
  have order : offset ≤ i := by omega
  simp only [overlay, if_pos order, List.getElem?_eq_none (show l.length ≤ i - offset by omega),
    Option.getD_none]

theorem overlay_inside (f : Nat → α) (offset : Nat) (l : List α) (i : Nat)
    (inside : i < l.length) : overlay f offset l (offset + i) = l[i] := by
  have order : offset ≤ offset + i := by omega
  simp only [overlay, if_pos order, Nat.add_sub_cancel_left, List.getElem?_eq_getElem inside,
    Option.getD_some]

theorem overlay_append (f : Nat → α) (offset : Nat) (front back : List α) :
    overlay (overlay f offset front) (offset + front.length) back =
      overlay f offset (front ++ back) := by
  funext i
  by_cases lower : i < offset
  · rw [overlay_before _ _ _ i (by omega), overlay_before _ _ _ i lower,
      overlay_before _ _ _ i lower]
  · obtain ⟨j, rfl⟩ := Nat.exists_eq_add_of_le (Nat.le_of_not_lt lower)
    by_cases inFront : j < front.length
    · rw [overlay_before _ _ _ _ (by omega), overlay_inside _ _ _ _ inFront,
        overlay_inside _ _ _ _ (by rw [List.length_append]; omega),
        List.getElem_append_left inFront]
    · obtain ⟨k, rfl⟩ := Nat.exists_eq_add_of_le (Nat.le_of_not_lt inFront)
      by_cases inBack : k < back.length
      · rw [← Nat.add_assoc, overlay_inside _ _ _ _ inBack, Nat.add_assoc,
          overlay_inside _ _ _ _ (by rw [List.length_append]; omega),
          List.getElem_append_right (Nat.le_add_right _ _)]
        simp only [Nat.add_sub_cancel_left]
      · rw [overlay_after _ _ _ _ (by omega), overlay_after _ _ _ _ (by omega),
          overlay_after _ _ _ _ (by rw [List.length_append]; omega)]

@[simp] theorem padded_length (n : Nat) (s : List α) : (padded zero n s).length = n := by
  simp only [padded, List.length_map, List.length_range]

/-- Where nothing is stored yet, a text that fits is stored the same by both. -/
theorem overlay_padded (f : Nat → α) (offset bound : Nat) (s : List α)
    (fits : s.length ≤ bound) (clear : ∀ i, offset ≤ i → f i = zero) :
    overlay f offset (padded zero bound s) = overlay f offset (s ++ [zero]) := by
  funext i
  by_cases lower : i < offset
  · rw [overlay_before _ _ _ i lower, overlay_before _ _ _ i lower]
  · obtain ⟨j, rfl⟩ := Nat.exists_eq_add_of_le (Nat.le_of_not_lt lower)
    have cleared := clear (offset + j) (Nat.le_add_right _ _)
    have bounded : overlay f offset (padded zero bound s) (offset + j) = (s[j]?).getD zero := by
      by_cases inside : j < bound
      · rw [overlay_inside _ _ _ _ (by simpa using inside)]
        simp only [padded, List.getElem_map, List.getElem_range]
      · rw [overlay_after _ _ _ _ (by rw [padded_length]; omega), cleared,
          List.getElem?_eq_none (by omega), Option.getD_none]
    rw [bounded]
    by_cases inside : j < s.length + 1
    · rw [overlay_inside _ _ _ _ (by simpa using inside), List.getElem_append]
      split
      next char => rw [List.getElem?_eq_getElem char, Option.getD_some]
      next last =>
        rw [List.getElem_singleton, List.getElem?_eq_none (by omega), Option.getD_none]
    · rw [overlay_after _ _ _ _ (by rw [List.length_append]; simp; omega), cleared,
        List.getElem?_eq_none (by omega), Option.getD_none]

theorem bounded_before (f : Nat → α) (field : Piece α) (i : Nat) (before : i < field.start) :
    field.bounded zero f i = f i := by
  cases field <;> exact overlay_before f _ _ i before

theorem unbounded_before (f : Nat → α) (field : Piece α) (i : Nat) (before : i < field.start) :
    field.unbounded zero f i = f i := by
  cases field <;> exact overlay_before f _ _ i before

theorem bounded_after (f : Nat → α) (field : Piece α) (i : Nat) (after : field.stop ≤ i) :
    field.bounded zero f i = f i := by
  cases field with
  | text offset bound s =>
      apply overlay_after
      rw [padded_length]
      exact Nat.le_of_succ_le after
  | data offset l => exact overlay_after f offset l i after

theorem foldl_bounded_before (f : Nat → α) (size low : Nat) (fields : List (Piece α))
    (ordered : Ordered size low fields) (i : Nat) (before : i < low) :
    fields.foldl (Piece.bounded zero) f i = f i := by
  induction fields generalizing f low with
  | nil => rfl
  | cons field rest ih =>
      obtain ⟨start, -, ordered⟩ := ordered
      have width : field.start ≤ field.stop := by
        cases field <;> simp only [Piece.start, Piece.stop] <;> omega
      rw [List.foldl_cons, ih _ field.stop ordered (by omega),
        bounded_before zero f field i (by omega)]

theorem foldl_unbounded_before (f : Nat → α) (size low : Nat) (fields : List (Piece α))
    (ordered : Ordered size low fields) (i : Nat) (before : i < low) :
    fields.foldl (Piece.unbounded zero) f i = f i := by
  induction fields generalizing f low with
  | nil => rfl
  | cons field rest ih =>
      obtain ⟨start, -, ordered⟩ := ordered
      have width : field.start ≤ field.stop := by
        cases field <;> simp only [Piece.start, Piece.stop] <;> omega
      rw [List.foldl_cons, ih _ field.stop ordered (by omega),
        unbounded_before zero f field i (by omega)]

theorem foldl_bounded_clear (f : Nat → α) (size low : Nat) (fields : List (Piece α))
    (ordered : Ordered size low fields) (i : Nat) (clear : f i = zero)
    (after : ∀ field ∈ fields, field.stop ≤ i) : fields.foldl (Piece.bounded zero) f i = zero := by
  induction fields generalizing f low with
  | nil => exact clear
  | cons field rest ih =>
      obtain ⟨-, -, ordered⟩ := ordered
      apply ih _ field.stop ordered
      · rw [bounded_after zero f field i (after field (List.mem_cons_self ..))]
        exact clear
      · exact fun other member => after other (List.mem_cons_of_mem _ member)

/-- Clearing what lies behind the fields does nothing. -/
theorem foldl_bounded_zeros (size low : Nat) (fields : List (Piece α))
    (ordered : Ordered size low fields) (offset count : Nat)
    (after : ∀ field ∈ fields, field.stop ≤ offset) :
    (fields ++ [Piece.data offset (List.replicate count zero)]).foldl (Piece.bounded zero)
        (fun _ => zero) =
      fields.foldl (Piece.bounded zero) (fun _ => zero) := by
  rw [List.foldl_append, List.foldl_cons, List.foldl_nil, Piece.bounded]
  funext i
  by_cases lower : i < offset
  · rw [overlay_before _ _ _ i lower]
  · obtain ⟨j, rfl⟩ := Nat.exists_eq_add_of_le (Nat.le_of_not_lt lower)
    by_cases inside : j < count
    · rw [overlay_inside _ _ _ _ (by simpa using inside), List.getElem_replicate]
      refine (foldl_bounded_clear zero _ size low fields ordered _ rfl ?_).symm
      exact fun field member => Nat.le_trans (after field member) (Nat.le_add_right _ _)
    · rw [overlay_after _ _ _ _ (by rw [List.length_replicate]; omega)]

theorem foldl_agree (f : Nat → α) (size low : Nat) (fields : List (Piece α))
    (ordered : Ordered size low fields) (clear : ∀ i, low ≤ i → f i = zero)
    (fits : ∀ field ∈ fields, field.Fits) :
    fields.foldl (Piece.bounded zero) f = fields.foldl (Piece.unbounded zero) f := by
  induction fields generalizing f low with
  | nil => rfl
  | cons field rest ih =>
      obtain ⟨start, -, ordered⟩ := ordered
      have same : field.bounded zero f = field.unbounded zero f := by
        cases field with
        | text offset bound s =>
            apply overlay_padded zero f offset bound s
            · exact fits _ (List.mem_cons_self ..)
            · exact fun i inside => clear i (Nat.le_trans start inside)
        | data offset l => rfl
      rw [List.foldl_cons, List.foldl_cons, ← same]
      apply ih _ field.stop ordered
      · intro i inside
        have width : field.start ≤ field.stop := by
          cases field <;> simp only [Piece.start, Piece.stop] <;> omega
        rw [bounded_after zero f field i inside]
        exact clear i (by omega)
      · exact fun other member => fits other (List.mem_cons_of_mem _ member)

theorem foldl_fits (f g : Nat → α) (size low : Nat) (fields : List (Piece α))
    (ordered : Ordered size low fields) (clear : ∀ i, low ≤ i → f i = zero)
    (nonzero : ∀ field ∈ fields, field.Nonzero zero)
    (same : ∀ i < size, fields.foldl (Piece.bounded zero) f i =
      fields.foldl (Piece.unbounded zero) g i) (field : Piece α) (member : field ∈ fields) :
    field.Fits := by
  induction fields generalizing f g low with
  | nil => cases member
  | cons first rest ih =>
      obtain ⟨start, stop, ordered⟩ := ordered
      rcases List.mem_cons.mp member with here | there
      · subst here
        cases field with
        | data offset l => exact True.intro
        | text offset bound s =>
            -- The cell of the terminator: only the unbounded copy can have a character there.
            apply Nat.le_of_not_lt
            intro long
            have terminator : offset + bound < Piece.stop (.text offset bound s) :=
              Nat.lt_succ_self _
            have within : low ≤ offset + bound := Nat.le_trans start (Nat.le_add_right _ _)
            have cell := same (offset + bound) (by omega)
            rw [List.foldl_cons, List.foldl_cons,
              foldl_bounded_before zero _ size _ rest ordered _ terminator,
              foldl_unbounded_before zero _ size _ rest ordered _ terminator, Piece.bounded,
              Piece.unbounded, overlay_after _ _ _ _ (by simp only [padded_length, Nat.le_refl]),
              overlay_inside _ _ _ _ (by rw [List.length_append]; omega),
              List.getElem_append_left long, clear (offset + bound) within] at cell
            exact nonzero _ (List.mem_cons_self ..) (cell ▸ List.getElem_mem long)
      · refine ih (first.bounded zero f) (first.unbounded zero g) first.stop ordered ?_ ?_ same
          there
        · intro i inside
          have width : first.start ≤ first.stop := by
            cases first <;> simp only [Piece.start, Piece.stop] <;> omega
          rw [bounded_after zero f first i inside]
          exact clear i (by omega)
        · exact fun other member => nonzero other (List.mem_cons_of_mem _ member)

/-- The two encodings of a record agree exactly when every text fits its room. -/
theorem foldl_agree_iff (size low : Nat) (fields : List (Piece α))
    (ordered : Ordered size low fields) (nonzero : ∀ field ∈ fields, field.Nonzero zero) :
    (∀ i < size, fields.foldl (Piece.bounded zero) (fun _ => zero) i =
      fields.foldl (Piece.unbounded zero) (fun _ => zero) i) ↔ ∀ field ∈ fields, field.Fits := by
  constructor
  · exact fun same => foldl_fits zero _ _ size low fields ordered (fun _ _ => rfl) nonzero same
  · intro fits i _
    rw [foldl_agree zero _ size low fields ordered (fun _ _ => rfl) fits]

end Encode

end Layout
