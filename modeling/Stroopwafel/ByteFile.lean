import Mathlib.Algebra.Group.Int.Defs
import Mathlib.Algebra.GroupWithZero.Nat

set_option autoImplicit false

/- Files with a position that a read and a write move on. -/
namespace ByteFile

variable {α : Type}

structure File (α : Type) where
  content : List α
  pos : Nat

/-- `data` in place of what is at `offset`. What is missing in front of it is filled with `blank`;
no data fills nothing. -/
def overwrite (blank : α) (content : List α) (offset : Nat) (data : List α) : List α :=
  if data.isEmpty then content
  else
    content.take offset ++ List.replicate (offset - content.length) blank ++ data ++
      content.drop (offset + data.length)

def File.seek (f : File α) (pos : Nat) : File α := { f with pos := pos }

/-- At most `n` of what is left. -/
def File.read (f : File α) (n : Nat) : List α × File α :=
  let data := (f.content.drop f.pos).take n
  (data, { f with pos := f.pos + data.length })

def File.write (blank : α) (f : File α) (data : List α) : File α :=
  ⟨overwrite blank f.content f.pos data, f.pos + data.length⟩

/-- What is left from the position on. -/
def File.rest (f : File α) : List α := f.content.drop f.pos

section Read

variable (f : File α) (n : Nat)

@[simp] theorem seek_content (pos : Nat) : (f.seek pos).content = f.content := rfl

@[simp] theorem seek_pos (pos : Nat) : (f.seek pos).pos = pos := rfl

@[simp] theorem read_content : (f.read n).2.content = f.content := rfl

theorem read_data : (f.read n).1 = f.rest.take n := rfl

/-- A read and what it leaves are what was left. -/
theorem read_rest : (f.read n).2.rest = f.rest.drop n := by
  unfold File.rest File.read
  simp only [List.drop_drop, List.length_take]
  rcases Nat.le_total n (f.content.drop f.pos).length with enough | short
  · rw [Nat.min_eq_left enough]
  · rw [Nat.min_eq_right short, List.length_drop]
    rw [List.length_drop] at short
    rw [List.drop_of_length_le (by omega), List.drop_of_length_le (by omega)]

end Read

section Write

variable (blank : α) (content : List α) (offset : Nat) (data more : List α)

@[simp] theorem overwrite_nil : overwrite blank content offset [] = content := rfl

theorem overwrite_inside (inside : offset ≤ content.length) :
    overwrite blank content offset data =
      content.take offset ++ data ++ content.drop (offset + data.length) := by
  cases data with
  | nil =>
      rw [overwrite_nil, List.append_nil, List.length_nil, Nat.add_zero, List.take_append_drop]
  | cons b data =>
      unfold overwrite
      rw [if_neg (by simp), Nat.sub_eq_zero_of_le inside, List.replicate_zero, List.append_nil]

theorem overwrite_length (inside : offset ≤ content.length) :
    (overwrite blank content offset data).length = max content.length (offset + data.length) := by
  rw [overwrite_inside blank content offset data inside]
  simp only [List.length_append, List.length_take, List.length_drop]
  omega

/-- All that is at `offset` or behind it is replaced. -/
theorem overwrite_tail (same : data.length = (content.drop offset).length) :
    overwrite blank content offset data = content.take offset ++ data := by
  rw [List.length_drop] at same
  rcases Nat.le_total offset content.length with inside | outside
  · rw [overwrite_inside blank content offset data inside, List.drop_of_length_le (by omega),
      List.append_nil]
  · have none : data = [] := List.eq_nil_of_length_eq_zero (by omega)
    rw [none, overwrite_nil, List.append_nil, List.take_of_length_le outside]

theorem overwrite_end : overwrite blank content content.length data = content ++ data := by
  rw [overwrite_inside blank content _ data (Nat.le_refl _), List.take_length,
    List.drop_of_length_le (Nat.le_add_right _ _), List.append_nil]

theorem overwrite_start : overwrite blank [] 0 data = data := overwrite_end blank [] data

theorem write_start : ((File.mk [] 0).seek 0).write blank data = ⟨data, data.length⟩ := by
  unfold File.write
  rw [seek_content, seek_pos, Nat.zero_add, overwrite_start]

/-- Two writes one after the other are one. -/
theorem overwrite_append (inside : offset ≤ content.length) :
    overwrite blank (overwrite blank content offset data) (offset + data.length) more =
      overwrite blank content offset (data ++ more) := by
  have length := overwrite_length blank content offset data inside
  have front : (content.take offset ++ data).length = offset + data.length := by
    rw [List.length_append, List.length_take, Nat.min_eq_left inside]
  rw [overwrite_inside blank _ _ more (by omega), overwrite_inside blank content offset data inside,
    overwrite_inside blank content offset (data ++ more) inside]
  rw [List.take_append_of_le_length (Nat.le_of_eq front.symm), List.take_of_length_le
    (Nat.le_of_eq front), List.drop_append, List.drop_of_length_le (by omega), List.nil_append,
    List.drop_drop, front, List.length_append]
  simp only [List.append_assoc]
  rw [show offset + data.length + (offset + data.length + more.length - (offset + data.length)) =
    offset + (data.length + more.length) by omega]

theorem overwrite_inner (i : Nat) (inside : i < data.length) :
    (overwrite blank content offset data)[offset + i]? = data[i]? := by
  unfold overwrite
  have some : ¬ data.isEmpty := by
    intro empty
    rw [List.isEmpty_iff.mp empty] at inside
    exact Nat.not_lt_zero i inside
  have front : (content.take offset ++ List.replicate (offset - content.length) blank).length =
      offset := by
    rw [List.length_append, List.length_take, List.length_replicate]
    omega
  rw [if_neg some, List.append_assoc, List.getElem?_append_right (by omega), front,
    Nat.add_sub_cancel_left, List.getElem?_append_left inside]

theorem overwrite_outer (i : Nat) (inside : i < content.length)
    (outside : i < offset ∨ offset + data.length ≤ i) :
    (overwrite blank content offset data)[i]? = content[i]? := by
  unfold overwrite
  split
  · rfl
  · have front : (content.take offset ++ List.replicate (offset - content.length) blank).length =
        offset := by
      rw [List.length_append, List.length_take, List.length_replicate]
      omega
    rcases outside with before | behind
    · rw [List.append_assoc, List.append_assoc, List.getElem?_append_left (by
        rw [List.length_take]
        omega), List.getElem?_take_of_lt before]
    · rw [List.getElem?_append_right (by rw [List.length_append]; omega), List.length_append, front,
        List.getElem?_drop]
      congr 1
      omega

theorem overwrite_length_le : content.length ≤ (overwrite blank content offset data).length := by
  unfold overwrite
  split
  · exact Nat.le_refl _
  · simp only [List.length_append, List.length_take, List.length_replicate, List.length_drop]
    omega

theorem overwrite_bound {bound : Nat} (small : content.length ≤ bound)
    (fits : offset + data.length ≤ bound) :
    (overwrite blank content offset data).length ≤ bound := by
  unfold overwrite
  split
  · exact small
  · simp only [List.length_append, List.length_take, List.length_replicate, List.length_drop]
    omega

end Write

/-- `data` stands at `offset`. -/
def Holds (content : List α) (offset : Nat) (data : List α) : Prop :=
  ∀ i < data.length, content[offset + i]? = data[i]?

section Holds

variable {blank : α} {content data other : List α} {offset offset' : Nat}

theorem Holds.length (holds : Holds content offset data) :
    data = [] ∨ offset + data.length ≤ content.length := by
  rcases Nat.eq_zero_or_pos data.length with none | positive
  · exact .inl (List.eq_nil_of_length_eq_zero none)
  · right
    have last := holds (data.length - 1) (by omega)
    have value : data[data.length - 1]? = some data[data.length - 1] :=
      List.getElem?_eq_getElem (by omega)
    obtain ⟨inside, _⟩ := List.getElem?_eq_some_iff.mp (last.trans value)
    omega

theorem holds_overwrite : Holds (overwrite blank content offset data) offset data :=
  fun i inside => overwrite_inner blank content offset data i inside

/-- A write elsewhere keeps what is there. -/
theorem Holds.overwrite (holds : Holds content offset data)
    (apart : offset + data.length ≤ offset' ∨ offset' + other.length ≤ offset) :
    Holds (overwrite blank content offset' other) offset data := by
  intro i inside
  rcases holds.length with rfl | bound
  · exact absurd inside (Nat.not_lt_zero i)
  · rw [overwrite_outer _ _ _ _ _ (by omega) (by omega), holds i inside]

theorem Holds.append (holds : Holds content offset data) (tail : List α) :
    Holds (content ++ tail) offset data := by
  intro i inside
  rcases holds.length with rfl | bound
  · exact absurd inside (Nat.not_lt_zero i)
  · rw [List.getElem?_append_left (by omega), holds i inside]

theorem Holds.take (holds : Holds content offset data) (n : Nat) (enough : n ≤ data.length) :
    (content.drop offset).take n = data.take n := by
  apply List.ext_getElem?
  intro i
  by_cases inside : i < n
  · rw [List.getElem?_take_of_lt inside, List.getElem?_take_of_lt inside, List.getElem?_drop,
      holds i (by omega)]
  · rw [List.getElem?_take_eq_none (by omega), List.getElem?_take_eq_none (by omega)]

theorem Holds.drop (holds : Holds content offset data) :
    ∃ tail, content.drop offset = data ++ tail := by
  have front := holds.take data.length (Nat.le_refl _)
  rw [List.take_length] at front
  refine ⟨(content.drop offset).drop data.length, ?_⟩
  calc content.drop offset
      = (content.drop offset).take data.length ++ (content.drop offset).drop data.length :=
        (List.take_append_drop _ _).symm
    _ = data ++ (content.drop offset).drop data.length := by rw [front]

/-- A read that does not end in front of `data` starts with it. -/
theorem Holds.of_take (holds : Holds content offset data) (n : Nat) (long : data.length ≤ n) :
    data <+: (content.drop offset).take n := by
  obtain ⟨tail, split⟩ := holds.drop
  rw [split, List.take_append, List.take_of_length_le long]
  exact List.prefix_append data _

/-- Writes one after the other. -/
def writeAll (blank : α) (content : List α) (writes : List (Nat × List α)) : List α :=
  writes.foldl (fun content w => ByteFile.overwrite blank content w.1 w.2) content

theorem writeAll_cons (w : Nat × List α) (writes : List (Nat × List α)) :
    ByteFile.writeAll blank content (w :: writes) =
      ByteFile.writeAll blank (ByteFile.overwrite blank content w.1 w.2) writes := rfl

theorem writeAll_append (first second : List (Nat × List α)) :
    ByteFile.writeAll blank content (first ++ second) =
      ByteFile.writeAll blank (ByteFile.writeAll blank content first) second := List.foldl_append

/-- The places of the two writes have nothing in common. -/
def Apart (w w' : Nat × List α) : Prop := w.1 + w.2.length ≤ w'.1 ∨ w'.1 + w'.2.length ≤ w.1

theorem Holds.writeAll (holds : Holds content offset data) (writes : List (Nat × List α))
    (apart : ∀ w ∈ writes, Apart (offset, data) w) :
    Holds (ByteFile.writeAll blank content writes) offset data := by
  induction writes generalizing content with
  | nil => exact holds
  | cons w writes ih =>
      apply ih (holds.overwrite (apart w List.mem_cons_self))
      exact fun w' member => apart w' (List.mem_cons_of_mem _ member)

theorem writeAll_outer (content : List α) (writes : List (Nat × List α)) (i : Nat)
    (inside : i < content.length) (outside : ∀ w ∈ writes, i < w.1 ∨ w.1 + w.2.length ≤ i) :
    (ByteFile.writeAll blank content writes)[i]? = content[i]? := by
  induction writes generalizing content with
  | nil => rfl
  | cons w writes ih =>
      have long := overwrite_length_le blank content w.1 w.2
      rw [writeAll_cons, ih _ (Nat.lt_of_lt_of_le inside long)
        fun w' member => outside w' (List.mem_cons_of_mem _ member)]
      exact overwrite_outer blank content w.1 w.2 i inside (outside w List.mem_cons_self)

theorem writeAll_bound {bound : Nat} (content : List α) (writes : List (Nat × List α))
    (small : content.length ≤ bound) (fits : ∀ w ∈ writes, w.1 + w.2.length ≤ bound) :
    (ByteFile.writeAll blank content writes).length ≤ bound := by
  induction writes generalizing content with
  | nil => exact small
  | cons w writes ih =>
      rw [writeAll_cons]
      exact ih _ (overwrite_bound blank content w.1 w.2 small (fits w List.mem_cons_self))
        fun w' member => fits w' (List.mem_cons_of_mem _ member)

/-- Writes that are apart from each other all stand in the end. -/
theorem writeAll_holds (content : List α) (writes : List (Nat × List α))
    (apart : writes.Pairwise Apart) (w : Nat × List α) (member : w ∈ writes) :
    Holds (ByteFile.writeAll blank content writes) w.1 w.2 := by
  induction writes generalizing content with
  | nil => exact absurd member List.not_mem_nil
  | cons first writes ih =>
      rw [List.pairwise_cons] at apart
      rcases List.mem_cons.mp member with rfl | later
      · exact holds_overwrite.writeAll writes apart.1
      · exact ih _ apart.2 later

end Holds

end ByteFile
