import Mathlib.Algebra.Group.Int.Defs
import Mathlib.Algebra.GroupWithZero.Nat

set_option autoImplicit false

/- Disks that are kept side by side on one disk. -/
namespace DiskWindow

section Disk

variable {α : Type}

abbrev Disk (α : Type) := Nat → α

/-- `count` blocks from `first` on. -/
def readAt (disk : Disk α) (first count : Nat) : List α :=
  (List.range count).map fun k => disk (first + k)

def writeAt (disk : Disk α) (first : Nat) (data : List α) : Disk α :=
  fun b => if first ≤ b then (data[b - first]?).getD (disk b) else disk b

theorem writeAt_inside (disk : Disk α) (first : Nat) (data : List α) (k : Nat)
    (inside : k < data.length) : writeAt disk first data (first + k) = data[k] := by
  rw [writeAt, if_pos (Nat.le_add_right first k), Nat.add_sub_cancel_left,
    List.getElem?_eq_getElem inside, Option.getD_some]

theorem writeAt_outside (disk : Disk α) (first : Nat) (data : List α) (b : Nat)
    (outside : ∀ k < data.length, b ≠ first + k) : writeAt disk first data b = disk b := by
  unfold writeAt
  by_cases behind : first ≤ b
  · obtain ⟨k, rfl⟩ := Nat.exists_eq_add_of_le behind
    have beyond : data.length ≤ k := Nat.le_of_not_lt fun inside => outside k inside rfl
    rw [if_pos behind, Nat.add_sub_cancel_left, List.getElem?_eq_none beyond, Option.getD_none]
  · exact if_neg behind

theorem readAt_congr (disk disk' : Disk α) (first first' count : Nat)
    (same : ∀ k < count, disk (first + k) = disk' (first' + k)) :
    readAt disk first count = readAt disk' first' count := by
  apply List.map_congr_left
  intro k member
  exact same k (List.mem_range.mp member)

end Disk

/-- Where each disk starts on the shared one, and which of its blocks are in use. -/
structure Layout (ι : Type) where
  start : ι → Nat
  owns : ι → Nat → Prop

/-- No block of one disk is a block of another. -/
def Layout.Disjoint {ι : Type} (layout : Layout ι) : Prop :=
  ∀ i j a b, i ≠ j → layout.owns i a → layout.owns j b → layout.start i + a ≠ layout.start j + b

inductive Request (ι α : Type) where
  | read (disk : ι) (first count : Nat)
  | write (disk : ι) (first : Nat) (data : List α)

section Views

variable {ι α : Type}

/-- The shared disk shows every disk where it starts. -/
def Views (layout : Layout ι) (disk : Disk α) (disks : ι → Disk α) : Prop :=
  ∀ i b, layout.owns i b → disk (layout.start i + b) = disks i b

theorem Views.read {layout : Layout ι} {disk : Disk α} {disks : ι → Disk α}
    (views : Views layout disk disks) (i : ι) (first count : Nat)
    (within : ∀ k < count, layout.owns i (first + k)) :
    readAt disk (layout.start i + first) count = readAt (disks i) first count := by
  apply readAt_congr
  intro k inside
  rw [Nat.add_assoc]
  exact views i (first + k) (within k inside)

end Views

section Serve

variable {ι α : Type} [DecidableEq ι]

/-- The request on disks of their own. -/
def Request.serve (disks : ι → Disk α) : Request ι α → List α × (ι → Disk α)
  | .read i first count => (readAt (disks i) first count, disks)
  | .write i first data =>
      ([], fun j => if j = i then writeAt (disks i) first data else disks j)

/-- The request on the shared disk. -/
def Request.serveShared (layout : Layout ι) (disk : Disk α) : Request ι α → List α × Disk α
  | .read i first count => (readAt disk (layout.start i + first) count, disk)
  | .write i first data => ([], writeAt disk (layout.start i + first) data)

/-- Only blocks in use are read or written. -/
def Request.Within (layout : Layout ι) : Request ι α → Prop
  | .read i first count => ∀ k < count, layout.owns i (first + k)
  | .write i first data => ∀ k < data.length, layout.owns i (first + k)

/-- Each request is served in the state that the one before has left. -/
def run {σ ρ : Type} (serve : σ → ρ → List α × σ) : σ → List ρ → List (List α) × σ
  | s, [] => ([], s)
  | s, request :: rest =>
      let (answer, s) := serve s request
      let (answers, s) := run serve s rest
      (answer :: answers, s)

/-- A write is seen on its own disk and on no other. -/
theorem Views.write {layout : Layout ι} {disk : Disk α} {disks : ι → Disk α}
    (views : Views layout disk disks) (disjoint : layout.Disjoint) (i : ι) (first : Nat)
    (data : List α) (within : ∀ k < data.length, layout.owns i (first + k)) :
    Views layout (writeAt disk (layout.start i + first) data)
      fun j => if j = i then writeAt (disks i) first data else disks j := by
  intro j b owned
  by_cases same : j = i
  · subst same
    dsimp only
    rw [if_pos rfl]
    by_cases covered : ∃ k < data.length, b = first + k
    · obtain ⟨k, inside, rfl⟩ := covered
      rw [← Nat.add_assoc, writeAt_inside _ _ _ _ inside, writeAt_inside _ _ _ _ inside]
    · rw [writeAt_outside, writeAt_outside, views j b owned]
      · intro k inside here
        exact covered ⟨k, inside, here⟩
      · intro k inside here
        exact covered ⟨k, inside, by omega⟩
  · dsimp only
    rw [if_neg same, writeAt_outside, views j b owned]
    intro k inside here
    exact disjoint j i b (first + k) same owned (within k inside) (here.trans (Nat.add_assoc ..))

theorem Views.serve {layout : Layout ι} {disk : Disk α} {disks : ι → Disk α}
    (views : Views layout disk disks) (disjoint : layout.Disjoint) (request : Request ι α)
    (within : request.Within layout) :
    (request.serveShared layout disk).1 = (request.serve disks).1 ∧
      Views layout (request.serveShared layout disk).2 (request.serve disks).2 := by
  cases request with
  | read i first count => exact ⟨views.read i first count within, views⟩
  | write i first data => exact ⟨rfl, views.write disjoint i first data within⟩

/-- Any sequence of requests is answered as on disks of their own. -/
theorem Views.run {layout : Layout ι} {disk : Disk α} {disks : ι → Disk α}
    (views : Views layout disk disks) (disjoint : layout.Disjoint) (requests : List (Request ι α))
    (within : ∀ request ∈ requests, request.Within layout) :
    (run (Request.serveShared layout) disk requests).1 = (run Request.serve disks requests).1 ∧
      Views layout (run (Request.serveShared layout) disk requests).2
        (run Request.serve disks requests).2 := by
  induction requests generalizing disk disks with
  | nil => exact ⟨rfl, views⟩
  | cons request rest ih =>
      obtain ⟨answer, after⟩ :=
        views.serve disjoint request (within request (List.mem_cons_self ..))
      obtain ⟨answers, last⟩ :=
        ih after fun other member => within other (List.mem_cons_of_mem _ member)
      refine ⟨?_, last⟩
      simp only [DiskWindow.run]
      rw [answer, answers]

end Serve

end DiskWindow
