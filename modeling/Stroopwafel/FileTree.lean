import Mathlib.Data.List.Induction
import Mathlib.Data.List.Nodup

set_option autoImplicit false

/- Directory trees: volumes by their paths, and the finite trees in them. -/
namespace FileTree

variable {ν α : Type}

/-- The names from the root on. -/
abbrev Path (ν : Type) := List ν

inductive Node (α : Type) where
  | dir
  | file (content : α)
  deriving DecidableEq

/-- What stands at each path, and the names in each directory, in the order in which they are
listed. -/
structure Volume (ν α : Type) where
  node : Path ν → Option (Node α)
  names : Path ν → List ν

/-- What exists stands in a directory, which lists it once. -/
structure Volume.Sound (v : Volume ν α) : Prop where
  parent : ∀ p n, v.node (p ++ [n]) ≠ none → v.node p = some .dir
  listed : ∀ p n, n ∈ v.names p ↔ v.node (p ++ [n]) ≠ none
  nodup : ∀ p, (v.names p).Nodup

section Sound

variable {v : Volume ν α} {p q : Path ν} {n : ν}

theorem concat_ne_self (p : Path ν) (n : ν) : p ++ [n] ≠ p := by
  intro same
  have lengths := congrArg List.length same
  rw [List.length_append, List.length_singleton] at lengths
  omega

theorem concat_inj {m : ν} (same : p ++ [n] = q ++ [m]) : p = q ∧ n = m := by
  obtain ⟨front, last⟩ := List.append_inj' same rfl
  exact ⟨front, List.singleton_inj.mp last⟩

namespace Volume.Sound

/-- Only below directories is there anything. -/
theorem below (sound : v.Sound) (r : Path ν) (nonempty : r ≠ [])
    (present : v.node (p ++ r) ≠ none) : v.node p = some .dir := by
  induction r using List.reverseRecOn with
  | nil => exact absurd rfl nonempty
  | append_singleton r n ih =>
      rw [← List.append_assoc] at present
      have above := sound.parent _ n present
      by_cases last : r = []
      · rw [last, List.append_nil] at above
        exact above
      · exact ih last (by rw [above]; exact Option.some_ne_none _)

theorem names_nil (sound : v.Sound) (absent : ∀ n, v.node (p ++ [n]) = none) : v.names p = [] :=
  List.eq_nil_iff_forall_not_mem.mpr fun n member => (sound.listed p n).mp member (absent n)

end Volume.Sound

end Sound

/-- The entries of a directory, each with what is inside. -/
inductive Forest (ν α : Type) where
  | nil
  | file (name : ν) (content : α) (rest : Forest ν α)
  | dir (name : ν) (inside rest : Forest ν α)

namespace Forest

def names : Forest ν α → List ν
  | nil => []
  | file n _ rest => n :: rest.names
  | dir n _ rest => n :: rest.names

/-- The entries stand in the directory `p`. -/
def Holds (v : Volume ν α) : Path ν → Forest ν α → Prop
  | _, nil => True
  | p, file n c rest => v.node (p ++ [n]) = some (.file c) ∧ rest.Holds v p
  | p, dir n inside rest =>
      v.node (p ++ [n]) = some .dir ∧ v.names (p ++ [n]) = inside.names ∧
        inside.Holds v (p ++ [n]) ∧ rest.Holds v p

/-- No directory has two entries of one name. -/
def Proper : Forest ν α → Prop
  | nil => True
  | file n _ rest => n ∉ rest.names ∧ rest.Proper
  | dir n inside rest => n ∉ rest.names ∧ inside.Proper ∧ rest.Proper

/-- No file is in the place of a directory, and no directory in the place of a file. -/
def Fits (v : Volume ν α) : Path ν → Forest ν α → Prop
  | _, nil => True
  | p, file n _ rest => v.node (p ++ [n]) ≠ some .dir ∧ rest.Fits v p
  | p, dir n inside rest =>
      (∀ c, v.node (p ++ [n]) ≠ some (.file c)) ∧ inside.Fits v (p ++ [n]) ∧ rest.Fits v p

end Forest

/-- The trees at `p` in both volumes are the same. -/
def Alike (v v' : Volume ν α) (p : Path ν) : Prop :=
  ∀ r, v'.node (p ++ r) = v.node (p ++ r) ∧ v'.names (p ++ r) = v.names (p ++ r)

/-- Neither of two paths leads to the other. -/
def Apart (p q : Path ν) : Prop := ∀ r r', p ++ r ≠ q ++ r'

section Forest

variable {v v' v'' : Volume ν α} {p : Path ν} {f : Forest ν α}

theorem Alike.trans (one : Alike v v' p) (two : Alike v' v'' p) : Alike v v'' p := fun r =>
  ⟨(two r).1.trans (one r).1, (two r).2.trans (one r).2⟩

theorem Alike.below (alike : Alike v v' p) (n : ν) : Alike v v' (p ++ [n]) := fun r => by
  rw [List.append_assoc]
  exact alike ([n] ++ r)

/-- What stands in a directory depends on what is below its names only. -/
theorem Forest.Holds.congr (holds : f.Holds v p) (same : ∀ m r, m ∈ f.names →
    v'.node (p ++ m :: r) = v.node (p ++ m :: r) ∧
      v'.names (p ++ m :: r) = v.names (p ++ m :: r)) : f.Holds v' p := by
  induction f generalizing p with
  | nil => trivial
  | file n c rest ih =>
      obtain ⟨node, others⟩ := holds
      exact ⟨(same n [] List.mem_cons_self).1.trans node,
        ih others fun m r member => same m r (List.mem_cons_of_mem _ member)⟩
  | dir n inside rest ihInside ih =>
      obtain ⟨node, names, within, others⟩ := holds
      have here := same n [] List.mem_cons_self
      refine ⟨here.1.trans node, here.2.trans names, ihInside within fun m r _ => ?_,
        ih others fun m r member => same m r (List.mem_cons_of_mem _ member)⟩
      rw [List.append_assoc]
      exact same n (m :: r) List.mem_cons_self

theorem Alike.holds (alike : Alike v v' p) (holds : f.Holds v p) : f.Holds v' p :=
  holds.congr fun m r _ => alike (m :: r)

/-- In a sound volume every directory is proper. -/
theorem Volume.Sound.proper (sound : v.Sound) (holds : f.Holds v p) (distinct : f.names.Nodup) :
    f.Proper := by
  induction f generalizing p with
  | nil => trivial
  | file n c rest ih =>
      obtain ⟨fresh, distinct⟩ := List.nodup_cons.mp distinct
      exact ⟨fresh, ih holds.2 distinct⟩
  | dir n inside rest ihInside ih =>
      obtain ⟨fresh, distinct⟩ := List.nodup_cons.mp distinct
      obtain ⟨-, names, within, others⟩ := holds
      have distinct' : inside.names.Nodup := names ▸ sound.nodup (p ++ [n])
      exact ⟨fresh, ihInside within distinct', ih others distinct⟩

/-- Whether the entries fit depends on what is in their places only. -/
theorem Forest.Fits.congr (fits : f.Fits v p)
    (same : ∀ m r, m ∈ f.names → v'.node (p ++ m :: r) = v.node (p ++ m :: r)) : f.Fits v' p := by
  induction f generalizing p with
  | nil => trivial
  | file n c rest ih =>
      obtain ⟨node, others⟩ := fits
      refine ⟨?_, ih others fun m r member => same m r (List.mem_cons_of_mem _ member)⟩
      rw [same n [] List.mem_cons_self]
      exact node
  | dir n inside rest ihInside ih =>
      obtain ⟨node, within, others⟩ := fits
      refine ⟨?_, ihInside within fun m r _ => ?_,
        ih others fun m r member => same m r (List.mem_cons_of_mem _ member)⟩
      · rw [same n [] List.mem_cons_self]
        exact node
      · rw [List.append_assoc]
        exact same n (m :: r) List.mem_cons_self

end Forest

variable [DecidableEq ν]

namespace Volume

variable (v : Volume ν α)

def set (q : Path ν) (x : Node α) : Volume ν α :=
  { v with node := fun p => if p = q then some x else v.node p }

/-- A new name in the directory `p`. -/
def add (p : Path ν) (n : ν) (x : Node α) : Volume ν α where
  node q := if q = p ++ [n] then some x else v.node q
  names q := if q = p then v.names p ++ [n] else v.names q

def erase (p : Path ν) (n : ν) : Volume ν α where
  node q := if q = p ++ [n] then none else v.node q
  names q := if q = p then (v.names p).erase n else v.names q

end Volume

section Sound

variable {v : Volume ν α} {p q : Path ν} {n : ν}

namespace Volume.Sound

theorem set_file (sound : v.Sound) {c d : α} (old : v.node q = some (.file c)) :
    (v.set q (.file d)).Sound where
  parent p n present := by
    by_cases here : p = q
    · have above := sound.parent p n (by
        simp only [set, here, concat_ne_self, if_false] at present
        rw [here]
        exact present)
      rw [here, old] at above
      cases above
    · simp only [set, if_neg here]
      apply sound.parent p n
      intro absent
      by_cases new : p ++ [n] = q
      · rw [new, old] at absent
        cases absent
      · simp only [set, if_neg new] at present
        exact present absent
  listed p n := by
    rw [show (v.set q (.file d)).names = v.names from rfl, sound.listed p n]
    by_cases new : p ++ [n] = q
    · simp [set, new, old]
    · simp [set, new]
  nodup := sound.nodup

theorem add (sound : v.Sound) (x : Node α) (parent : v.node p = some .dir)
    (absent : v.node (p ++ [n]) = none) : (v.add p n x).Sound where
  parent q m present := by
    by_cases new : q = p ++ [n]
    · have nothing : v.node (q ++ [m]) = none := by
        apply Classical.byContradiction
        intro there
        have above := sound.parent q m there
        rw [new, absent] at above
        cases above
      have other : q ++ [m] ≠ p ++ [n] := by
        intro same
        exact concat_ne_self q m (same.trans new.symm)
      simp only [Volume.add, if_neg other, nothing, ne_eq, not_true_eq_false] at present
    · simp only [Volume.add, if_neg new]
      by_cases here : q ++ [m] = p ++ [n]
      · rw [(concat_inj here).1, parent]
      · simp only [Volume.add, if_neg here] at present
        exact sound.parent q m present
  listed q m := by
    by_cases here : q = p
    · subst here
      by_cases same : m = n
      · simp [Volume.add, same]
      · have other : q ++ [m] ≠ q ++ [n] := fun eq => same (concat_inj eq).2
        simp only [Volume.add, if_true, if_neg other, List.mem_append, List.mem_singleton, same,
          or_false]
        exact sound.listed q m
    · have other : q ++ [m] ≠ p ++ [n] := fun eq => here (concat_inj eq).1
      simp only [Volume.add, if_neg here, if_neg other]
      exact sound.listed q m
  nodup q := by
    by_cases here : q = p
    · subst here
      have fresh : n ∉ v.names q := fun member => (sound.listed q n).mp member absent
      simp only [Volume.add, if_true]
      refine List.nodup_append.mpr ⟨sound.nodup q, List.nodup_singleton n, ?_⟩
      intro a member b single same
      rw [List.mem_singleton.mp single] at same
      exact fresh (same ▸ member)
    · simp only [Volume.add, if_neg here]
      exact sound.nodup q

theorem erase (sound : v.Sound) (empty : v.names (p ++ [n]) = []) : (v.erase p n).Sound where
  parent q m present := by
    by_cases here : q ++ [m] = p ++ [n]
    · simp only [Volume.erase, if_pos here, ne_eq, not_true_eq_false] at present
    · simp only [Volume.erase, if_neg here] at present
      have above := sound.parent q m present
      by_cases gone : q = p ++ [n]
      · have member := (sound.listed q m).mpr present
        rw [gone, empty] at member
        exact absurd member List.not_mem_nil
      · simp only [Volume.erase, if_neg gone]
        exact above
  listed q m := by
    by_cases here : q = p
    · subst here
      by_cases same : m = n
      · subst same
        simp [Volume.erase, (sound.nodup q).mem_erase_iff]
      · have other : q ++ [m] ≠ q ++ [n] := fun eq => same (concat_inj eq).2
        simp only [Volume.erase, if_true, if_neg other, (sound.nodup q).mem_erase_iff, ne_eq, same,
          not_false_eq_true, true_and]
        exact sound.listed q m
    · have other : q ++ [m] ≠ p ++ [n] := fun eq => here (concat_inj eq).1
      simp only [Volume.erase, if_neg here, if_neg other]
      exact sound.listed q m
  nodup q := by
    by_cases here : q = p
    · subst here
      simp only [Volume.erase, if_true]
      exact (sound.nodup q).erase n
    · simp only [Volume.erase, if_neg here]
      exact sound.nodup q

end Volume.Sound

end Sound

namespace Forest

/-- What stands at a path from the directory on. -/
def lookup : Forest ν α → Path ν → Option (Node α)
  | nil, _ => none
  | _, [] => none
  | file n c rest, m :: r =>
      if m = n then if r = [] then some (.file c) else none else rest.lookup (m :: r)
  | dir n inside rest, m :: r =>
      if m = n then if r = [] then some .dir else inside.lookup r else rest.lookup (m :: r)

end Forest

/-- The entries stand in the directory `p` of the second volume, which is otherwise the first. -/
structure Grafts (v v' : Volume ν α) (p : Path ν) (f : Forest ν α) : Prop where
  copied : ∀ r x, f.lookup r = some x → v'.node (p ++ r) = some x
  kept : ∀ q, (∀ r, f.lookup r ≠ none → q ≠ p ++ r) → v'.node q = v.node q
  names : ∀ q, (∀ r, q ≠ p ++ r) → v'.names q = v.names q

section Grafts

variable {v v' v'' : Volume ν α} {p q : Path ν} {f : Forest ν α}

theorem Forest.lookup_nil (f : Forest ν α) : f.lookup [] = none := by cases f <;> rfl

/-- A path into the entries begins with one of their names. -/
theorem Forest.lookup_head (m : ν) (r : Path ν) (present : f.lookup (m :: r) ≠ none) :
    m ∈ f.names := by
  induction f with
  | nil => exact absurd rfl present
  | file n c rest ih =>
      by_cases here : m = n
      · rw [here]
        exact List.mem_cons_self
      · simp only [Forest.lookup, if_neg here] at present
        exact List.mem_cons_of_mem _ (ih present)
  | dir n inside rest _ ih =>
      by_cases here : m = n
      · rw [here]
        exact List.mem_cons_self
      · simp only [Forest.lookup, if_neg here] at present
        exact List.mem_cons_of_mem _ (ih present)

theorem Grafts.nil (v : Volume ν α) (p : Path ν) : Grafts v v p .nil where
  copied r x present := by cases r <;> cases present
  kept _ _ := rfl
  names _ _ := rfl

/-- What is apart from the place of the entries is left alone. -/
theorem Grafts.alike (grafts : Grafts v v' p f) (apart : Apart q p) : Alike v v' q := fun r =>
  ⟨grafts.kept _ fun r' _ => apart r r', grafts.names _ fun r' => apart r r'⟩

theorem Grafts.self (grafts : Grafts v v' p f) : v'.node p = v.node p := by
  refine grafts.kept p fun r present same => ?_
  have empty : r = [] := List.self_eq_append_right.mp same
  exact present (empty ▸ f.lookup_nil)

/-- The place of a name that is not among the entries. -/
theorem Grafts.beside (grafts : Grafts v v' p f) {m : ν} (other : m ∉ f.names) (r : Path ν) :
    v'.node (p ++ m :: r) = v.node (p ++ m :: r) := by
  refine grafts.kept _ fun r' present same => ?_
  have tail : m :: r = r' := List.append_cancel_left same
  rw [← tail] at present
  exact other (f.lookup_head m r present)

theorem Forest.lookup_fresh {n : ν} (fresh : n ∉ f.names) (r : Path ν) : f.lookup (n :: r) = none :=
  Classical.byContradiction fun present => fresh (f.lookup_head n r present)

/-- Entries that are looked up in two parts, in whichever order these came. -/
theorem Grafts.join {g h : Forest ν α} (one : Grafts v v' p g) (two : Grafts v' v'' p h)
    (parts : ∀ r x, f.lookup r = some x ↔ g.lookup r = some x ∨ h.lookup r = some x)
    (apart : ∀ r, g.lookup r ≠ none → h.lookup r = none) : Grafts v v'' p f where
  copied r x present := by
    rcases (parts r x).mp present with early | late
    · have free : ∀ r', h.lookup r' ≠ none → p ++ r ≠ p ++ r' := by
        intro r' there same
        rw [← List.append_cancel_left same] at there
        exact there (apart r (by rw [early]; exact Option.some_ne_none x))
      rw [two.kept _ free]
      exact one.copied r x early
    · exact two.copied r x late
  kept q other := by
    have first : ∀ r, g.lookup r ≠ none → q ≠ p ++ r := by
      intro r there
      obtain ⟨x, present⟩ := Option.ne_none_iff_exists'.mp there
      refine other r ?_
      rw [(parts r x).mpr (.inl present)]
      exact Option.some_ne_none x
    have second : ∀ r, h.lookup r ≠ none → q ≠ p ++ r := by
      intro r there
      obtain ⟨x, present⟩ := Option.ne_none_iff_exists'.mp there
      refine other r ?_
      rw [(parts r x).mpr (.inr present)]
      exact Option.some_ne_none x
    rw [two.kept q second, one.kept q first]
  names q other := (two.names q other).trans (one.names q other)

theorem Grafts.oneFile {n : ν} {c : α} (node : v'.node (p ++ [n]) = some (.file c))
    (kept : ∀ q, q ≠ p ++ [n] → v'.node q = v.node q)
    (names : ∀ q, (∀ r, q ≠ p ++ r) → v'.names q = v.names q) :
    Grafts v v' p (.file n c .nil) where
  copied r x present := by
    cases r with
    | nil => cases present
    | cons m r =>
        by_cases here : m = n ∧ r = []
        · obtain ⟨rfl, rfl⟩ := here
          simp only [Forest.lookup, if_true] at present
          exact node.trans present
        · by_cases head : m = n
          · have tail : r ≠ [] := fun empty => here ⟨head, empty⟩
            simp only [Forest.lookup, if_pos head, if_neg tail] at present
            cases present
          · simp only [Forest.lookup, if_neg head] at present
            cases present
  kept q other := kept q (other [n] (by simp [Forest.lookup]))
  names := names

/-- `made` is the volume with the directory, and the last one has what is inside. -/
theorem Grafts.oneDir {n : ν} {inside : Forest ν α} {made : Volume ν α}
    (node : made.node (p ++ [n]) = some .dir)
    (kept : ∀ q, q ≠ p ++ [n] → made.node q = v.node q)
    (names : ∀ q, (∀ r, q ≠ p ++ r) → made.names q = v.names q)
    (within : Grafts made v' (p ++ [n]) inside) : Grafts v v' p (.dir n inside .nil) where
  copied r x present := by
    cases r with
    | nil => cases present
    | cons m r =>
        by_cases here : m = n
        · simp only [Forest.lookup, if_pos here] at present
          by_cases last : r = []
          · rw [if_pos last] at present
            rw [here, last, within.self, node]
            exact present
          · rw [if_neg last] at present
            have placed := within.copied r x present
            rw [List.append_assoc] at placed
            rw [here]
            exact placed
        · simp only [Forest.lookup, if_neg here] at present
          cases present
  kept q other := by
    have away : q ≠ p ++ [n] := other [n] (by simp [Forest.lookup])
    have outside : ∀ r, inside.lookup r ≠ none → q ≠ p ++ [n] ++ r := by
      intro r present
      rw [List.append_assoc]
      refine other (n :: r) ?_
      have nonempty : r ≠ [] := fun empty => present (empty ▸ inside.lookup_nil)
      simp only [Forest.lookup, if_true, if_neg nonempty]
      exact present
    rw [within.kept q outside, kept q away]
  names q other := by
    rw [within.names q fun r => by rw [List.append_assoc]; exact other ([n] ++ r), names q other]

section Parts

variable {n : ν} {c : α} {inside rest : Forest ν α}

theorem Forest.lookup_file (fresh : n ∉ rest.names) (r : Path ν) (x : Node α) :
    (Forest.file n c rest).lookup r = some x ↔
      (Forest.file n c .nil).lookup r = some x ∨ rest.lookup r = some x := by
  cases r with
  | nil => simp [Forest.lookup, Forest.lookup_nil]
  | cons m r =>
      by_cases here : m = n
      · subst here
        simp [Forest.lookup, Forest.lookup_fresh fresh]
      · simp [Forest.lookup, here]

theorem Forest.lookup_file_apart (fresh : n ∉ rest.names) (r : Path ν)
    (present : (Forest.file n c .nil).lookup r ≠ none) : rest.lookup r = none := by
  cases r with
  | nil => exact rest.lookup_nil
  | cons m r =>
      have head := Forest.lookup_head m r present
      rw [List.mem_singleton.mp head]
      exact Forest.lookup_fresh fresh r

theorem Forest.lookup_dir (fresh : n ∉ rest.names) (r : Path ν) (x : Node α) :
    (Forest.dir n inside rest).lookup r = some x ↔
      (Forest.dir n inside .nil).lookup r = some x ∨ rest.lookup r = some x := by
  cases r with
  | nil => simp [Forest.lookup, Forest.lookup_nil]
  | cons m r =>
      by_cases here : m = n
      · subst here
        simp [Forest.lookup, Forest.lookup_fresh fresh]
      · simp [Forest.lookup, here]

theorem Forest.lookup_dir_apart (fresh : n ∉ rest.names) (r : Path ν)
    (present : (Forest.dir n inside .nil).lookup r ≠ none) : rest.lookup r = none := by
  cases r with
  | nil => exact rest.lookup_nil
  | cons m r =>
      have head := Forest.lookup_head m r present
      rw [List.mem_singleton.mp head]
      exact Forest.lookup_fresh fresh r

/-- A file before the other entries, and behind them. -/
theorem Grafts.fileFirst (one : Grafts v v' p (.file n c .nil)) (others : Grafts v' v'' p rest)
    (fresh : n ∉ rest.names) : Grafts v v'' p (.file n c rest) :=
  one.join others (Forest.lookup_file fresh) (Forest.lookup_file_apart fresh)

theorem Grafts.fileLast (others : Grafts v v' p rest) (one : Grafts v' v'' p (.file n c .nil))
    (fresh : n ∉ rest.names) : Grafts v v'' p (.file n c rest) :=
  others.join one (fun r x => (Forest.lookup_file fresh r x).trans or_comm) fun r present =>
    Classical.byContradiction fun there => present (Forest.lookup_file_apart fresh r there)

theorem Grafts.dirFirst (one : Grafts v v' p (.dir n inside .nil)) (others : Grafts v' v'' p rest)
    (fresh : n ∉ rest.names) : Grafts v v'' p (.dir n inside rest) :=
  one.join others (Forest.lookup_dir fresh) (Forest.lookup_dir_apart fresh)

theorem Grafts.dirLast (others : Grafts v v' p rest) (one : Grafts v' v'' p (.dir n inside .nil))
    (fresh : n ∉ rest.names) : Grafts v v'' p (.dir n inside rest) :=
  others.join one (fun r x => (Forest.lookup_dir fresh r x).trans or_comm) fun r present =>
    Classical.byContradiction fun there => present (Forest.lookup_dir_apart fresh r there)

end Parts

end Grafts

end FileTree
