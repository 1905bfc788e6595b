import Stroopwafel.RemoteTreeCopy

set_option autoImplicit false

namespace Stroopwafel.RemoteTree

open Memory FileTree RemoteFile

/-- An entry of a directory is gone with all that was below it, and nothing else has changed. -/
structure Removed (v v' : Files) (dir : Place) (name : Name) : Prop where
  gone : ∀ r, v'.node (dir ++ name :: r) = none
  kept : ∀ q, (∀ r, q ≠ dir ++ name :: r) → v'.node q = v.node q
  names : ∀ q, q ≠ dir → (∀ r, q ≠ dir ++ name :: r) → v'.names q = v.names q
  sound : v'.Sound

/-- So are several entries. -/
structure Cleared (v v' : Files) (dir : Place) (ns : List Name) : Prop where
  gone : ∀ m ∈ ns, ∀ r, v'.node (dir ++ m :: r) = none
  kept : ∀ q, (∀ m ∈ ns, ∀ r, q ≠ dir ++ m :: r) → v'.node q = v.node q
  names : ∀ q, q ≠ dir → (∀ m ∈ ns, ∀ r, q ≠ dir ++ m :: r) → v'.names q = v.names q
  sound : v'.Sound

section Remove

variable {v v' v'' : Files} {dir p : Place} {name : Name} {ns : List Name}

theorem Cleared.nil (sound : v.Sound) (dir : Place) : Cleared v v dir [] where
  gone _ absent := absurd absent List.not_mem_nil
  kept _ _ := rfl
  names _ _ _ := rfl
  sound := sound

theorem heads_apart {m n : Name} (other : m ≠ n) (r r' : Place) :
    dir ++ m :: r ≠ dir ++ n :: r' := fun same =>
  other (List.cons.inj (List.append_cancel_left same)).1

theorem Removed.cons (one : Removed v v' dir name) (others : Cleared v' v'' dir ns)
    (fresh : name ∉ ns) : Cleared v v'' dir (name :: ns) where
  gone m member r := by
    rcases List.mem_cons.mp member with rfl | later
    · have different : ∀ m' ∈ ns, m ≠ m' := fun m' there same => fresh (same ▸ there)
      rw [others.kept _ fun m' there r' => heads_apart (different m' there) r r']
      exact one.gone r
    · exact others.gone m later r
  kept q other := by
    rw [others.kept q fun m member r => other m (List.mem_cons_of_mem _ member) r]
    exact one.kept q fun r => other name List.mem_cons_self r
  names q outside other := by
    rw [others.names q outside fun m member r => other m (List.mem_cons_of_mem _ member) r]
    exact one.names q outside fun r => other name List.mem_cons_self r
  sound := others.sound

/-- The other entries stay. -/
theorem Removed.holds {rest : Forest Name (List Byte)} (removed : Removed v v' dir name)
    (fresh : name ∉ rest.names) (holds : rest.Holds v dir) : rest.Holds v' dir := by
  refine holds.congr fun m r member => ?_
  have different : m ≠ name := fun same => fresh (same ▸ member)
  have other : ∀ r', dir ++ m :: r ≠ dir ++ name :: r' := heads_apart different r
  refine ⟨removed.kept _ other, removed.names _ (fun same => ?_) other⟩
  exact List.cons_ne_nil m r (List.append_right_eq_self.mp same)

/-- An entry with nothing below it is taken out. -/
theorem Unlinked.removed (unlinked : Unlinked v v' dir name) (sound : v.Sound)
    (leaf : v.names (dir ++ [name]) = []) : Removed v v' dir name where
  gone r := by
    by_cases here : r = []
    · rw [here]
      exact unlinked.node
    · have other : dir ++ name :: r ≠ dir ++ [name] := by
        intro same
        exact here (List.cons.inj (List.append_cancel_left same)).2
      refine (unlinked.kept _ other).trans (Classical.byContradiction fun there => ?_)
      obtain ⟨m, r', rfl⟩ := List.exists_cons_of_ne_nil here
      have first : v.node (dir ++ [name] ++ [m]) ≠ none := by
        by_cases last : r' = []
        · rw [List.append_assoc]
          rw [last] at there
          exact there
        · have above := sound.below (p := dir ++ [name] ++ [m]) r' last (by
            rw [List.append_assoc, List.append_assoc]
            exact there)
          rw [above]
          exact Option.some_ne_none _
      have listed := (sound.listed (dir ++ [name]) m).mpr first
      rw [leaf] at listed
      exact absurd listed List.not_mem_nil
  kept q other := unlinked.kept q (other [])
  names q outside _ := unlinked.names q outside
  sound := unlinked.sound

section Service

variable {con : Console} (serves : con.Serves)
include serves

theorem rm_leaf (sound : v.Sound) (there : v.node (dir ++ [name]) ≠ none)
    (leaf : v.names (dir ++ [name]) = []) : Removed v (rm con v (dir ++ [name])).2 dir name := by
  obtain ⟨v', removes, unlinked⟩ := serves.remove v dir name sound there leaf
  rw [rm, removes]
  exact unlinked.removed sound leaf

theorem rm_file {c : List Byte} (sound : v.Sound) (file : v.node (dir ++ [name]) = some (.file c)) :
    Removed v (rm con v (dir ++ [name])).2 dir name := by
  apply rm_leaf serves sound
  · rw [file]
    exact Option.some_ne_none _
  · refine sound.names_nil fun n => Classical.byContradiction fun there => ?_
    have above := sound.parent _ n there
    rw [file] at above
    cases above

theorem rm_absent (absent : v.node (dir ++ [name]) = none) : (rm con v (dir ++ [name])).2 = v := by
  obtain ⟨ret, refuses⟩ := serves.absent v _ absent
  rw [rm, refuses]
  dsimp only
  split <;> rfl

/-- The directory goes when its entries are gone. -/
theorem Cleared.removed {dir : Place} {name : Name} (cleared : Cleared v v' (dir ++ [name]) ns)
    (sound : v.Sound) (present : v.node (dir ++ [name]) = some .dir)
    (names : v.names (dir ++ [name]) = ns) : Removed v (rm con v' (dir ++ [name])).2 dir name := by
  have empty : v'.names (dir ++ [name]) = [] := by
    refine cleared.sound.names_nil fun n => ?_
    by_cases listed : n ∈ ns
    · exact cleared.gone n listed []
    · have different : ∀ m ∈ ns, n ≠ m := fun m member same => listed (same ▸ member)
      rw [cleared.kept _ fun m member r => heads_apart (different m member) [] r]
      exact Classical.byContradiction fun there =>
        listed (names ▸ (sound.listed (dir ++ [name]) n).mpr there)
  have still : v'.node (dir ++ [name]) = some .dir := by
    rw [cleared.kept _ fun m _ r same => ?_]
    · exact present
    · exact List.cons_ne_nil m r (List.self_eq_append_right.mp same)
  have erased := rm_leaf serves cleared.sound (by rw [still]; exact Option.some_ne_none _) empty
  have away : ∀ q, (∀ r, q ≠ dir ++ name :: r) → ∀ m ∈ ns, ∀ r, q ≠ dir ++ [name] ++ m :: r := by
    intro q other m _ r
    rw [List.append_assoc]
    exact other (m :: r)
  exact
    { gone := erased.gone
      kept := fun q other => (erased.kept q other).trans (cleared.kept q (away q other))
      names := fun q outside other => (erased.names q outside other).trans
        (cleared.names q (other []) (away q other))
      sound := erased.sound }

end Service

/-- The loop of `rmdir` over the entries. -/
def rmdirStep (con : Console) (fuel : Nat) (path : Place) (v : Files) (e : Entry) : Option Files :=
  let curDir := path ++ [e.name]
  (if e.isFile then some v else rmdir con fuel v curDir).map fun v => (rm con v curDir).2

theorem rmdir_succ (con : Console) (fuel : Nat) (v : Files) (path : Place) :
    rmdir con (fuel + 1) v path =
      ((ls con v path).foldlM (rmdirStep con fuel path) v).map fun v => (rm con v path).2 := rfl

/-- By induction on the entries, from the first on. -/
theorem rmdirStep_clears {con : Console} (serves : con.Serves) (f : Forest Name (List Byte))
    (v : Files) (p : Place) (sound : v.Sound) (holds : f.Holds v p) (proper : f.Proper) :
    ∃ v' N, Cleared v v' p f.names ∧
      ∀ fuel, N ≤ fuel → (entries f).foldlM (rmdirStep con fuel p) v = some v' := by
  induction f generalizing v p with
  | nil => exact ⟨v, 0, Cleared.nil sound p, fun _ _ => rfl⟩
  | file n c rest ih =>
      obtain ⟨node, others⟩ := holds
      obtain ⟨fresh, proper⟩ := proper
      have removed := rm_file serves sound node
      obtain ⟨v', N, cleared, runs⟩ := ih (rm con v (p ++ [n])).2 p removed.sound
        (removed.holds fresh others) proper
      refine ⟨v', N, removed.cons cleared fresh, fun fuel larger => ?_⟩
      rw [entries, List.foldlM_cons]
      exact runs fuel larger
  | dir n inside rest ihInside ih =>
      obtain ⟨node, names, within, others⟩ := holds
      obtain ⟨fresh, properInside, proper⟩ := proper
      obtain ⟨emptied, N, cleared, empties⟩ := ihInside v (p ++ [n]) sound within properInside
      have removed := cleared.removed serves sound node names
      have again : (rm con (rm con emptied (p ++ [n])).2 (p ++ [n])).2 =
          (rm con emptied (p ++ [n])).2 :=
        rm_absent serves (removed.gone [])
      obtain ⟨v', N', cleared', runs⟩ := ih (rm con emptied (p ++ [n])).2 p removed.sound
        (removed.holds fresh others) proper
      refine ⟨v', max (N + 1) N', removed.cons cleared' fresh, fun fuel larger => ?_⟩
      obtain ⟨fuel, rfl⟩ := Nat.exists_eq_add_of_le' (show 1 ≤ fuel by omega)
      have inner : rmdir con (fuel + 1) v (p ++ [n]) = some (rm con emptied (p ++ [n])).2 := by
        rw [rmdir_succ, ls_eq serves node names within, empties fuel (by omega), Option.map_some]
      have first :
          rmdirStep con (fuel + 1) p v ⟨n, false⟩ = some (rm con emptied (p ++ [n])).2 := by
        simp only [rmdirStep, Bool.false_eq_true, if_false, inner, Option.map_some, again]
      rw [entries, List.foldlM_cons, first]
      exact runs (fuel + 1) (by omega)

end Remove

end Stroopwafel.RemoteTree
