import Mathlib.Algebra.Group.Int.Defs
import Mathlib.Algebra.GroupWithZero.Nat

set_option autoImplicit false

/- State transformers that look at some places and change some places. -/
namespace Footprint

variable {ι α : Type}

/-- Both states are the same on `region`. -/
def Alike (region : ι → Prop) (s s' : ι → α) : Prop := ∀ x, region x → s' x = s x

/-- From all states that are like `s` on `reads`, every place is left as it is, or it is one of
`writes` and gets what it gets from `s`. -/
def Confined (reads writes : ι → Prop) (f : (ι → α) → ι → α) (s : ι → α) : Prop :=
  ∀ s', Alike reads s s' → ∀ x, f s' x = s' x ∧ f s x = s x ∨ writes x ∧ f s' x = f s x

section Rules

variable {reads writes : ι → Prop} {f g : (ι → α) → ι → α} {s t : ι → α}

theorem Alike.refl (region : ι → Prop) (s : ι → α) : Alike region s s := fun _ _ => rfl

theorem Alike.trans {region : ι → Prop} {u : ι → α} (first : Alike region s t)
    (second : Alike region t u) : Alike region s u :=
  fun x member => (second x member).trans (first x member)

theorem Alike.mono {region region' : ι → Prop} (alike : Alike region s t)
    (within : ∀ x, region' x → region x) : Alike region' s t :=
  fun x member => alike x (within x member)

theorem Confined.frame (confined : Confined reads writes f s) (alike : Alike reads s t) (x : ι)
    (outside : ¬ writes x) : f t x = t x := by
  rcases confined t alike x with ⟨same, _⟩ | ⟨inside, _⟩
  · exact same
  · exact absurd inside outside

/-- What is not written stays as it is. -/
theorem Confined.keeps {region : ι → Prop} (confined : Confined reads writes f s)
    (alike : Alike reads s t) (apart : ∀ x, writes x → ¬ region x) : Alike region t (f t) :=
  fun x member => confined.frame alike x fun inside => apart x inside member

theorem Confined.alike {region : ι → Prop} (confined : Confined reads writes f s)
    (apart : ∀ x, writes x → ¬ region x) : Alike region s (f s) :=
  confined.keeps (.refl reads s) apart

theorem Confined.skip : Confined reads writes id s := fun _ _ _ => .inl ⟨rfl, rfl⟩

theorem Confined.congr (confined : Confined reads writes g s)
    (equal : ∀ s', Alike reads s s' → f s' = g s') : Confined reads writes f s := by
  intro s' alike x
  rw [equal s' alike, equal s (.refl reads s)]
  exact confined s' alike x

/-- One after the other. -/
theorem Confined.comp (first : Confined reads writes f s) (second : Confined reads writes g (f s)) :
    Confined reads writes (fun s' => g (f s')) s := by
  intro s' alike x
  have between : Alike reads (f s) (f s') := by
    intro y member
    rcases first s' alike y with ⟨same', same⟩ | ⟨_, equal⟩
    · rw [same', same]
      exact alike y member
    · exact equal
  rcases second (f s') between x with ⟨same', same⟩ | written
  · show g (f s') x = s' x ∧ g (f s) x = s x ∨ writes x ∧ g (f s') x = g (f s) x
    rw [same', same]
    exact first s' alike x
  · exact .inr written

/-- A loop whose rounds are confined while the invariant holds, and keep it. -/
theorem Confined.foldl {β : Type} (step : (ι → α) → β → ι → α) (inv : (ι → α) → Prop)
    (items : List β) (start : inv s)
    (round : ∀ a ∈ items, ∀ t, inv t →
      Confined reads writes (fun t' => step t' a) t ∧ inv (step t a)) :
    Confined reads writes (fun s' => items.foldl step s') s ∧ inv (items.foldl step s) := by
  induction items generalizing s with
  | nil => exact ⟨.skip, start⟩
  | cons a rest ih =>
      obtain ⟨first, next⟩ := round a List.mem_cons_self s start
      obtain ⟨later, final⟩ := ih next fun b member => round b (List.mem_cons_of_mem _ member)
      exact ⟨first.comp later, final⟩

/-- Transformers that leave each other's places alone commute. -/
theorem Confined.commute {reads' writes' : ι → Prop} (left : Confined reads writes f s)
    (right : Confined reads' writes' g s) (leaves : ∀ x, writes x → ¬ reads' x)
    (leaves' : ∀ x, writes' x → ¬ reads x) (apart : ∀ x, writes x → ¬ writes' x) :
    f (g s) = g (f s) := by
  funext x
  rcases left (g s) (right.alike leaves') x with ⟨same', same⟩ | ⟨inside, equal⟩
  · rcases right (f s) (left.alike leaves) x with ⟨kept', kept⟩ | ⟨_, equal'⟩
    · rw [same', kept', same, kept]
    · rw [same', equal']
  · rcases right (f s) (left.alike leaves) x with ⟨kept', _⟩ | ⟨inside', _⟩
    · rw [equal, kept']
    · exact absurd inside' (apart x inside)

end Rules

end Footprint
