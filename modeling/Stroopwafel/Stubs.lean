import Stroopwafel.Memory

set_option autoImplicit false

/- Memory with one block of halfwords copied to several places. -/
namespace Stubs

open Memory

def blockBytes (block : List Half) : List Byte := block.flatMap bytes16

@[simp] theorem blockBytes_length (block : List Half) :
    (blockBytes block).length = 2 * block.length := by
  induction block with
  | nil => rfl
  | cons h rest ih =>
      unfold blockBytes at ih ⊢
      rw [List.flatMap_cons, List.length_append, ih, bytes16_length, List.length_cons]
      omega

theorem blockBytes_getElem? (block : List Half) (i : Nat) (inside : i < block.length) :
    (blockBytes block)[2 * i]? = some (block[i].extractLsb' 8 8) ∧
      (blockBytes block)[2 * i + 1]? = some (block[i].extractLsb' 0 8) := by
  induction block generalizing i with
  | nil => exact absurd inside (Nat.not_lt_zero i)
  | cons h rest ih =>
      have bytes : blockBytes (h :: rest) = h.extractLsb' 8 8 :: h.extractLsb' 0 8 ::
        blockBytes rest := rfl
      rw [bytes]
      cases i with
      | zero => exact ⟨rfl, rfl⟩
      | succ i => exact ih i (Nat.lt_of_succ_lt_succ inside)

theorem read16_store_block (m : Mem) (w : Word) (block : List Half) (i : Nat)
    (inside : i < block.length) (bound : 2 * block.length ≤ 2 ^ 32) :
    read16 (store m w (blockBytes block)) (w + BitVec.ofNat 32 (2 * i)) = block[i] := by
  obtain ⟨high, low⟩ := blockBytes_getElem? block i inside
  have first : (w + BitVec.ofNat 32 (2 * i) - w).toNat = 2 * i :=
    add_sub_self_toNat w (2 * i) (by omega)
  have second : (w + BitVec.ofNat 32 (2 * i) + 1#32 - w).toNat = 2 * i + 1 := by bv_omega
  unfold read16 store
  rw [first, second, high, low]
  exact bytes16_join block[i]

section Places

variable (block : List Half)

/-- The block stands at each place, and nothing else has changed. -/
structure Stubbed (places : Word → Prop) (m m' : Mem) : Prop where
  stub : ∀ w, places w → ∀ i, (inside : i < block.length) →
    read16 m' (w + BitVec.ofNat 32 (2 * i)) = block[i]
  kept : ∀ x, (∀ w, places w → 2 * block.length ≤ (x - w).toNat) → m' x = m x

/-- A halfword with room for the block. -/
def Room (w : Word) : Prop := w.toNat % 2 = 0 ∧ w.toNat + 2 * block.length ≤ 2 ^ 32

def Covered (places : Word → Prop) (x : Word) : Prop :=
  ∃ w, places w ∧ w.toNat ≤ x.toNat ∧ x.toNat < w.toNat + 2 * block.length

variable {block} {places : Word → Prop} {m m' : Mem}

theorem Stubbed.none (never : ∀ w, ¬ places w) : Stubbed block places m m where
  stub w isPlace := absurd isPlace (never w)
  kept _ _ := rfl

theorem Stubbed.congr {places' : Word → Prop} (stubbed : Stubbed block places m m')
    (same : ∀ w, places' w ↔ places w) : Stubbed block places' m m' where
  stub w isPlace := stubbed.stub w ((same w).mp isPlace)
  kept x outside := stubbed.kept x fun w isPlace => outside w ((same w).mpr isPlace)

/-- A halfword of the block at `w`. -/
theorem within_block {w x : Word} (room : Room block w) (even : x.toNat % 2 = 0)
    (lower : w.toNat ≤ x.toNat) (upper : x.toNat < w.toNat + 2 * block.length) :
    ∃ i < block.length, x = w + BitVec.ofNat 32 (2 * i) := by
  have evenW := room.1
  exact ⟨(x.toNat - w.toNat) / 2, by omega, by bv_omega⟩

theorem Stubbed.covered (stubbed : Stubbed block places m m')
    (room : ∀ w, places w → Room block w) {x : Word} (even : x.toNat % 2 = 0)
    (covered : Covered block places x) : read16 m' x ∈ block := by
  obtain ⟨w, isPlace, lower, upper⟩ := covered
  obtain ⟨i, inside, address⟩ := within_block (room w isPlace) even lower upper
  rw [address, stubbed.stub w isPlace i inside]
  exact List.getElem_mem inside

/-- A byte outside of the block at `w`. -/
theorem outside_block {w x : Word} (room : Room block w)
    (outside : ¬ (w.toNat ≤ x.toNat ∧ x.toNat < w.toNat + 2 * block.length)) :
    2 * block.length ≤ (x - w).toNat := by
  have fits := room.2
  bv_omega

theorem Stubbed.uncovered (stubbed : Stubbed block places m m')
    (room : ∀ w, places w → Room block w) {x : Word} (even : x.toNat % 2 = 0)
    (uncovered : ¬ Covered block places x) : read16 m' x = read16 m x := by
  have outside : ∀ w, places w →
      ¬ (w.toNat ≤ x.toNat ∧ x.toNat < w.toNat + 2 * block.length) :=
    fun w isPlace within => uncovered ⟨w, isPlace, within⟩
  have next : (x + 1#32).toNat = x.toNat + 1 := by bv_omega
  unfold read16
  rw [stubbed.kept x fun w isPlace => outside_block (room w isPlace) (outside w isPlace),
    stubbed.kept (x + 1#32)]
  intro w isPlace
  apply outside_block (room w isPlace)
  have evenW := (room w isPlace).1
  have before := outside w isPlace
  omega

/-- One more block, apart from those that are there. -/
theorem Stubbed.store (stubbed : Stubbed block places m m') (room : ∀ w, places w → Room block w)
    (w : Word) (roomW : Room block w)
    (apart : ∀ w', places w' → w'.toNat + 2 * block.length ≤ w.toNat ∨
      w.toNat + 2 * block.length ≤ w'.toNat) :
    Stubbed block (fun w' => places w' ∨ w' = w) m (store m' w (blockBytes block)) := by
  have fits := roomW.2
  constructor
  · intro w' isPlace i inside
    rcases isPlace with isPlace | same
    · have roomW' := (room w' isPlace).2
      have either := apart w' isPlace
      have distinct : Apart (w' + BitVec.ofNat 32 (2 * i)) 2 w (blockBytes block).length := by
        rw [blockBytes_length]
        rcases either with below | above
        · exact apart_of_order (by bv_omega) (by omega)
        · exact (apart_of_order (by bv_omega) (by bv_omega)).comm
      rw [(store_apart m' _ w 2 _ distinct).read16]
      exact stubbed.stub w' isPlace i inside
    · rw [same]
      exact read16_store_block m' w block i inside (by omega)
  · intro x outside
    rw [store_outside m' w x _ (by rw [blockBytes_length]; exact outside w (.inr rfl))]
    exact stubbed.kept x fun w' isPlace => outside w' (.inl isPlace)

/-- What a block does to a halfword: it is one of the block's, or unchanged. -/
theorem read16_block (w x : Word) (room : Room block w) (even : x.toNat % 2 = 0) :
    read16 (Memory.store m w (blockBytes block)) x ∈ block ∨
      read16 (Memory.store m w (blockBytes block)) x = read16 m x := by
  have nowhere : Stubbed block (fun _ => False) m m := Stubbed.none fun _ => id
  have alone := nowhere.store (fun _ => False.elim) w room (fun _ => False.elim)
  have rooms : ∀ w', False ∨ w' = w → Room block w' := by
    intro w' either
    rw [either.resolve_left id]
    exact room
  by_cases covered : Covered block (fun w' => False ∨ w' = w) x
  · exact .inl (alone.covered rooms even covered)
  · exact .inr (alone.uncovered rooms even covered)

/-- Two blocks cannot overlap when the first halfword is not in the block again. -/
theorem Stubbed.apart {head : Half} {rest : List Half}
    (stubbed : Stubbed (head :: rest) places m m') (room : ∀ w, places w → Room (head :: rest) w)
    (once : head ∉ rest) (w w' : Word) (isPlace : places w) (isPlace' : places w')
    (order : w.toNat < w'.toNat) : w.toNat + 2 * (head :: rest).length ≤ w'.toNat := by
  apply Nat.le_of_not_lt
  intro overlap
  have evenW' := (room w' isPlace').1
  obtain ⟨i, inside, address⟩ := within_block (room w isPlace) evenW' (Nat.le_of_lt order) overlap
  have first := stubbed.stub w' isPlace' 0 (Nat.zero_lt_succ _)
  rw [Nat.mul_zero, BitVec.add_zero, List.getElem_cons_zero, address,
    stubbed.stub w isPlace i inside] at first
  cases i with
  | zero =>
      rw [Nat.mul_zero, BitVec.add_zero] at address
      rw [address] at order
      exact Nat.lt_irrefl _ order
  | succ i =>
      rw [List.getElem_cons_succ] at first
      exact once (first ▸ List.getElem_mem _)

end Places

end Stubs
