import Stroopwafel.CString
import Stroopwafel.Layout

set_option autoImplicit false

namespace Memory

open Layout

/-- The `n` bytes from `base` on are those of `f`. -/
def Holds (m : Mem) (base : Word) (n : Nat) (f : Nat → Byte) : Prop :=
  ∀ i < n, m (base + BitVec.ofNat 32 i) = f i

theorem Holds.load {m : Mem} {base : Word} {n : Nat} {f : Nat → Byte} (holds : Holds m base n f) :
    load m base n = (List.range n).map f := by
  apply List.map_congr_left
  intro i member
  exact holds i (List.mem_range.mp member)

/-- The bytes of a buffer, and zero behind it. -/
def bytesOf (b : List Byte) : Nat → Byte := fun i => (b[i]?).getD 0#8

theorem store_zeros (m : Mem) (base : Word) (n : Nat) (bound : n ≤ 2 ^ 32) :
    Holds (store m base (List.replicate n 0#8)) base n fun _ => 0#8 := by
  intro i inside
  rw [store_inside m base _ i (by simpa using inside) (by simpa using bound)]
  exact List.getElem_replicate _

theorem Holds.store {m : Mem} {base : Word} {n : Nat} {f : Nat → Byte} (holds : Holds m base n f)
    (bound : n ≤ 2 ^ 32) (offset : Nat) (bytes : List Byte) (fits : offset + bytes.length ≤ n) :
    Holds (store m (base + BitVec.ofNat 32 offset) bytes) base n (overlay f offset bytes) := by
  intro i inside
  by_cases lower : i < offset
  · rw [overlay_before f offset bytes i lower, store_outside, holds i inside]
    bv_omega
  · obtain ⟨j, rfl⟩ := Nat.exists_eq_add_of_le (Nat.le_of_not_lt lower)
    by_cases within : j < bytes.length
    · rw [overlay_inside f offset bytes j within, ← ofNat_add_ofNat,
        store_inside m _ bytes j within (by omega)]
    · rw [overlay_after f offset bytes _ (by omega), store_outside, holds _ inside]
      bv_omega

theorem Holds.strncpy {m : Mem} {base : Word} {n : Nat} {f : Nat → Byte} (holds : Holds m base n f)
    (bound : n ≤ 2 ^ 32) (offset count : Nat) (fits : offset + count ≤ n) (src : Word)
    (s : List Byte) (str : CString.Str m src s) (apart : Apart src (s.length + 1) base n) :
    Holds (CString.strncpy m (base + BitVec.ofNat 32 offset) src count) base n
      (overlay f offset (padded 0#8 count s)) := by
  intro i inside
  by_cases lower : i < offset
  · rw [overlay_before f offset _ i lower, CString.strncpy_outside, holds i inside]
    intro j within same
    bv_omega
  · obtain ⟨j, rfl⟩ := Nat.exists_eq_add_of_le (Nat.le_of_not_lt lower)
    by_cases within : j < count
    · rw [overlay_inside f offset _ j (by simpa using within), ← ofNat_add_ofNat,
        CString.strncpy_str m _ src count s str (by omega) ?_ j within]
      · simp only [padded, List.getElem_map, List.getElem_range, List.getD_eq_getElem?_getD]
      · exact (apart.comm.sub offset fits).comm
    · rw [overlay_after f offset _ _ (by rw [padded_length]; omega), CString.strncpy_outside,
        holds _ inside]
      intro k below same
      bv_omega

end Memory
