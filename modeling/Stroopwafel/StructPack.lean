import Stroopwafel.ByteFile

set_option autoImplicit false

/- Unsigned numbers in big-endian fields, one after the other. -/
namespace StructPack

open ByteFile

abbrev Octet := BitVec 8

/-- The number in the bytes -/
def value (data : List Octet) : Nat := data.foldl (fun n b => 256 * n + b.toNat) 0

/-- The last `size` bytes of the number -/
def digits : Nat → Nat → List Octet
  | 0, _ => []
  | size + 1, n => digits size (n / 256) ++ [BitVec.ofNat 8 n]

/-- A number that does not fit is an error. -/
def packOne (size : Nat) (n : Int) : Option (List Octet) :=
  if 0 ≤ n ∧ n < (256 ^ size : Nat) then some (digits size n.toNat) else none

def pack : List Nat → List Int → Option (List Octet)
  | size :: sizes, n :: values => do
      let first ← packOne size n
      let rest ← pack sizes values
      return first ++ rest
  | [], [] => some []
  | _, _ => none

/-- The end of the file is an error. -/
def readOne (size : Nat) (file : File Octet) : Option (Nat × File Octet) :=
  let data := (file.read size).1
  if data.length = size then some (value data, (file.read size).2) else none

def readAll : List Nat → File Octet → Option (List Nat × File Octet)
  | [], file => some ([], file)
  | size :: sizes, file => do
      let (n, file) ← readOne size file
      let (values, file) ← readAll sizes file
      return (n :: values, file)

theorem digits_length (size n : Nat) : (digits size n).length = size := by
  induction size generalizing n with
  | zero => rfl
  | succ size ih => rw [digits, List.length_append, ih, List.length_singleton]

theorem value_digits (size n : Nat) (fits : n < 256 ^ size) : value (digits size n) = n := by
  induction size generalizing n with
  | zero =>
      rw [Nat.pow_zero] at fits
      exact (Nat.lt_one_iff.mp fits).symm
  | succ size ih =>
      have rest := ih (n / 256) (by
        rw [Nat.pow_succ] at fits
        exact (Nat.div_lt_iff_lt_mul (by decide)).mpr fits)
      unfold value at *
      rw [digits, List.foldl_append, rest, List.foldl_cons, List.foldl_nil, BitVec.toNat_ofNat]
      omega

theorem packOne_length {size : Nat} {n : Int} {data : List Octet}
    (packed : packOne size n = some data) : data.length = size := by
  unfold packOne at packed
  split at packed
  · cases packed
    exact digits_length size n.toNat
  · cases packed

theorem packOne_value {size : Nat} {n : Int} {data : List Octet}
    (packed : packOne size n = some data) : (value data : Int) = n := by
  unfold packOne at packed
  split at packed
  · rename_i fits
    cases packed
    rw [value_digits]
    · exact Int.toNat_of_nonneg fits.1
    · exact (Int.toNat_lt fits.1).mpr fits.2
  · cases packed

theorem pack_length {sizes : List Nat} {values : List Int} {data : List Octet}
    (packed : pack sizes values = some data) : data.length = sizes.sum := by
  induction sizes generalizing values data with
  | nil =>
      cases values with
      | nil =>
          cases packed
          rfl
      | cons n values => cases packed
  | cons size sizes ih =>
      cases values with
      | nil => cases packed
      | cons n values =>
          obtain ⟨first, head, packed⟩ := Option.bind_eq_some_iff.mp packed
          obtain ⟨rest, tail, whole⟩ := Option.bind_eq_some_iff.mp packed
          cases whole
          rw [List.length_append, packOne_length head, ih tail, List.sum_cons]

theorem pack_fits (size : Nat) {n : Int} (positive : 0 ≤ n) (fits : n < (256 ^ size : Nat)) :
    ∃ data, pack [size] [n] = some data := by
  refine ⟨digits size n.toNat ++ [], ?_⟩
  unfold pack packOne
  rw [if_pos ⟨positive, fits⟩]
  rfl

/-- What was packed is read. -/
theorem readAll_pack {sizes : List Nat} {values : List Int} {data : List Octet}
    (packed : pack sizes values = some data) (file : File Octet) (tail : List Octet)
    (rest : file.rest = data ++ tail) :
    ∃ numbers after, readAll sizes file = some (numbers, after) ∧
      numbers.map Int.ofNat = values := by
  induction sizes generalizing values data file with
  | nil =>
      cases values with
      | nil => exact ⟨[], file, rfl, rfl⟩
      | cons n values => cases packed
  | cons size sizes ih =>
      cases values with
      | nil => cases packed
      | cons n values =>
          obtain ⟨first, head, packed⟩ := Option.bind_eq_some_iff.mp packed
          obtain ⟨others, following, whole⟩ := Option.bind_eq_some_iff.mp packed
          cases whole
          have length := packOne_length head
          have data : (file.read size).1 = first := by
            rw [read_data, rest, List.append_assoc, ← length, List.take_left]
          have behind : (file.read size).2.rest = others ++ tail := by
            rw [read_rest, rest, List.append_assoc, ← length, List.drop_left]
          obtain ⟨numbers, after, read, equal⟩ := ih following (file.read size).2 behind
          refine ⟨value first :: numbers, after, ?_, ?_⟩
          · rw [readAll, readOne, data, if_pos length, Option.bind_eq_bind, Option.bind_some]
            dsimp only
            rw [read]
            rfl
          · rw [List.map_cons, equal]
            exact congrArg (· :: values) (packOne_value head)

end StructPack
