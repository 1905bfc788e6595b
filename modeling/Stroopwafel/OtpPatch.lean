import Stroopwafel.BoyerMoore

set_option autoImplicit false

namespace Stroopwafel.OtpPatch

open Memory Matching BoyerMoore

section Model

/-- What a load of a word gives. Only aligned loads are those of the memory. -/
structure WordLoad where
  ldr : Mem → Word → Word
  aligned : ∀ m a, a &&& 3#32 = 0#32 → ldr m a = read32 m a

def otpPattern : List Byte := [0xE5#8, 0x85#8, 0x31#8, 0xEC#8, 0xE0#8, 0x84#8, 0x00#8, 0x07#8]

def push : Word := 0xE92D47F0#32

/-- The scan backwards, with `n` rounds left. -/
def scan (l : WordLoad) (m : Mem) : Nat → Word → Word
  | 0, otpReadAddr => otpReadAddr
  | n + 1, otpReadAddr =>
      if l.ldr m otpReadAddr = push then otpReadAddr else scan l m n (otpReadAddr - 4#32)

/-- The OTP step of `patch_general`: the stores that it makes. -/
def patchOtp (l : WordLoad) (m : Mem) (otpPtr : Word) (stub : List Byte) :
    Option (List (Word × List Byte)) :=
  if otpPtr = 0#32 then return []
  else do
    let otpReadAddr ← boyerMooreSearch 0x100001 m 0x08100000#32 0x100000 otpPattern
    return [(scan l m 0x100 otpReadAddr, stub)]

end Model

section OtpRead

def kernel (m : Mem) : List Byte := load m 0x08100000#32 0x100000

/-- `push {r4-r10, lr}` at a word, at most 0x100 words before the first pattern. -/
def IsOtpRead (m : Mem) (a : Word) : Prop :=
  ∃ k i : Nat, IsFirst (kernel m) otpPattern (some k) ∧ i ≤ 0x100 ∧
    a = 0x08100000#32 + BitVec.ofNat 32 k - BitVec.ofNat 32 (4 * i) ∧
    a &&& 3#32 = 0#32 ∧ read32 m a = push

/-- The stub is copied to such a push, or nothing is done where there is none. -/
def AllOrNothing (m : Mem) (stub : List Byte) (stores : List (Word × List Byte)) : Prop :=
  (∃ a, IsOtpRead m a ∧ stores = [(a, stub)]) ∨ ((¬ ∃ a, IsOtpRead m a) ∧ stores = [])

theorem aligned_sub (a : Word) (i : Nat) :
    (a - BitVec.ofNat 32 (4 * i)) &&& 3#32 = 0#32 ↔ a &&& 3#32 = 0#32 := by
  rw [multiple_of_four_iff, multiple_of_four_iff]
  bv_omega

/-- The scan stops at a push, if only in the last word that it comes to. -/
theorem scan_ok (l : WordLoad) (m : Mem) (n : Nat) (a : Word) (aligned : a &&& 3#32 = 0#32)
    (i : Nat) (within : i ≤ n) (found : read32 m (a - BitVec.ofNat 32 (4 * i)) = push) :
    ∃ j ≤ i, scan l m n a = a - BitVec.ofNat 32 (4 * j) ∧
      read32 m (a - BitVec.ofNat 32 (4 * j)) = push := by
  induction n generalizing a i with
  | zero =>
      have last : i = 0 := Nat.le_zero.mp within
      subst last
      exact ⟨0, Nat.le_refl 0, (BitVec.sub_zero a).symm, found⟩
  | succ n ih =>
      unfold scan
      by_cases here : l.ldr m a = push
      · refine ⟨0, Nat.zero_le i, ?_, ?_⟩
        · rw [if_pos here]
          exact (BitVec.sub_zero a).symm
        · rw [Nat.mul_zero, BitVec.sub_zero, ← l.aligned m a aligned, here]
      · rw [if_neg here]
        cases i with
        | zero =>
            rw [Nat.mul_zero, BitVec.sub_zero, ← l.aligned m a aligned] at found
            exact absurd found here
        | succ i =>
            have step : ∀ j, a - 4#32 - BitVec.ofNat 32 (4 * j) =
                a - BitVec.ofNat 32 (4 * (j + 1)) := by
              intro j
              rw [show (4#32 : Word) = BitVec.ofNat 32 4 from rfl, sub_ofNat_sub, Nat.mul_succ,
                Nat.add_comm 4]
            obtain ⟨j, fewer, result, isPush⟩ := ih (a - 4#32) ((aligned_sub a 1).mpr aligned) i
              (Nat.le_of_succ_le_succ within) (by rw [step]; exact found)
            rw [step] at result isPush
            exact ⟨j + 1, Nat.succ_le_succ fewer, result, isPush⟩

theorem patchOtp_stores (l : WordLoad) (m : Mem) (otpPtr : Word) (stub : List Byte)
    (given : otpPtr ≠ 0#32) :
    ∃ first, IsFirst (kernel m) otpPattern first ∧ patchOtp l m otpPtr stub =
      some [(scan l m 0x100 (pointer 0x08100000#32 first), stub)] := by
  obtain ⟨first, found, isFirst⟩ := boyerMooreSearch_ok 0x100001 m 0x08100000#32 0x100000
    otpPattern (Nat.le_refl _) (by decide) (by decide)
  refine ⟨first, isFirst, ?_⟩
  unfold patchOtp
  rw [if_neg given, found]
  rfl

/-- The step is all or nothing if and only if the kernel has such a push. -/
theorem patchOtp_iff (l : WordLoad) (m : Mem) (otpPtr : Word) (stub : List Byte)
    (given : otpPtr ≠ 0#32) :
    (∃ stores, patchOtp l m otpPtr stub = some stores ∧ AllOrNothing m stub stores) ↔
      ∃ a, IsOtpRead m a := by
  obtain ⟨first, isFirst, stored⟩ := patchOtp_stores l m otpPtr stub given
  constructor
  · intro ⟨stores, result, correct⟩
    rcases correct with ⟨a, isOtpRead, _⟩ | ⟨_, nothing⟩
    · exact ⟨a, isOtpRead⟩
    · rw [stored, nothing] at result
      cases result
  · intro ⟨a, k, i, isFirst', within, address, aligned, isPush⟩
    have same : first = some k := isFirst.unique isFirst'
    subst same address
    have start : (0x08100000#32 + BitVec.ofNat 32 k) &&& 3#32 = 0#32 :=
      (aligned_sub _ i).mp aligned
    obtain ⟨j, fewer, result, found⟩ := scan_ok l m 0x100 _ start i within isPush
    refine ⟨_, stored, Or.inl ⟨0x08100000#32 + BitVec.ofNat 32 k - BitVec.ofNat 32 (4 * j), ?_, ?_⟩⟩
    · exact ⟨k, j, isFirst, Nat.le_trans fewer within, rfl, (aligned_sub _ j).mpr start, found⟩
    · rw [pointer, result]

def wordLoad : WordLoad where
  ldr := read32
  aligned _ _ _ := rfl

/-- The push at the start of the kernel, and the pattern four words behind it -/
def sampleMem : Mem :=
  store (write32 (fun _ => 0#8) 0x08100000#32 push) 0x08100010#32 otpPattern

theorem kernel_getElem? (m : Mem) (k : Nat) (inside : k < 0x100000) :
    (kernel m)[k]? = some (m (0x08100000#32 + BitVec.ofNat 32 k)) := by
  have length : k < (load m 0x08100000#32 0x100000).length := by rwa [load_length]
  rw [kernel, List.getElem?_eq_getElem length, load_getElem]

theorem sampleMem_isOtpRead : IsOtpRead sampleMem 0x08100000#32 := by
  refine ⟨0x10, 4, ⟨?_, ?_⟩, by decide, by decide, by decide, by decide⟩
  · intro i inside
    have short : i < 8 := inside
    rw [kernel_getElem? _ _ (by omega)]
    revert i
    decide
  · intro k before occurs
    have first := occurs 0 (by decide)
    rw [Nat.add_zero, kernel_getElem? _ _ (by omega)] at first
    have other :
        ∀ k < 16, some (sampleMem (0x08100000#32 + BitVec.ofNat 32 k)) ≠ otpPattern[0]? := by
      decide
    exact other k before first

theorem patchOtp_iff_sample :
    ∃ stores, patchOtp wordLoad sampleMem 1#32 [0xE5#8] = some stores ∧
      AllOrNothing sampleMem [0xE5#8] stores :=
  (patchOtp_iff wordLoad sampleMem 1#32 [0xE5#8] (by decide)).mpr ⟨_, sampleMem_isOtpRead⟩

def unknownMem : Mem := fun _ => 0#8

theorem unknownMem_absent (a : Word) : ¬ IsOtpRead unknownMem a := by
  intro ⟨_, _, _, _, _, _, isPush⟩
  exact absurd isPush (by unfold read32 read16 unknownMem push; decide)

/-- The stub is copied all the same, 0x100 words below address 0. -/
theorem unknown_patched : ∃ stores, patchOtp wordLoad unknownMem 1#32 [0xE5#8] = some stores ∧
    ¬ AllOrNothing unknownMem [0xE5#8] stores := by
  obtain ⟨first, _, stored⟩ := patchOtp_stores wordLoad unknownMem 1#32 [0xE5#8] (by decide)
  refine ⟨_, stored, fun correct => ?_⟩
  rcases correct with ⟨a, isOtpRead, _⟩ | ⟨_, nothing⟩
  · exact unknownMem_absent a isOtpRead
  · cases nothing

end OtpRead

end Stroopwafel.OtpPatch
