import Stroopwafel.Cache

set_option autoImplicit false

namespace Stroopwafel.Patch

open Memory Cache

/-- The loop of `memcpy16` over `count` halfwords, with the addresses that are stored to. -/
def memcpy16Loop (m : Mem) (r0 r1 : Word) : Nat → Mem × List Word
  | 0 => (m, [])
  | count + 1 =>
      let p := memcpy16Loop (write16 m r0 (read16 m r1)) (r0 + 2#32) (r1 + 2#32) count
      (p.1, r0 :: p.2)

/-- An odd size is rounded down. -/
def memcpy16 (m : Mem) (dst src size : Word) : Mem × List Word :=
  memcpy16Loop m dst src ((size &&& ~~~1#32).toNat / 2)

/-- What a patch does: the memory behind it, the halfwords that it stores, and what it does to the
cache. -/
structure Patched where
  mem : Mem
  stores : List Word
  ops : List Op

/-- `_patch_u32`, with the value in the stack slot `slot` -/
def patchU32 (m : Mem) (slot addr val : Word) : Patched :=
  let p := memcpy16 (write32 m slot val) addr slot 4#32
  ⟨p.1, p.2, dcFlushrange addr 4#32⟩

/-- `_patch_copy`: the range that is flushed has the size of a word. -/
def patchCopy (m : Mem) (dst src sz : Word) : Patched :=
  let p := memcpy16 m dst src sz
  ⟨p.1, p.2, dcFlushrange dst 4#32⟩

/-- `U32_PATCH`, `MEMCPY_PATCH`, and `ASM_PATCH` and `ASM_T_PATCH` with code from `pre` to `post` -/
def u32Patch (m : Mem) (slot addr val : Word) : Patched := patchU32 m slot addr val
def memcpyPatch (m : Mem) (addr dst sz : Word) : Patched := patchCopy m addr dst sz
def asmPatch (m : Mem) (addr pre post : Word) : Patched := patchCopy m addr pre (post - pre)

def Patched.Writes (p : Patched) (x : Word) : Prop := ∃ a ∈ p.stores, x = a ∨ x = a + 1#32

def Patched.Clean (p : Patched) : Prop := ∀ x, p.Writes x → Cleans p.ops (line x)

/-- The bytes from `dst` to the end of the last line of the word at `dst`. -/
def room (dst : Word) : Nat := 32 * lines dst 4#32 - dst.toNat % 32

section Copy

variable (m : Mem)

theorem memcpy16Loop_stores (r0 r1 : Word) (count : Nat) :
    (memcpy16Loop m r0 r1 count).2 =
      (List.range count).map fun i => r0 + BitVec.ofNat 32 (2 * i) := by
  induction count generalizing m r0 r1 with
  | zero => rfl
  | succ count ih =>
      rw [memcpy16Loop, ih, List.range_succ_eq_map, List.map_cons, List.map_map, Nat.mul_zero,
        BitVec.add_zero]
      apply congrArg (List.cons r0)
      apply List.map_congr_left
      intro i _
      rw [Function.comp_apply, show (2#32 : Word) = BitVec.ofNat 32 2 from rfl, ofNat_add_ofNat,
        Nat.mul_succ, Nat.add_comm]

theorem halves_toNat (size : Word) : (size &&& ~~~1#32).toNat / 2 = size.toNat / 2 := by
  have low : (size &&& 1#32).toNat = size.toNat % 2 := by
    rw [BitVec.toNat_and]
    exact Nat.and_two_pow_sub_one_eq_mod size.toNat 1
  have bound := size.isLt
  rw [Arm.clear_bits, BitVec.toNat_sub, low]
  omega

theorem memcpy16_writes (dst src size x : Word) :
    (∃ a ∈ (memcpy16 m dst src size).2, x = a ∨ x = a + 1#32) ↔
      ∃ i < 2 * (size.toNat / 2), x = dst + BitVec.ofNat 32 i := by
  unfold memcpy16
  rw [memcpy16Loop_stores, halves_toNat]
  constructor
  · rintro ⟨a, member, here⟩
    obtain ⟨k, inside, rfl⟩ := List.mem_map.mp member
    rw [List.mem_range] at inside
    rcases here with rfl | rfl
    · exact ⟨2 * k, by omega, rfl⟩
    · refine ⟨2 * k + 1, by omega, ?_⟩
      rw [show (1#32 : Word) = BitVec.ofNat 32 1 from rfl, ofNat_add_ofNat]
  · rintro ⟨i, inside, rfl⟩
    refine ⟨dst + BitVec.ofNat 32 (2 * (i / 2)), ?_, ?_⟩
    · exact List.mem_map.mpr ⟨i / 2, List.mem_range.mpr (by omega), rfl⟩
    · rcases Nat.mod_two_eq_zero_or_one i with even | odd
      · left
        rw [show 2 * (i / 2) = i by omega]
      · right
        rw [show (1#32 : Word) = BitVec.ofNat 32 1 from rfl, ofNat_add_ofNat,
          show 2 * (i / 2) + 1 = i by omega]

end Copy

section Clean

theorem line_byte (dst : Word) (i : Nat) :
    line (dst + BitVec.ofNat 32 i) = (dst.toNat / 32 + (dst.toNat % 32 + i) / 32) % 2 ^ 27 := by
  unfold line
  rw [BitVec.toNat_add, BitVec.toNat_ofNat]
  omega

theorem patchCopy_clean_iff (m : Mem) (dst src sz : Word) :
    (patchCopy m dst src sz).Clean ↔ 2 * (sz.toNat / 2) ≤ room dst := by
  have two : lines dst 4#32 ≤ 2 := by
    unfold lines
    simp only [BitVec.toNat_ofNat]
    omega
  have one : dst.toNat % 32 + 4 ≤ 32 * lines dst 4#32 := by
    unfold lines
    simp only [BitVec.toNat_ofNat]
    omega
  have counted := rounds_exact dst 4#32 (by decide) (by omega)
  have cleaned := dcFlushrange_lines dst 4#32 (by decide)
  rw [counted] at cleaned
  have bytes : ∀ x, (patchCopy m dst src sz).Writes x ↔
      ∃ i < 2 * (sz.toNat / 2), x = dst + BitVec.ofNat 32 i :=
    memcpy16_writes m dst src sz
  unfold room
  constructor
  · intro clean
    apply Nat.le_of_not_lt
    intro long
    have written := (bytes _).mpr ⟨_, long, rfl⟩
    have stale := clean _ written
    rw [line_byte] at stale
    obtain ⟨k, inside, same⟩ := (cleaned _).mp stale
    omega
  · intro fits x written
    obtain ⟨i, inside, rfl⟩ := (bytes x).mp written
    rw [line_byte]
    exact (cleaned _).mpr ⟨(dst.toNat % 32 + i) / 32, by omega, rfl⟩

theorem patchU32_clean (m : Mem) (slot addr val : Word) : (patchU32 m slot addr val).Clean := by
  have word := patchCopy_clean_iff (write32 m slot val) addr slot 4#32
  apply word.mpr
  unfold room lines
  simp only [BitVec.toNat_ofNat]
  omega

/-- The patches leave nothing in the data cache if and only if the copy of `sz` bytes, rounded down
to halfwords, ends in the last line of the word at its destination. -/
theorem patches_clean_iff (m : Mem) (slot addr val dst src sz : Word) :
    ((u32Patch m slot addr val).Clean ∧ (memcpyPatch m dst src sz).Clean ∧
        (asmPatch m dst src (src + sz)).Clean) ↔
      2 * (sz.toNat / 2) ≤ room dst := by
  have size : src + sz - src = sz := by grind
  unfold u32Patch memcpyPatch asmPatch
  rw [size, and_iff_right (patchU32_clean m slot addr val), and_self, patchCopy_clean_iff]

/-- The second line of a patch of 64 bytes at 0x1000 is not cleaned. -/
theorem second_line_stale :
    ¬ (memcpyPatch (fun _ => 0#8) 0x1000#32 0x2000#32 64#32).Clean := by
  unfold memcpyPatch
  rw [patchCopy_clean_iff]
  decide

end Clean

end Stroopwafel.Patch

