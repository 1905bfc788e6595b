import Stroopwafel.Loops
import Stroopwafel.Memory

set_option autoImplicit false

namespace Stroopwafel.HaiCompanion

open Memory

section Hai

/-- The loop over the extents; `fuel` is more than its rounds. -/
def addLoop (offsetInAddressUnits : Word) (bound : Nat) : Nat → Nat → List Word → List Word
  | 0, _, buffer => buffer
  | fuel + 1, i, buffer =>
      if i < bound then
        addLoop offsetInAddressUnits bound fuel (i + 2) (buffer.modify i (· + offsetInAddressUnits))
      else buffer

def haiCompanionAddOffset (buffer : List Word) (offset : Word) : List Word :=
  let numberExtends := buffer.getD 0 0#32
  let addressUnitBase := buffer.getD 1 0#32 >>> 16
  let addressUnitBaseLbas := addressUnitBase - 9#32
  let offsetInAddressUnits := offset >>> addressUnitBaseLbas
  let bound := (numberExtends * 2#32 + 2#32).toNat
  addLoop offsetInAddressUnits bound bound 2 buffer

end Hai

section Sal

/-- The arguments of the block device functions that `sal_partition.c` looks at. -/
structure Blocks where
  lbaHi : Word
  lbaLo : Word
  blkCount : Word
  blockSize : Word

/-- `ADD_OFFSET` -/
def Blocks.addOffset (blocks : Blocks) (partitionOffset : Word) : Blocks :=
  let combined := blocks.lbaHi ++ blocks.lbaLo + partitionOffset.setWidth 64
  { blocks with lbaHi := combined.extractLsb' 32 32, lbaLo := combined.extractLsb' 0 32 }

/-- `write_wrapper` and `sync_wrapper` do the same. -/
def readWrapper {α : Type} (realRead : Blocks → α) (partitionOffset : Word) (blocks : Blocks) : α :=
  realRead (blocks.addOffset partitionOffset)

def Blocks.sector (blocks : Blocks) : Nat := (blocks.lbaHi ++ blocks.lbaLo).toNat

def Blocks.at (sector : Nat) (blkCount blockSize : Word) : Blocks :=
  let lba := BitVec.ofNat 64 sector
  ⟨lba.extractLsb' 32 32, lba.extractLsb' 0 32, blkCount, blockSize⟩

theorem halves_join64 (x : BitVec 64) : x.extractLsb' 32 32 ++ x.extractLsb' 0 32 = x :=
  (BitVec.extractLsb'_append_extractLsb'_eq_extractLsb' rfl).trans BitVec.extractLsb'_eq_self

theorem at_sector (sector : Nat) (blkCount blockSize : Word) (bound : sector < 2 ^ 64) :
    (Blocks.at sector blkCount blockSize).sector = sector := by
  simp only [Blocks.sector, Blocks.at, halves_join64, BitVec.toNat_ofNat]
  exact Nat.mod_eq_of_lt bound

/-- The addition carries into the high word. -/
theorem addOffset_sector (blocks : Blocks) (partitionOffset : Word)
    (bound : blocks.sector + partitionOffset.toNat < 2 ^ 64) :
    (blocks.addOffset partitionOffset).sector = blocks.sector + partitionOffset.toNat := by
  unfold Blocks.sector at bound
  have offset : (partitionOffset.setWidth 64).toNat = partitionOffset.toNat := by
    rw [BitVec.toNat_setWidth]
    exact Nat.mod_eq_of_lt (by omega)
  simp only [Blocks.sector, Blocks.addOffset, halves_join64, BitVec.toNat_add, offset]
  exact Nat.mod_eq_of_lt bound

end Sal

section Companion

/-- An extent in address units. -/
structure Extent where
  start : Word
  length : Word

/-- A companion buffer: `info` holds the exponent of the address unit in its high half. -/
structure Companion where
  info : Word
  extents : List Extent
  rest : List Word
  fits : 2 + 2 * extents.length + rest.length ≤ 2 ^ 30
  unit : 9 ≤ (info >>> 16).toNat

def Companion.words (c : Companion) (extents : List Extent) : List Word :=
  [BitVec.ofNat 32 c.extents.length, c.info] ++ extents.flatMap (fun e => [e.start, e.length]) ++
    c.rest

def Companion.buffer (c : Companion) : List Word := c.words c.extents

/-- The sectors of an address unit, as an exponent. -/
def Companion.shift (c : Companion) : Nat := (c.info >>> 16).toNat - 9

def Companion.sector (c : Companion) (e : Extent) : Nat := e.start.toNat * 2 ^ c.shift

def Companion.Within (c : Companion) (partitionSize : Word) : Prop :=
  ∀ e ∈ c.extents, (e.start.toNat + e.length.toNat) * 2 ^ c.shift ≤ partitionSize.toNat

/-- The offset as the companion gets it. -/
def Companion.units (c : Companion) (offset : Word) : Word := offset >>> c.shift

def Companion.moved (c : Companion) (offset : Word) (e : Extent) : Extent :=
  { e with start := e.start + c.units offset }

theorem addLoop_extents (units : Word) (extents : List Extent) (front rest : List Word)
    (fuel : Nat) (enough : extents.length ≤ fuel) :
    addLoop units (front.length + 2 * extents.length) fuel front.length
        (front ++ (extents.flatMap (fun e => [e.start, e.length]) ++ rest)) =
      front ++ ((extents.map fun e => { e with start := e.start + units }).flatMap
        (fun e => [e.start, e.length]) ++ rest) := by
  induction extents generalizing front fuel with
  | nil =>
      cases fuel with
      | zero => rfl
      | succ fuel => exact if_neg (Nat.lt_irrefl _)
  | cons e extents ih =>
      obtain ⟨fuel, rfl⟩ := Nat.exists_eq_add_of_le' (Nat.le_trans (Nat.succ_pos _) enough)
      have tail := ih (front ++ [e.start + units, e.length]) fuel
        (by rw [List.length_cons] at enough; omega)
      have bound : front.length + 2 * (e :: extents).length =
          (front ++ [e.start + units, e.length]).length + 2 * extents.length := by
        simp only [List.length_append, List.length_cons, List.length_nil]
        omega
      have inside : front.length < front.length + 2 * (e :: extents).length := by
        rw [List.length_cons]
        omega
      unfold addLoop
      rw [if_pos inside, bound]
      simp only [List.flatMap_cons, List.map_cons, List.cons_append, List.nil_append,
        Loops.modify_append]
      simpa using tail

/-- The loop moves the start of every extent and leaves all other words alone. -/
theorem haiCompanionAddOffset_words (c : Companion) (offset : Word) :
    haiCompanionAddOffset c.buffer offset = c.words (c.extents.map (c.moved offset)) := by
  have few := c.fits
  have count : (BitVec.ofNat 32 c.extents.length * 2#32 + 2#32 : Word).toNat =
      2 + 2 * c.extents.length := by
    bv_omega
  have base : (c.info >>> 16 - 9#32 : Word).toNat = c.shift := by
    have unit := c.unit
    unfold Companion.shift
    bv_omega
  have shifted : offset >>> (c.info >>> 16 - 9#32 : Word) = c.units offset := by
    rw [BitVec.ushiftRight_eq', base]
    rfl
  have loop := addLoop_extents (c.units offset) c.extents
    [BitVec.ofNat 32 c.extents.length, c.info] c.rest (2 + 2 * c.extents.length) (by omega)
  unfold haiCompanionAddOffset Companion.buffer Companion.words
  simp only [List.cons_append, List.nil_append, List.getD_cons_zero, List.getD_cons_succ, count,
    shifted]
  exact loop

/-- Only the starts of the extents change, and each goes to the sector that `read_wrapper` takes
it to. -/
def Agrees (c : Companion) (offset : Word) : Prop :=
  ∃ extents, haiCompanionAddOffset c.buffer offset = c.words extents ∧
    extents.map (·.length) = c.extents.map (·.length) ∧
    ∀ blkCount blockSize, extents.map c.sector = c.extents.map fun e =>
      readWrapper Blocks.sector offset (Blocks.at (c.sector e) blkCount blockSize)

/-- No bits of the offset are lost, and no start wraps. -/
def Exact (c : Companion) (offset : Word) : Prop :=
  c.extents = [] ∨
    2 ^ c.shift ∣ offset.toNat ∧
      ∀ e ∈ c.extents, e.start.toNat + offset.toNat / 2 ^ c.shift < 2 ^ 32

theorem flatMap_extents_inj (extents extents' : List Extent) (rest : List Word)
    (length : extents.length = extents'.length)
    (same : extents.flatMap (fun e => [e.start, e.length]) ++ rest =
      extents'.flatMap (fun e => [e.start, e.length]) ++ rest) : extents = extents' := by
  induction extents generalizing extents' with
  | nil => exact (List.eq_nil_of_length_eq_zero length.symm).symm
  | cons e extents ih =>
      cases extents' with
      | nil => cases length
      | cons e' extents' =>
          simp only [List.flatMap_cons, List.cons_append, List.nil_append, List.cons.injEq] at same
          obtain ⟨start, size, tail⟩ := same
          have first : e = e' := by
            cases e
            cases e'
            simp_all
          rw [first, ih extents' (Nat.succ.inj length) tail]

/-- The new start is the exact one if and only if it is the start of the translated sector. -/
theorem moved_sector_iff (c : Companion) (offset : Word) (e : Extent) :
    c.sector (c.moved offset e) = c.sector e + offset.toNat ↔
      2 ^ c.shift ∣ offset.toNat ∧ e.start.toNat + offset.toNat / 2 ^ c.shift < 2 ^ 32 := by
  have positive : 0 < 2 ^ c.shift := Nat.two_pow_pos _
  have units : (c.units offset).toNat = offset.toNat / 2 ^ c.shift := by
    rw [Companion.units, BitVec.toNat_ushiftRight, Nat.shiftRight_eq_div_pow]
  have value : (c.moved offset e).start.toNat =
      (e.start.toNat + offset.toNat / 2 ^ c.shift) % 2 ^ 32 := by
    rw [Companion.moved, BitVec.toNat_add, units]
  unfold Companion.sector
  constructor
  · intro same
    have divides : 2 ^ c.shift ∣ e.start.toNat * 2 ^ c.shift + offset.toNat :=
      same ▸ Nat.dvd_mul_left _ _
    have exact : 2 ^ c.shift ∣ offset.toNat :=
      (Nat.dvd_add_right (Nat.dvd_mul_left _ _)).mp divides
    refine ⟨exact, ?_⟩
    obtain ⟨n, product⟩ := exact
    rw [product, Nat.mul_div_cancel_left n positive]
    have start : (c.moved offset e).start.toNat = e.start.toNat + n := by
      apply Nat.eq_of_mul_eq_mul_right positive
      rw [same, product, Nat.add_mul, Nat.mul_comm n]
    rw [← start]
    exact (c.moved offset e).start.isLt
  · intro ⟨exact, fits⟩
    rw [value, Nat.mod_eq_of_lt fits, Nat.add_mul, Nat.div_mul_cancel exact]

theorem agrees_iff_sectors (c : Companion) (offset partitionSize : Word)
    (within : c.Within partitionSize) :
    Agrees c offset ↔
      ∀ e ∈ c.extents, c.sector (c.moved offset e) = c.sector e + offset.toNat := by
  have translated : ∀ e ∈ c.extents, ∀ blkCount blockSize,
      readWrapper Blocks.sector offset (Blocks.at (c.sector e) blkCount blockSize) =
        c.sector e + offset.toNat := by
    intro e member blkCount blockSize
    have size : c.sector e < 2 ^ 32 := by
      have inside := within e member
      rw [Nat.add_mul] at inside
      exact Nat.lt_of_le_of_lt (Nat.le_trans (Nat.le_add_right _ _) inside) partitionSize.isLt
    have sector := at_sector (c.sector e) blkCount blockSize (by omega)
    have bound := offset.isLt
    rw [readWrapper, addOffset_sector _ offset (by rw [sector]; omega), sector]
  constructor
  · intro ⟨extents, result, lengths, sectors⟩ e member
    have same : extents = c.extents.map (c.moved offset) := by
      rw [haiCompanionAddOffset_words] at result
      apply flatMap_extents_inj extents _ c.rest
      · simpa using congrArg List.length lengths
      · simpa [Companion.words] using result.symm
    subst same
    have sector := sectors 1#32 512#32
    rw [List.map_map, List.map_inj_left] at sector
    exact (sector e member).trans (translated e member _ _)
  · intro exact
    refine ⟨c.extents.map (c.moved offset), haiCompanionAddOffset_words c offset, ?_, ?_⟩
    · rw [List.map_map]
      rfl
    · intro blkCount blockSize
      rw [List.map_map, List.map_inj_left]
      intro e member
      exact (exact e member).trans (translated e member _ _).symm

/-- The two paths agree if and only if nothing is lost. -/
theorem haiCompanionAddOffset_agrees_iff (c : Companion) (offset partitionSize : Word)
    (within : c.Within partitionSize) : Agrees c offset ↔ Exact c offset := by
  rw [agrees_iff_sectors c offset partitionSize within]
  unfold Exact
  constructor
  · intro exact
    cases extents : c.extents with
    | nil => exact Or.inl rfl
    | cons first rest =>
        rw [extents] at exact
        have moved := (moved_sector_iff c offset first).mp (exact first (List.mem_cons_self ..))
        refine Or.inr ⟨moved.1,
          fun e member => ((moved_sector_iff c offset e).mp (exact e member)).2⟩
  · intro exact e member
    rcases exact with none | ⟨divides, fits⟩
    · rw [none] at member
      cases member
    · exact (moved_sector_iff c offset e).mpr ⟨divides, fits e member⟩

/-- Two extents in units of 64 KiB, in a partition that starts at 1 MiB. -/
def sample : Companion where
  info := 0x00100000#32
  extents := [⟨0#32, 3#32⟩, ⟨8#32, 1#32⟩]
  rest := [7#32]
  fits := by decide
  unit := by decide

theorem sample_within : sample.Within 0x100000#32 := by
  simp [Companion.Within, sample, Companion.shift]

theorem haiCompanionAddOffset_agrees_iff_sample : Agrees sample 2048#32 ↔ Exact sample 2048#32 :=
  haiCompanionAddOffset_agrees_iff sample 2048#32 0x100000#32 sample_within

/-- A partition that starts at sector 63 loses its offset. -/
theorem offset_lost : sample.Within 0x100000#32 ∧ ¬ Agrees sample 63#32 := by
  refine ⟨sample_within, fun agrees => ?_⟩
  have sectors := (agrees_iff_sectors sample 63#32 0x100000#32 sample_within).mp agrees
  exact absurd (sectors ⟨0#32, 3#32⟩ (List.mem_cons_self ..)) (by decide)

end Companion

end Stroopwafel.HaiCompanion
