import Stroopwafel.IosElf

set_option autoImplicit false

namespace Stroopwafel.IosElf

open Memory

/-- The header table with the notes block behind it, as values. The first three
entries describe the table, the notes and the ELF headers themselves. -/
structure Image where
  self : Phdr
  notes : Phdr
  elfinfo : Phdr
  rest : List Phdr
  noteBytes : List Byte

namespace Image

def headers (img : Image) : List Phdr := img.self :: img.notes :: img.elfinfo :: img.rest

/-- The entries the translation loop looks at. -/
def entries (img : Image) : List Phdr := img.elfinfo :: img.rest

/-- The table and its notes still fit when `extra` entries are added. -/
def Room (img : Image) (extra : Nat) : Prop :=
  phdrs.toNat + 32 * (img.headers.length + extra) + img.noteBytes.length ≤ 2 ^ 32

instance (img : Image) (extra : Nat) : Decidable (img.Room extra) :=
  inferInstanceAs (Decidable (_ ≤ _))

/-- `m` holds this image, with the notes block directly behind the table. -/
structure At (img : Image) (m : Mem) : Prop where
  entry : ∀ i, (inside : i < img.headers.length) → phdrAt m i = img.headers[i]
  count : img.self.pMemsz.toNat / 32 = img.headers.length
  behind : img.notes.pVaddr = phdrAddress img.headers.length
  notesSize : img.notes.pMemsz.toNat = img.noteBytes.length
  note : ∀ i, (inside : i < img.noteBytes.length) →
    m (phdrAddress img.headers.length + BitVec.ofNat 32 i) = img.noteBytes[i]

/-- A new entry at position `j` behind `ELFINFO`, with the bookkeeping fields. -/
def insert (img : Image) (j : Nat) (ph : Phdr) : Image where
  self := { img.self with
    pMemsz := img.self.pMemsz + phdrBytes, pFilesz := img.self.pFilesz + phdrBytes }
  notes := { img.notes with
    pVaddr := img.notes.pVaddr + phdrBytes, pPaddr := img.notes.pPaddr + phdrBytes }
  elfinfo := { img.elfinfo with pFilesz := img.elfinfo.pFilesz + phdrBytes }
  rest := img.rest.take j ++ ph :: img.rest.drop j
  noteBytes := img.noteBytes

@[simp] theorem headers_length (img : Image) : img.headers.length = img.rest.length + 3 := rfl

theorem Room.mono {img : Image} {extra fewer : Nat} (room : img.Room extra)
    (order : fewer ≤ extra) : img.Room fewer := by
  simp only [Room] at *
  omega

theorem insert_length (img : Image) (j : Nat) (ph : Phdr) (within : j ≤ img.rest.length) :
    (img.insert j ph).headers.length = img.headers.length + 1 := by
  simp only [headers_length, insert, List.length_append, List.length_cons, List.length_take,
    List.length_drop]
  omega

end Image

theorem phdrAddress_succ (i : Nat) : phdrAddress i + phdrBytes = phdrAddress (i + 1) := by
  rw [phdrAddress, ofNat_add_ofNat, phdrAddress, Nat.mul_succ]

theorem phdrAddress_offset (i offset : Nat) :
    phdrAddress i + BitVec.ofNat 32 offset = phdrs + BitVec.ofNat 32 (32 * i + offset) :=
  ofNat_add_ofNat phdrs _ _

/-- An entry is determined by its 32 bytes, wherever they were copied from. -/
theorem phdrAt_congr {m m' : Mem} {i j : Nat}
    (bytes : ∀ t < 32, m' (phdrAddress j + BitVec.ofNat 32 t) =
      m (phdrAddress i + BitVec.ofNat 32 t)) :
    phdrAt m' j = phdrAt m i := by
  have fields : ∀ offset, offset + 4 ≤ 32 → field m' j offset = field m i offset := by
    intro offset within
    have byte : ∀ t < 4, m' (phdrAddress j + BitVec.ofNat 32 offset + BitVec.ofNat 32 t) =
        m (phdrAddress i + BitVec.ofNat 32 offset + BitVec.ofNat 32 t) := by
      intro t ht
      rw [ofNat_add_ofNat, ofNat_add_ofNat]
      exact bytes (offset + t) (by omega)
    have first := byte 0 (by omega)
    have second := byte 1 (by omega)
    have third := byte 2 (by omega)
    have fourth := byte 3 (by omega)
    simp only [BitVec.add_zero] at first
    simp only [field, read32, read16, first, second, third]
    rw [show (2#32 : Word) = BitVec.ofNat 32 2 from rfl, ofNat_add_ofNat _ 2 1,
      ofNat_add_ofNat _ 2 1, fourth]
  simp only [phdrAt, fields 0 (by decide), fields 4 (by decide), fields vaddrField (by decide),
    fields paddrField (by decide), fields fileszField (by decide), fields memszField (by decide),
    fields 24 (by decide), fields 28 (by decide)]

theorem phdrAt_same {m m' : Mem} {i : Nat} (same : Same m m' (phdrAddress i) 32) :
    phdrAt m' i = phdrAt m i :=
  phdrAt_congr same

theorem field_setField_self (m : Mem) (i offset : Nat) (value : Word) :
    field (setField m i offset value) i offset = value :=
  read32_write32 m _ value

theorem field_setField_ne (m : Mem) (i offset other : Nat) (value : Word)
    (bound : 32 * i + 32 ≤ 2 ^ 32) (apart : other + 4 ≤ offset ∨ offset + 4 ≤ other)
    (within : offset + 4 ≤ 32) (otherWithin : other + 4 ≤ 32) :
    field (setField m i offset value) i other = field m i other := by
  apply read32_write32_apart
  rw [phdrAddress_offset, phdrAddress_offset]
  exact apart_offsets phdrs _ _ 4 4 (by omega) (by omega) (by omega)

theorem phdrAt_setField_ne (m : Mem) (i j offset : Nat) (value : Word) (distinct : i ≠ j)
    (within : offset + 4 ≤ 32) (boundI : 32 * i + 32 ≤ 2 ^ 32) (boundJ : 32 * j + 32 ≤ 2 ^ 32) :
    phdrAt (setField m i offset value) j = phdrAt m j := by
  apply phdrAt_same
  rw [setField, phdrAddress_offset]
  apply write32_apart
  exact apart_offsets phdrs _ _ 32 4 boundJ (by omega) (by omega)

section Fields

variable (m : Mem) (i : Nat) (value : Word) (bound : 32 * i + 32 ≤ 2 ^ 32)
include bound

theorem phdrAt_addField_vaddr : phdrAt (addField m i vaddrField value) i =
    { phdrAt m i with pVaddr := (phdrAt m i).pVaddr + value } := by
  simp (disch := first | assumption | decide) only [addField, phdrAt, field_setField_self,
    field_setField_ne]

theorem phdrAt_addField_paddr : phdrAt (addField m i paddrField value) i =
    { phdrAt m i with pPaddr := (phdrAt m i).pPaddr + value } := by
  simp (disch := first | assumption | decide) only [addField, phdrAt, field_setField_self,
    field_setField_ne]

theorem phdrAt_addField_filesz : phdrAt (addField m i fileszField value) i =
    { phdrAt m i with pFilesz := (phdrAt m i).pFilesz + value } := by
  simp (disch := first | assumption | decide) only [addField, phdrAt, field_setField_self,
    field_setField_ne]

theorem phdrAt_setField_memsz : phdrAt (setField m i memszField value) i =
    { phdrAt m i with pMemsz := value } := by
  simp (disch := first | assumption | decide) only [phdrAt, field_setField_self,
    field_setField_ne]

theorem phdrAt_addField_memsz : phdrAt (addField m i memszField value) i =
    { phdrAt m i with pMemsz := (phdrAt m i).pMemsz + value } :=
  phdrAt_setField_memsz m i _ bound

end Fields

/-- Updates of an entry leave everything behind it alone. -/
theorem setField_behind (m : Mem) (i j offset size : Nat) (value : Word) (order : i < j)
    (within : offset + 4 ≤ 32) (bound : 32 * j + size ≤ 2 ^ 32) :
    Same m (setField m i offset value) (phdrAddress j) size := by
  rw [setField, phdrAddress_offset]
  apply write32_apart
  exact apart_offsets phdrs _ _ size 4 bound (by omega) (by omega)

theorem move_entries_before (m : Mem) (i dst src size : Nat) (order : i < dst)
    (bound : 32 * dst + size ≤ 2 ^ 32) :
    phdrAt (move m (phdrAddress dst) (phdrAddress src) size) i = phdrAt m i := by
  apply phdrAt_same
  apply move_apart
  exact apart_offsets phdrs _ _ 32 size (by omega) bound (by omega)

/-- The entry moved one place up is the old entry. -/
theorem move_entries_inside (m : Mem) (k count i : Nat) (lower : k < i) (upper : i ≤ k + count)
    (bound : 32 * count ≤ 2 ^ 32) :
    phdrAt (move m (phdrAddress (k + 1)) (phdrAddress k) (32 * count)) i = phdrAt m (i - 1) := by
  apply phdrAt_congr
  intro t ht
  have inside := move_inside m (phdrAddress (k + 1)) (phdrAddress k) (32 * count)
    (32 * (i - (k + 1)) + t) (by omega) bound
  rw [phdrAddress_offset, phdrAddress_offset] at inside
  rw [phdrAddress_offset, phdrAddress_offset]
  rw [show 32 * (k + 1) + (32 * (i - (k + 1)) + t) = 32 * i + t by omega,
    show 32 * k + (32 * (i - (k + 1)) + t) = 32 * (i - 1) + t by omega] at inside
  exact inside

theorem writePhdr_entry (m : Mem) (i : Nat) (ph : Phdr) :
    phdrAt (writePhdr m (phdrAddress i) ph) i = ph := by
  have words := writeWords_wordsAt m (phdrAddress i) ph.words (by simp [Phdr.words])
  have length : ph.words.length = 8 := rfl
  have word : ∀ j, (inside : j < ph.words.length) →
      field (writePhdr m (phdrAddress i) ph) i (4 * j) = ph.words[j] :=
    fun j inside => words j inside
  cases ph
  simp only [phdrAt, Phdr.mk.injEq]
  exact ⟨word 0 (by omega), word 1 (by omega), word 2 (by omega), word 3 (by omega),
    word 4 (by omega), word 5 (by omega), word 6 (by omega), word 7 (by omega)⟩

theorem writePhdr_other (m : Mem) (i j : Nat) (ph : Phdr) (distinct : i ≠ j)
    (boundI : 32 * i + 32 ≤ 2 ^ 32) (boundJ : 32 * j + 32 ≤ 2 ^ 32) :
    phdrAt (writePhdr m (phdrAddress i) ph) j = phdrAt m j := by
  apply phdrAt_same
  apply writeWords_apart
  exact apart_offsets phdrs _ _ 32 32 boundJ boundI (by omega)

theorem writePhdr_behind (m : Mem) (i j size : Nat) (ph : Phdr) (order : i < j)
    (bound : 32 * j + size ≤ 2 ^ 32) :
    Same m (writePhdr m (phdrAddress i) ph) (phdrAddress j) size := by
  apply writeWords_apart
  exact apart_offsets phdrs _ _ size 32 bound (by omega) (by omega)

theorem insertionFrom_bounds (m : Mem) (addr : Word) (remaining i : Nat) :
    i ≤ insertionFrom m addr remaining i ∧ insertionFrom m addr remaining i ≤ i + remaining := by
  induction remaining generalizing i with
  | zero => exact ⟨Nat.le_refl i, Nat.le_refl i⟩
  | succ remaining ih =>
      rw [insertionFrom]
      split
      · omega
      · have := ih (i + 1)
        omega

/-- The bookkeeping of one insertion on the entry with index `i`. -/
def bumped (i : Nat) (ph : Phdr) : Phdr :=
  match i with
  | 0 => { ph with pMemsz := ph.pMemsz + phdrBytes, pFilesz := ph.pFilesz + phdrBytes }
  | 1 => { ph with pVaddr := ph.pVaddr + phdrBytes, pPaddr := ph.pPaddr + phdrBytes }
  | 2 => { ph with pFilesz := ph.pFilesz + phdrBytes }
  | _ => ph

theorem bumped_of_three_le {i : Nat} {ph : Phdr} (high : 3 ≤ i) : bumped i ph = ph := by
  obtain ⟨j, rfl⟩ := Nat.exists_eq_add_of_le' high
  rfl

/-- The memory `ios_elf_add_phdr` leaves for a table of `n` entries, a search that
stopped at `k` and `size` bytes of notes. -/
def opened (m : Mem) (n k size : Nat) : Mem :=
  let m := move m (phdrAddress (n + 1)) (phdrAddress n) size
  let m := addField m segNotes vaddrField phdrBytes
  let m := addField m segNotes paddrField phdrBytes
  let m := move m (phdrAddress (k + 1)) (phdrAddress k) (32 * (n - k))
  let m := addField m segPhdrs memszField phdrBytes
  let m := addField m segPhdrs fileszField phdrBytes
  addField m segElfinfo fileszField phdrBytes

section Opened

variable (m : Mem) (n k size : Nat) (behindHeaders : 3 ≤ k) (inside : k ≤ n)
  (fits : 32 * (n + 1) + size ≤ 2 ^ 32)
include behindHeaders inside fits

theorem opened_before (i : Nat) (before : i < k) :
    phdrAt (opened m n k size) i = bumped i (phdrAt m i) := by
  have notesKept : ∀ j ≤ n, phdrAt (move m (phdrAddress (n + 1)) (phdrAddress n) size) j =
      phdrAt m j :=
    fun j hj => move_entries_before m j (n + 1) n size (by omega) fits
  have entriesKept : ∀ m' : Mem,
      phdrAt (move m' (phdrAddress (k + 1)) (phdrAddress k) (32 * (n - k))) i = phdrAt m' i :=
    fun m' => move_entries_before m' i (k + 1) k _ (by omega) (by omega)
  have other : ∀ (m' : Mem) (j offset : Nat), j ≠ i → j < 3 → offset + 4 ≤ 32 →
      phdrAt (addField m' j offset phdrBytes) i = phdrAt m' i :=
    fun m' j offset distinct low within =>
      phdrAt_setField_ne m' j i offset _ distinct within (by omega) (by omega)
  rw [opened]
  rcases (by omega : i = 0 ∨ i = 1 ∨ i = 2 ∨ 3 ≤ i) with rfl | rfl | rfl | high
  · rw [other _ segElfinfo _ (by decide) (by decide) (by decide),
      phdrAt_addField_filesz _ 0 _ (by decide), phdrAt_addField_memsz _ 0 _ (by decide),
      entriesKept, other _ segNotes _ (by decide) (by decide) (by decide),
      other _ segNotes _ (by decide) (by decide) (by decide), notesKept 0 (by omega)]
    rfl
  · rw [other _ segElfinfo _ (by decide) (by decide) (by decide),
      other _ segPhdrs _ (by decide) (by decide) (by decide),
      other _ segPhdrs _ (by decide) (by decide) (by decide), entriesKept,
      phdrAt_addField_paddr _ 1 _ (by decide), phdrAt_addField_vaddr _ 1 _ (by decide),
      notesKept 1 (by omega)]
    rfl
  · rw [phdrAt_addField_filesz _ 2 _ (by decide),
      other _ segPhdrs _ (by decide) (by decide) (by decide),
      other _ segPhdrs _ (by decide) (by decide) (by decide), entriesKept,
      other _ segNotes _ (by decide) (by decide) (by decide),
      other _ segNotes _ (by decide) (by decide) (by decide), notesKept 2 (by omega)]
    rfl
  · rw [other _ segElfinfo _ (by simp only [segElfinfo]; omega) (by decide) (by decide),
      other _ segPhdrs _ (by simp only [segPhdrs]; omega) (by decide) (by decide),
      other _ segPhdrs _ (by simp only [segPhdrs]; omega) (by decide) (by decide), entriesKept,
      other _ segNotes _ (by simp only [segNotes]; omega) (by decide) (by decide),
      other _ segNotes _ (by simp only [segNotes]; omega) (by decide) (by decide),
      notesKept i (by omega), bumped_of_three_le high]

theorem opened_after (i : Nat) (after : k < i) (last : i ≤ n) :
    phdrAt (opened m n k size) i = phdrAt m (i - 1) := by
  have other : ∀ (m' : Mem) (j l offset : Nat), j ≠ l → j < 3 → l ≤ n → offset + 4 ≤ 32 →
      phdrAt (addField m' j offset phdrBytes) l = phdrAt m' l :=
    fun m' j l offset distinct low upper within =>
      phdrAt_setField_ne m' j l offset _ distinct within (by omega) (by omega)
  rw [opened,
    other _ segElfinfo i _ (by simp only [segElfinfo]; omega) (by decide) last (by decide),
    other _ segPhdrs i _ (by simp only [segPhdrs]; omega) (by decide) last (by decide),
    other _ segPhdrs i _ (by simp only [segPhdrs]; omega) (by decide) last (by decide),
    move_entries_inside _ k (n - k) i after (by omega) (by omega),
    other _ segNotes (i - 1) _ (by simp only [segNotes]; omega) (by decide) (by omega) (by decide),
    other _ segNotes (i - 1) _ (by simp only [segNotes]; omega) (by decide) (by omega) (by decide)]
  exact move_entries_before m (i - 1) (n + 1) n size (by omega) fits

/-- The notes block is `sizeof(Elf32_Phdr)` further up, unchanged. -/
theorem opened_notes (t : Nat) (ht : t < size) :
    opened m n k size (phdrAddress (n + 1) + BitVec.ofNat 32 t) =
      m (phdrAddress n + BitVec.ofNat 32 t) := by
  have kept : ∀ (m' : Mem) (j offset : Nat), j < 3 → offset + 4 ≤ 32 →
      Same m' (addField m' j offset phdrBytes) (phdrAddress (n + 1)) size :=
    fun m' j offset low within =>
      setField_behind m' j (n + 1) offset size _ (by omega) within fits
  have moved : ∀ m' : Mem,
      Same m' (move m' (phdrAddress (k + 1)) (phdrAddress k) (32 * (n - k)))
        (phdrAddress (n + 1)) size := by
    intro m'
    apply move_apart
    exact apart_offsets phdrs _ _ size _ fits (by omega) (by omega)
  rw [opened, kept _ segElfinfo _ (by decide) (by decide) t ht,
    kept _ segPhdrs _ (by decide) (by decide) t ht, kept _ segPhdrs _ (by decide) (by decide) t ht,
    moved _ t ht, kept _ segNotes _ (by decide) (by decide) t ht,
    kept _ segNotes _ (by decide) (by decide) t ht]
  exact move_inside m _ _ size t ht (by omega)

end Opened

namespace Image

variable {img : Image} {m : Mem}

theorem At.numPhdrs (holds : img.At m) : numPhdrs m = img.headers.length := by
  have self := holds.entry 0 (by simp)
  rw [IosElf.numPhdrs, self]
  exact holds.count

theorem At.insertionIndex_le (holds : img.At m) (addr : Word) :
    insertionIndex m addr ≤ img.headers.length := by
  have bounds := insertionFrom_bounds m addr (IosElf.numPhdrs m - segElfinfo) segElfinfo
  rw [insertionIndex]
  simp only [holds.numPhdrs, headers_length, segElfinfo] at bounds ⊢
  omega

theorem insert_before (img : Image) (k i : Nat) (ph : Phdr) (behindHeaders : 3 ≤ k)
    (before : i < k) (inside : i < img.headers.length)
    (inNew : i < (img.insert (k - 3) ph).headers.length) :
    (img.insert (k - 3) ph).headers[i] = bumped i img.headers[i] := by
  rcases (by omega : i = 0 ∨ i = 1 ∨ i = 2 ∨ 3 ≤ i) with rfl | rfl | rfl | high
  · rfl
  · rfl
  · rfl
  · obtain ⟨j, rfl⟩ := Nat.exists_eq_add_of_le' high
    have left : j < (img.rest.take (k - 3)).length := by
      simp only [headers_length] at inside
      simp only [List.length_take]
      omega
    simp only [bumped, headers, insert, List.getElem_cons_succ, List.getElem_append_left left,
      List.getElem_take]

theorem insert_slot (img : Image) (k : Nat) (ph : Phdr) (behindHeaders : 3 ≤ k)
    (upper : k ≤ img.headers.length) (inNew : k < (img.insert (k - 3) ph).headers.length) :
    (img.insert (k - 3) ph).headers[k] = ph := by
  obtain ⟨j, rfl⟩ := Nat.exists_eq_add_of_le' behindHeaders
  have length : (img.rest.take j).length = j := by
    simp only [headers_length] at upper
    simp only [List.length_take]
    omega
  simp only [headers, insert, List.getElem_cons_succ, Nat.add_sub_cancel]
  rw [List.getElem_append_right (by omega)]
  simp only [length, Nat.sub_self, List.getElem_cons_zero]

theorem insert_after (img : Image) (k i : Nat) (ph : Phdr) (behindHeaders : 3 ≤ k) (after : k < i)
    (last : i ≤ img.headers.length) (inNew : i < (img.insert (k - 3) ph).headers.length)
    (inOld : i - 1 < img.headers.length) :
    (img.insert (k - 3) ph).headers[i] = img.headers[i - 1] := by
  obtain ⟨j, rfl⟩ := Nat.exists_eq_add_of_le' behindHeaders
  obtain ⟨t, rfl⟩ : ∃ t, i = j + 3 + 1 + t := ⟨i - (j + 4), by omega⟩
  have length : (img.rest.take j).length = j := by
    simp only [headers_length] at last
    simp only [List.length_take]
    omega
  have old : j + 3 + 1 + t - 1 = j + t + 3 := by omega
  have new : j + 3 + 1 + t = (j + t + 1) + 3 := by omega
  simp only [old]
  simp only [new, headers, insert, List.getElem_cons_succ, Nat.add_sub_cancel]
  rw [List.getElem_append_right (by omega)]
  simp only [length, show j + t + 1 - j = t + 1 by omega, List.getElem_cons_succ, List.getElem_drop]

theorem At.addPhdr_eq (holds : img.At m) (room : img.Room 1) (addr : Word) :
    iosElfAddPhdr m addr =
      (opened m img.headers.length (insertionIndex m addr) img.noteBytes.length,
        phdrAddress (insertionIndex m addr)) := by
  have notesEntry : phdrAt m segNotes = img.notes := holds.entry 1 (by simp)
  have upper := holds.insertionIndex_le addr
  have bytes : entryBytes img.headers.length (insertionIndex m addr) =
      32 * (img.headers.length - insertionIndex m addr) := by
    have bound := room
    simp only [Room] at bound
    generalize insertionIndex m addr = k at *
    generalize img.headers.length = n at *
    simp only [entryBytes]
    bv_omega
  simp only [iosElfAddPhdr, opened, holds.numPhdrs, notesEntry, holds.behind, holds.notesSize,
    phdrAddress_succ, bytes]

/-- `ios_elf_add_phdr` and its caller's assignments insert one entry, and nothing
else but the bookkeeping fields changes. -/
theorem At.insert (holds : img.At m) (room : img.Room 1) (addr : Word) (ph : Phdr)
    (behindHeaders : 3 ≤ insertionIndex m addr) :
    (img.insert (insertionIndex m addr - 3) ph).At
      (writePhdr (iosElfAddPhdr m addr).1 (iosElfAddPhdr m addr).2 ph) := by
  have upper := holds.insertionIndex_le addr
  rw [holds.addPhdr_eq room]
  dsimp only
  generalize insertionIndex m addr = k at *
  have length : (img.insert (k - 3) ph).headers.length = img.headers.length + 1 := by
    apply insert_length
    simp only [headers_length] at upper
    omega
  have fits : 32 * (img.headers.length + 1) + img.noteBytes.length ≤ 2 ^ 32 := by
    have := room
    simp only [Room] at this
    omega
  refine ⟨?_, ?_, ?_, ?_, ?_⟩
  · intro i inside
    by_cases slot : i = k
    · subst i
      rw [writePhdr_entry, insert_slot img k ph behindHeaders upper inside]
    · rw [writePhdr_other _ k i ph (Ne.symm slot) (by omega) (by omega)]
      by_cases before : i < k
      · rw [opened_before m _ k _ behindHeaders upper fits i before,
          holds.entry i (by omega), insert_before img k i ph behindHeaders before]
      · rw [opened_after m _ k _ behindHeaders upper fits i (by omega) (by omega),
          holds.entry (i - 1) (by omega),
          insert_after img k i ph behindHeaders (by omega) (by omega)]
  · have old := holds.count
    have wide : phdrs.toNat = 0x1D000000 := rfl
    have bound := room
    simp only [Room] at bound
    rw [length]
    change (img.self.pMemsz + phdrBytes).toNat / 32 = _
    generalize img.headers.length = n at *
    bv_omega
  · rw [length, ← phdrAddress_succ, ← holds.behind]
    rfl
  · exact holds.notesSize
  · intro t ht
    rw [length, writePhdr_behind _ k _ img.noteBytes.length ph (by omega) fits t ht,
      opened_notes m _ k _ behindHeaders upper fits t ht]
    exact holds.note t ht

end Image

end Stroopwafel.IosElf
