import Stroopwafel.IosElfTable

set_option autoImplicit false

namespace Stroopwafel.IosElf

open Memory

abbrev uidInvalid : Word := 0xFFFFFFFF#32

/-- `AT_ENTRY` and `AT_UID` of the auxiliary vector. -/
abbrev atEntry : Word := 9#32
abbrev atUid : Word := 11#32

/-- `ios_elf_get_notes` -/
def iosElfGetNotes (m : Mem) : Word := (phdrAt m segNotes).pVaddr

/-- `sizeof(Elf32_Nhdr)`; the name is empty and the entries follow at once. -/
abbrev nhdrBytes : Nat := 12

def descsz (m : Mem) (notes : Word) : Word := read32 m (notes + 4#32)

def entryType (m : Mem) (notes : Word) (i : Nat) : Word :=
  read32 m (notes + BitVec.ofNat 32 (nhdrBytes + 8 * i))

def entryVal (m : Mem) (notes : Word) (i : Nat) : Word :=
  read32 m (notes + BitVec.ofNat 32 (nhdrBytes + 8 * i + 4))

/-- The loop over the `remaining` entries from index `i` on. -/
def entrypointFrom (m : Mem) (notes uid : Word) : Nat → Nat → Word → Word
  | 0, _, _ => 0#32
  | remaining + 1, i, curUid =>
      let curUid := if entryType m notes i = atUid then entryVal m notes i else curUid
      if entryType m notes i = atEntry ∧ curUid = uid then entryVal m notes i
      else entrypointFrom m notes uid remaining (i + 1) curUid

def numEntries (m : Mem) : Nat := (descsz m (iosElfGetNotes m)).toNat / 8

def iosElfGetModuleEntrypoint (m : Mem) (uid : Word) : Word :=
  entrypointFrom m (iosElfGetNotes m) uid (numEntries m) 0 uidInvalid

/-- The entries that are looked at lie in the notes block. -/
def EntriesInside (m : Mem) : Prop :=
  nhdrBytes + 8 * numEntries m ≤ (phdrAt m segNotes).pMemsz.toNat

section Entrypoint

variable {m m' : Mem} {notes notes' : Word} {size : Nat}

theorem entrypointFrom_shows (shows : Shows m notes m' notes' size) (uid : Word)
    (remaining i : Nat) (curUid : Word) (inside : nhdrBytes + 8 * (i + remaining) ≤ size) :
    entrypointFrom m' notes' uid remaining i curUid =
      entrypointFrom m notes uid remaining i curUid := by
  induction remaining generalizing i curUid with
  | zero => rfl
  | succ remaining ih =>
      simp only [nhdrBytes] at inside
      have type : entryType m' notes' i = entryType m notes i :=
        (shows.sub (nhdrBytes + 8 * i) (by simp only [nhdrBytes]; omega)).read32
      have val : entryVal m' notes' i = entryVal m notes i :=
        (shows.sub (nhdrBytes + 8 * i + 4) (by simp only [nhdrBytes]; omega)).read32
      have rest := fun uid => ih (i + 1) uid (by simp only [nhdrBytes]; omega)
      simp only [entrypointFrom, type, val, rest]

/-- A copy of the notes block has the entry points of the block. -/
theorem entrypoint_shows (shows : Shows m (iosElfGetNotes m) m' (iosElfGetNotes m')
      (phdrAt m segNotes).pMemsz.toNat) (inside : EntriesInside m) (uid : Word) :
    iosElfGetModuleEntrypoint m' uid = iosElfGetModuleEntrypoint m uid := by
  simp only [EntriesInside, nhdrBytes] at inside
  have size : descsz m' (iosElfGetNotes m') = descsz m (iosElfGetNotes m) :=
    (shows.sub 4 (by omega)).read32
  have count : numEntries m' = numEntries m := by rw [numEntries, size, numEntries]
  rw [iosElfGetModuleEntrypoint, iosElfGetModuleEntrypoint, count]
  apply entrypointFrom_shows shows
  simp only [nhdrBytes]
  omega

end Entrypoint

/-- Successive calls of `ios_elf_add_phdr`, each with the entry its caller assigns. -/
def addPhdrs : List (Word × Phdr) → Mem → Mem
  | [], m => m
  | (addr, ph) :: more, m =>
      let (m, slot) := iosElfAddPhdr m addr
      addPhdrs more (writePhdr m slot ph)

namespace Image

/-- `img'` is `img` with `count` more entries behind the first three. -/
structure Grown (img img' : Image) (count : Nat) : Prop where
  self : img'.self = { img.self with
    pMemsz := img.self.pMemsz + BitVec.ofNat 32 (32 * count)
    pFilesz := img.self.pFilesz + BitVec.ofNat 32 (32 * count) }
  notes : img'.notes = { img.notes with
    pVaddr := img.notes.pVaddr + BitVec.ofNat 32 (32 * count)
    pPaddr := img.notes.pPaddr + BitVec.ofNat 32 (32 * count) }
  elfinfo : img'.elfinfo = { img.elfinfo with
    pFilesz := img.elfinfo.pFilesz + BitVec.ofNat 32 (32 * count) }
  rest : img.rest.Sublist img'.rest
  length : img'.rest.length = img.rest.length + count
  noteBytes : img'.noteBytes = img.noteBytes

theorem Grown.refl (img : Image) : Grown img img 0 where
  self := by simp only [Nat.mul_zero, BitVec.add_zero]
  notes := by simp only [Nat.mul_zero, BitVec.add_zero]
  elfinfo := by simp only [Nat.mul_zero, BitVec.add_zero]
  rest := List.Sublist.refl _
  length := rfl
  noteBytes := rfl

theorem insert_grown (img : Image) (j : Nat) (ph : Phdr) (within : j ≤ img.rest.length) :
    Grown img (img.insert j ph) 1 where
  self := rfl
  notes := rfl
  elfinfo := rfl
  rest := by
    have parts : (img.rest.take j ++ img.rest.drop j).Sublist
        (img.rest.take j ++ ph :: img.rest.drop j) :=
      (List.Sublist.refl _).append (List.sublist_cons_self ph _)
    rwa [List.take_append_drop] at parts
  length := by
    simp only [insert, List.length_append, List.length_cons, List.length_take, List.length_drop]
    omega
  noteBytes := rfl

theorem Grown.trans {a b c : Image} {n k : Nat} (first : Grown a b n) (second : Grown b c k) :
    Grown a c (n + k) := by
  have sum : ∀ x : Word, x + BitVec.ofNat 32 (32 * n) + BitVec.ofNat 32 (32 * k) =
      x + BitVec.ofNat 32 (32 * (n + k)) := by
    intro x
    rw [ofNat_add_ofNat, Nat.mul_add]
  refine ⟨?_, ?_, ?_, first.rest.trans second.rest, ?_, second.noteBytes.trans first.noteBytes⟩
  · simp only [second.self, first.self, sum]
  · simp only [second.notes, first.notes, sum]
  · simp only [second.elfinfo, first.elfinfo, sum]
  · rw [second.length, first.length, Nat.add_assoc]

/-- An address that is not below `ELFINFO` is inserted behind it. -/
theorem At.insertionIndex_ge {img : Image} {m : Mem} (holds : img.At m) (addr : Word)
    (above : img.elfinfo.pVaddr ≤ addr) : 3 ≤ insertionIndex m addr := by
  have third : phdrAt m 2 = img.elfinfo := holds.entry 2 (by simp)
  have count : IosElf.numPhdrs m - segElfinfo = img.rest.length + 1 := by
    rw [holds.numPhdrs]
    rfl
  rw [insertionIndex, count, insertionFrom, third, if_neg (BitVec.not_lt.mpr above)]
  exact (insertionFrom_bounds m addr img.rest.length 3).1

/-- Every insertion keeps the table, so that any number of them does. -/
theorem At.addPhdrs {img : Image} {m : Mem} (holds : img.At m) (calls : List (Word × Phdr))
    (room : img.Room calls.length) (above : ∀ call ∈ calls, img.elfinfo.pVaddr ≤ call.1) :
    ∃ img' : Image, img'.At (addPhdrs calls m) ∧ Grown img img' calls.length := by
  induction calls generalizing img m with
  | nil => exact ⟨img, holds, .refl img⟩
  | cons call more ih =>
      obtain ⟨addr, ph⟩ := call
      have behind := holds.insertionIndex_ge addr (above (addr, ph) (by simp))
      have upper := holds.insertionIndex_le addr
      have next := holds.insert (room.mono (by simp)) addr ph behind
      have grown := img.insert_grown (insertionIndex m addr - 3) ph (by
        rw [headers_length] at upper
        omega)
      obtain ⟨img', last, more'⟩ := ih next (by
        have lengths := grown.length
        have bytes := grown.noteBytes
        simp only [Room, headers_length, List.length_cons, lengths, bytes] at room ⊢
        omega) (by
        intro call member
        rw [grown.elfinfo]
        exact above call (by simp [member]))
      refine ⟨img', last, ?_⟩
      have both := grown.trans more'
      rwa [Nat.add_comm] at both

/-- The table and the notes block of a memory. -/
def ofMem (m : Mem) : Image where
  self := phdrAt m segPhdrs
  notes := phdrAt m segNotes
  elfinfo := phdrAt m segElfinfo
  rest := (List.range' 3 (numPhdrs m - 3)).map (phdrAt m)
  noteBytes := load m (iosElfGetNotes m) (phdrAt m segNotes).pMemsz.toNat

theorem ofMem_length (m : Mem) (three : 3 ≤ numPhdrs m) :
    (ofMem m).headers.length = numPhdrs m := by
  simp only [ofMem, headers_length, List.length_map, List.length_range']
  omega

theorem ofMem_at (m : Mem) (three : 3 ≤ numPhdrs m)
    (behind : iosElfGetNotes m = phdrAddress (numPhdrs m)) : (ofMem m).At m where
  entry i inside := by
    match i with
    | 0 => rfl
    | 1 => rfl
    | 2 => rfl
    | i + 3 =>
        simp only [ofMem, headers, List.getElem_cons_succ, List.getElem_map, List.getElem_range']
        rw [Nat.one_mul, Nat.add_comm]
  count := by
    rw [ofMem_length m three]
    rfl
  behind := by
    rw [ofMem_length m three]
    exact behind
  notesSize := (load_length _ _ _).symm
  note i inside := by
    rw [ofMem_length m three, ← behind]
    exact (load_getElem m _ _ i inside).symm

end Image

/-- What `count` insertions leave of the table in `m`. -/
structure Survives (m m' : Mem) (count : Nat) : Prop where
  entries : numPhdrs m' = numPhdrs m + count
  phdrs : phdrAt m' segPhdrs = { phdrAt m segPhdrs with
    pMemsz := (phdrAt m segPhdrs).pMemsz + BitVec.ofNat 32 (32 * count)
    pFilesz := (phdrAt m segPhdrs).pFilesz + BitVec.ofNat 32 (32 * count) }
  notes : phdrAt m' segNotes = { phdrAt m segNotes with
    pVaddr := (phdrAt m segNotes).pVaddr + BitVec.ofNat 32 (32 * count)
    pPaddr := (phdrAt m segNotes).pPaddr + BitVec.ofNat 32 (32 * count) }
  elfinfo : phdrAt m' segElfinfo = { phdrAt m segElfinfo with
    pFilesz := (phdrAt m segElfinfo).pFilesz + BitVec.ofNat 32 (32 * count) }
  order : ((List.range' 3 (numPhdrs m - 3)).map (phdrAt m)).Sublist
    ((List.range' 3 (numPhdrs m' - 3)).map (phdrAt m'))
  behind : iosElfGetNotes m' = phdrAddress (numPhdrs m')
  contents : Shows m (iosElfGetNotes m) m' (iosElfGetNotes m') (phdrAt m segNotes).pMemsz.toNat
  memsz : (phdrAt m segPhdrs).pMemsz.toNat = 32 * numPhdrs m →
    (phdrAt m' segPhdrs).pMemsz.toNat = 32 * numPhdrs m'
  filesz : (phdrAt m segElfinfo).pFilesz =
      (phdrAt m segPhdrs).pMemsz + (phdrAt m segNotes).pMemsz →
    (phdrAt m' segElfinfo).pFilesz = (phdrAt m' segPhdrs).pMemsz + (phdrAt m' segNotes).pMemsz

theorem Image.Grown.survives {img img' : Image} {m m' : Mem} {count : Nat}
    (grown : img.Grown img' count) (holds : img.At m) (holds' : img'.At m')
    (room : img.Room count) : Survives m m' count := by
  have self : phdrAt m segPhdrs = img.self := holds.entry 0 (by simp)
  have self' : phdrAt m' segPhdrs = img'.self := holds'.entry 0 (by simp)
  have notes : phdrAt m segNotes = img.notes := holds.entry 1 (by simp)
  have notes' : phdrAt m' segNotes = img'.notes := holds'.entry 1 (by simp)
  have elfinfo : phdrAt m segElfinfo = img.elfinfo := holds.entry 2 (by simp)
  have elfinfo' : phdrAt m' segElfinfo = img'.elfinfo := holds'.entry 2 (by simp)
  have entries : numPhdrs m' = numPhdrs m + count := by
    have length := grown.length
    rw [holds.numPhdrs, holds'.numPhdrs, headers_length, headers_length]
    omega
  have listed : ∀ {img : Image} {m : Mem}, img.At m →
      (List.range' 3 (numPhdrs m - 3)).map (phdrAt m) = img.rest := by
    intro img m holds
    have count : numPhdrs m - 3 = img.rest.length := by
      rw [holds.numPhdrs, headers_length]
      omega
    apply List.ext_getElem
    · rw [List.length_map, List.length_range', count]
    · intro i inside within
      have entry := holds.entry (i + 3) (by rw [headers_length]; omega)
      rw [List.getElem_map, List.getElem_range', Nat.one_mul, Nat.add_comm, entry]
      rfl
  refine ⟨entries, ?_, ?_, ?_, ?_, ?_, ?_, ?_, ?_⟩
  · rw [self', self, grown.self]
  · rw [notes', notes, grown.notes]
  · rw [elfinfo', elfinfo, grown.elfinfo]
  · rw [listed holds, listed holds']
    exact grown.rest
  · rw [iosElfGetNotes, notes', holds'.behind, holds'.numPhdrs]
  · rw [iosElfGetNotes, iosElfGetNotes, notes', notes, holds'.behind, holds.behind, holds.notesSize]
    intro i inside
    have old := holds.note i inside
    have new := holds'.note i (by rwa [grown.noteBytes])
    rw [old, new]
    simp only [grown.noteBytes]
  · intro exact
    have bound := room
    have start : phdrs.toNat = 0x1D000000 := rfl
    simp only [Room, headers_length] at bound
    rw [self] at exact
    rw [self', grown.self, entries, BitVec.toNat_add, exact, BitVec.toNat_ofNat, holds.numPhdrs,
      headers_length]
    omega
  · intro exact
    rw [self, notes, elfinfo] at exact
    rw [self', notes', elfinfo', grown.self, grown.notes, grown.elfinfo]
    simp only [exact]
    grind

/-- Any number of insertions behind `ELFINFO` loses nothing. -/
theorem addPhdrs_survives (m : Mem) (calls : List (Word × Phdr)) (three : 3 ≤ numPhdrs m)
    (behind : iosElfGetNotes m = phdrAddress (numPhdrs m))
    (room : phdrs.toNat + 32 * (numPhdrs m + calls.length) +
      (phdrAt m segNotes).pMemsz.toNat ≤ 2 ^ 32)
    (above : ∀ call ∈ calls, (phdrAt m segElfinfo).pVaddr ≤ call.1) :
    Survives m (addPhdrs calls m) calls.length ∧
      (EntriesInside m → ∀ uid,
        iosElfGetModuleEntrypoint (addPhdrs calls m) uid = iosElfGetModuleEntrypoint m uid) := by
  have holds := Image.ofMem_at m three behind
  have fits : (Image.ofMem m).Room calls.length := by
    rw [Image.Room, Image.ofMem_length m three, ← holds.notesSize]
    exact room
  obtain ⟨img', holds', grown⟩ := holds.addPhdrs calls fits above
  have survives := grown.survives holds holds' fits
  exact ⟨survives, entrypoint_shows survives.contents⟩

/-- A table of three entries, and behind it the notes of one module. -/
def notesMem (memsz : Word) : Mem :=
  writeWords (fun _ => 0#8) phdrs
    [6, 0x34, phdrs, phdrs, 0x60, 0x60, 4, 4,
      4, 0x94, 0x1D000060, 0x1D000060, memsz, memsz, 4, 4,
      1, 0, phdrs, phdrs, 0x60 + memsz, 0x3000, 4, 4,
      0, 16, 1, atUid, 1, atEntry, 0x05056718]

def ramdiskPhdr : Phdr := ⟨1, 0, 0x20000000, 0x20000000, 0, 0x08000000, 7, 4⟩

theorem addPhdrs_survives_sample :
    EntriesInside (notesMem 28) ∧
      Survives (notesMem 28) (addPhdrs [(0x20000000, ramdiskPhdr)] (notesMem 28)) 1 ∧
      (EntriesInside (notesMem 28) → ∀ uid,
        iosElfGetModuleEntrypoint (addPhdrs [(0x20000000, ramdiskPhdr)] (notesMem 28)) uid =
          iosElfGetModuleEntrypoint (notesMem 28) uid) :=
  ⟨by unfold EntriesInside; decide +kernel,
    addPhdrs_survives (notesMem 28) [(0x20000000, ramdiskPhdr)] (by decide +kernel)
    (by decide +kernel) (by decide +kernel)
    (fun call member => by
      rw [List.mem_singleton] at member
      subst member
      decide +kernel)⟩

/-- Notes that say they are longer than their block are not moved as a whole. -/
theorem addPhdrs_cuts_notes :
    ¬ ∀ (m : Mem) (calls : List (Word × Phdr)), 3 ≤ numPhdrs m →
      iosElfGetNotes m = phdrAddress (numPhdrs m) →
      (∀ call ∈ calls, (phdrAt m segElfinfo).pVaddr ≤ call.1) →
      ∀ uid, iosElfGetModuleEntrypoint (addPhdrs calls m) uid =
        iosElfGetModuleEntrypoint m uid := by
  intro kept
  have same := kept (notesMem 0) [(0x20000000, ramdiskPhdr)] (by decide +kernel) (by decide +kernel)
    (fun call member => by
      rw [List.mem_singleton] at member
      subst member
      decide +kernel) 1#32
  revert same
  decide +kernel

end Stroopwafel.IosElf
