import Stroopwafel.SaltPatchHash

set_option autoImplicit false

namespace Stroopwafel.SaltPatch

open Memory ByteFile Sha1Ctx

section Main

def physOfVirt : List (Word × Word) :=
  [(0x04000000#32, 0x08280000#32), (0x04020000#32, 0x082A0000#32),
    (0x04024000#32, 0x082A4000#32), (0x04025000#32, 0x082A5000#32),
    (0x05000000#32, 0x081C0000#32), (0x05060000#32, 0x08220000#32),
    (0x05070000#32, 0x08230000#32), (0x05074000#32, 0x08234000#32),
    (0x05100000#32, 0x13D80000#32), (0xe0000000#32, 0x12900000#32),
    (0xe0100000#32, 0x12a00000#32), (0xe0121000#32, 0x12a21000#32),
    (0xe0122000#32, 0x12a22000#32), (0xe0123000#32, 0x12a23000#32),
    (0xe1000000#32, 0x12bc0000#32), (0xe10c0000#32, 0x12c80000#32),
    (0xe10e2000#32, 0x12ca2000#32), (0xe10e4000#32, 0x12ca4000#32),
    (0xe2000000#32, 0x12ec0000#32), (0xe2280000#32, 0x13140000#32),
    (0xe22c9000#32, 0x13189000#32), (0xe22ca000#32, 0x1318a000#32),
    (0xe22cb000#32, 0x1318b000#32), (0xe3000000#32, 0x13640000#32),
    (0xe3180000#32, 0x137c0000#32), (0xe31ad000#32, 0x137ed000#32),
    (0xe31ae000#32, 0x137ee000#32), (0xe31af000#32, 0x137ef000#32),
    (0xe4000000#32, 0x13a40000#32), (0xe4040000#32, 0x13a80000#32),
    (0xe4046000#32, 0x13a86000#32), (0xe4047000#32, 0x13a87000#32),
    (0xe5000000#32, 0x13c00000#32), (0xe5040000#32, 0x13c40000#32),
    (0xe5044000#32, 0x13c44000#32), (0xe5045000#32, 0x13c45000#32),
    (0xe6000000#32, 0x13cc0000#32), (0xe6040000#32, 0x13d00000#32),
    (0xe6042000#32, 0x13d02000#32), (0xe6047000#32, 0x13d07000#32),
    (0xe7000000#32, 0x082c0000#32), (0xeff00000#32, 0xfff00000#32)]

def virtToPhys (addr : Word) : Word := (physOfVirt.lookup addr).getD addr

/-- A file of `patched_sections` with the address in its name, and the file of that name in
`sections`. -/
structure SectionFile where
  host : Host
  addr : Word
  opened : Bool
  patched : List Byte
  unpatched : Option (List Byte)

def SectionFile.base (s : SectionFile) : Word := virtToPhys s.addr

def encodeSection (s : SectionFile) (patch : List Byte) : Option (Int × List Byte) :=
  match s.unpatched with
  | none => patchAddToFile s.host s.patched patch s.base
  | some unpatched => patchDiffToFile s.host unpatched s.patched patch s.base

/-- `while((ent = readdir(d_patched)))` -/
def encodeSections : List SectionFile → List Byte → Option (Int × List Byte)
  | [], patch => some (0, patch)
  | s :: rest, patch =>
      if s.opened = false then some (-1, patch)
      else do
        let (ret, patch) ← encodeSection s patch
        if ret ≠ 0 then return (-1, patch)
        else encodeSections rest patch

/-- What the system gives: the files that open, and the blocks of `malloc` with what they hold. -/
structure MainHost where
  patchOpened : Bool
  sectionsOpened : Bool
  patchedSectionsOpened : Bool
  sections : List SectionFile
  img : Option (List Byte)
  entSzNum : Nat → Byte
  elfPhdrs : Nat → Option (Nat → Byte)
  elfNotes : Nat → Bool
  iosProcElf : Bool
  iosProcess : Option (List Byte)

/-- What `fread` leaves in a buffer when it reads `n` bytes from `pos` on. -/
def fread (file : List Byte) (pos n : Nat) (buffer : Nat → Byte) (i : Nat) : Byte :=
  if i < n then file[pos + i]?.getD (buffer i) else buffer i

def getbe16At (p : Nat → Byte) (i : Nat) : Nat := 0x100 * (p i).toNat + (p (i + 1)).toNat

def getbe32At (p : Nat → Byte) (i : Nat) : Nat := 0x10000 * getbe16At p i + getbe16At p (i + 2)

def tblSize (host : MainHost) (img : List Byte) : Nat :=
  let entSzNum := fread img (0x804 + 0x2A) 4 host.entSzNum
  getbe16At entSzNum 2 * getbe16At entSzNum 0

/-- The header table of `ios.img` and the notes are only read. There is no result when the size of
the notes would stand behind the table. -/
def readElfhdr (host : MainHost) : Option Int :=
  match host.img with
  | none => some (-1)
  | some img =>
      match host.elfPhdrs (tblSize host img) with
      | none => some (-1)
      | some block =>
          let elfPhdrs := fread img (0x804 + 0x34) (tblSize host img) block
          if tblSize host img < 0x30 + 4 then none
          else if host.elfNotes (getbe32At elfPhdrs 0x30) = false then some (-1)
          else some 0

def carveoutSz : Nat := 0x400000

/-- Neither the file nor the block for it is checked. -/
def readIosProcess (host : MainHost) : Option (List Byte) := do
  let file ← host.iosProcess
  if host.iosProcElf = false then none
  else return file.take carveoutSz

/-- Without a file to read: what is returned, and the file of patches. `sha` is what the stack holds
where the context is. -/
def main (sha : Ctx) (host : MainHost) : Option (Int × List Byte) :=
  if host.patchOpened = false then some (-1, [])
  else
    let patch := writePatchHeader
    if host.sectionsOpened = false then some (-1, patch)
    else if host.patchedSectionsOpened = false then some (-1, patch)
    else do
      let (ret, patch) ← encodeSections host.sections patch
      if ret ≠ 0 then return (ret, patch)
      let elfhdr ← readElfhdr host
      if elfhdr ≠ 0 then return (elfhdr, patch)
      -- what is read of `ios_process.elf` is not written either
      let _ ← readIosProcess host
      return (0, (writeFooterAndHash sha ⟨patch, patch.length⟩).content)

end Main

/-- The chunk lies in the `size` bytes at `base`. -/
structure Chunk.Inside (base : Word) (size : Nat) (chunk : Chunk) : Prop where
  bound : chunk.bytes.length < 2 ^ 32
  inside : ∃ offset, chunk.addr = base + BitVec.ofNat 32 offset ∧
    offset + chunk.bytes.length ≤ size

theorem Chunk.Inside.apply {base : Word} {size : Nat} {chunk : Chunk}
    (inside : chunk.Inside base size) (m : Mem) (x : Word)
    (outside : ∀ i < size, x ≠ base + BitVec.ofNat 32 i) : chunk.apply m x = m x := by
  obtain ⟨offset, addr, fits⟩ := inside.inside
  apply store_outside
  apply Nat.le_of_not_lt
  intro within
  apply outside (offset + (x - chunk.addr).toNat) (by omega)
  rw [← ofNat_add_ofNat, ← addr, BitVec.ofNat_toNat, BitVec.setWidth_eq]
  bv_omega

/-- Chunks inside of a section change nothing outside of it. -/
theorem foldl_outside {base : Word} {size : Nat} (chunks : List Chunk)
    (inside : ∀ chunk ∈ chunks, chunk.Inside base size) (m : Mem) (x : Word)
    (outside : ∀ i < size, x ≠ base + BitVec.ofNat 32 i) :
    chunks.foldl Chunk.apply m x = m x := by
  induction chunks generalizing m with
  | nil => rfl
  | cons chunk rest ih =>
      rw [List.foldl_cons, ih (fun other member => inside other (List.mem_cons_of_mem _ member)),
        (inside chunk (List.mem_cons_self ..)).apply m x outside]

/-- Behind `patch` stand chunks inside of the section. -/
def Appended (base : Word) (size : Nat) (patch out : List Byte) : Prop :=
  ∃ chunks : List Chunk, out = patch ++ chunks.flatMap Chunk.encode ∧
    ∀ chunk ∈ chunks, chunk.Inside base size

section Appended

variable {base : Word} {size : Nat}

theorem Appended.refl (patch : List Byte) : Appended base size patch patch :=
  ⟨[], (List.append_nil patch).symm, fun _ absent => absurd absent List.not_mem_nil⟩

theorem Appended.trans {patch middle out : List Byte} (first : Appended base size patch middle)
    (second : Appended base size middle out) : Appended base size patch out := by
  obtain ⟨chunks, rfl, inside⟩ := first
  obtain ⟨chunks', rfl, inside'⟩ := second
  refine ⟨chunks ++ chunks', ?_, ?_⟩
  · rw [List.flatMap_append, List.append_assoc]
  · intro chunk member
    rcases List.mem_append.mp member with member | member
    · exact inside chunk member
    · exact inside' chunk member

theorem appended_one (patch : List Byte) (chunk : Chunk) (inside : chunk.Inside base size) :
    Appended base size patch (patch ++ chunk.encode) := by
  refine ⟨[chunk], ?_, ?_⟩
  · rw [List.flatMap_singleton]
  · intro other member
    rw [List.mem_singleton.mp member]
    exact inside

theorem patchAddDiff_appended {patch data out : List Byte} {i offset : Nat} {lenWords : Word}
    (bound : data.length ≤ size) (place : offset = 4 * i)
    (written : patchAddDiff patch data i lenWords (base + BitVec.ofNat 32 offset) = some out) :
    Appended base size patch out := by
  have length := (lenWords * 4#32).isLt
  unfold patchAddDiff at written
  by_cases fits : 4 * i + (lenWords * 4#32).toNat ≤ data.length
  · obtain ⟨bytes, taken, size', -⟩ := bytesFrom_get data i _ fits
    rw [taken] at written
    have same : BitVec.ofNat 32 bytes.length = lenWords * 4#32 := by
      rw [size', BitVec.ofNat_toNat, BitVec.setWidth_eq]
    have chunk : Appended base size patch (patch ++ _) := appended_one patch
      (.data (base + BitVec.ofNat 32 offset) bytes)
      ⟨by rw [Chunk.bytes, size']; exact length, offset, rfl, by rw [Chunk.bytes, size']; omega⟩
    rw [Chunk.encode, same] at chunk
    obtain rfl := Option.some.inj written
    exact chunk
  · rw [show bytesFrom data i (lenWords * 4#32).toNat = none from if_neg fits] at written
    cases written

theorem scan_le (test : Nat → Option Bool) (n fuel i k : Nat) (before : i < n)
    (stop : scan test n fuel i = some k) : k ≤ n := by
  induction fuel generalizing i with
  | zero => exact Nat.le_of_lt (Option.some.inj stop ▸ before)
  | succ fuel ih =>
      rw [scan] at stop
      cases found : test i with
      | none =>
          rw [found] at stop
          cases stop
      | some b =>
          rw [found] at stop
          cases b with
          | true =>
              simp only [Option.bind_eq_bind, Option.bind_some, if_true] at stop
              by_cases last : i + 1 ≥ n
              · rw [if_pos last] at stop
                have here := Option.some.inj stop
                omega
              · rw [if_neg last] at stop
                exact ih (i + 1) (by omega) stop
          | false =>
              have here := Option.some.inj stop
              omega

/-- The difference is written inside of the section. -/
theorem diffWords_appended (unpatched patched : List Byte) (n fuel i : Nat) (patch out : List Byte)
    (bound : patched.length ≤ size)
    (written : diffWords base n unpatched patched fuel i patch = some out) :
    Appended base size patch out := by
  induction fuel generalizing i patch with
  | zero =>
      obtain rfl := Option.some.inj written
      exact .refl patch
  | succ fuel ih =>
      rw [diffWords] at written
      by_cases more : i < n
      · rw [if_pos more] at written
        obtain ⟨b, -, written⟩ := Option.bind_eq_some_iff.mp written
        cases b with
        | true =>
            obtain ⟨k, -, written⟩ := Option.bind_eq_some_iff.mp written
            obtain ⟨middle, added, written⟩ := Option.bind_eq_some_iff.mp written
            exact (patchAddDiff_appended bound rfl added).trans (ih k middle written)
        | false => exact ih (i + 1) patch written
      · rw [if_neg more] at written
        obtain rfl := Option.some.inj written
        exact .refl patch

theorem addWords_appended (data : List Byte) (n fuel i : Nat) (patch out : List Byte)
    (inside : 4 * n ≤ size) (small : size < 2 ^ 32) (bound : data.length ≤ size)
    (written : addWords base n data fuel i patch = some out) :
    Appended base size patch out := by
  induction fuel generalizing i patch with
  | zero =>
      obtain rfl := Option.some.inj written
      exact .refl patch
  | succ fuel ih =>
      rw [addWords] at written
      by_cases more : i < n
      · rw [if_pos more] at written
        obtain ⟨b, -, written⟩ := Option.bind_eq_some_iff.mp written
        cases b with
        | true =>
            obtain ⟨k, stop, written⟩ := Option.bind_eq_some_iff.mp written
            have upper := scan_le _ n n i k more stop
            have words : 4 * (k - i) < 2 ^ 32 := by omega
            rw [patchAddMemset_chunk patch (k - i) _ words] at written
            have chunk : Appended base size patch (patch ++ _) := appended_one patch
              (.memset (base + BitVec.ofNat 32 (4 * i)) (4 * (k - i)))
              ⟨by rw [Chunk.bytes, List.length_replicate]; exact words, 4 * i, rfl,
                by rw [Chunk.bytes, List.length_replicate]; omega⟩
            exact chunk.trans (ih k _ written)
        | false =>
            obtain ⟨k, -, written⟩ := Option.bind_eq_some_iff.mp written
            obtain ⟨middle, added, written⟩ := Option.bind_eq_some_iff.mp written
            exact (patchAddDiff_appended bound rfl added).trans (ih k middle written)
      · rw [if_neg more] at written
        obtain rfl := Option.some.inj written
        exact .refl patch

theorem patchAddToFile_appended (host : Host) (patched patch out : List Byte)
    (small : sizeRound patched.length < 2 ^ 32)
    (result : patchAddToFile host patched patch base = some (0, out)) :
    Appended base (sizeRound patched.length) patch out := by
  unfold patchAddToFile at result
  split at result
  · cases result
  · split at result
    · cases result
    · obtain ⟨written, added, same⟩ := Option.bind_eq_some_iff.mp result
      cases same
      exact addWords_appended (contents patched) _ _ 0 patch out
        (Nat.le_of_eq (sizeRound_words patched.length)) small
        (Nat.le_of_eq (contents_length patched)) added

theorem patchDiffToFile_appended (host : Host) (unpatched patched patch out : List Byte)
    (result : patchDiffToFile host unpatched patched patch base = some (0, out)) :
    Appended base (sizeRound patched.length) patch out := by
  have bound := Nat.le_of_eq (contents_length patched)
  unfold patchDiffToFile at result
  split at result
  · cases result
  · split at result
    · cases result
    · split at result
      · cases result
      · obtain ⟨middle, diff, result⟩ := Option.bind_eq_some_iff.mp result
        have front := diffWords_appended (contents unpatched) (contents patched) _ _ 0 patch middle
          bound diff
        split at result
        · obtain ⟨written, added, same⟩ := Option.bind_eq_some_iff.mp result
          cases same
          exact front.trans
            (patchAddDiff_appended bound (sizeRound_words unpatched.length).symm added)
        · cases result
          exact front

end Appended

/-- The chunks load the section into a memory that meets `before`, and lie inside of it. -/
structure Section (base : Word) (file : List Byte) (before : Mem → Prop) (chunks : List Chunk) :
    Prop where
  inside : ∀ chunk ∈ chunks, chunk.Inside base (sizeRound file.length)
  loaded : ∀ m, before m → Loaded (chunks.foldl Chunk.apply m) base file

/-- What is executed from the file is the chunks that were appended. -/
theorem Reproduces.chunks {base : Word} {file patch out : List Byte} {before : Mem → Prop}
    (reproduces : Reproduces (some (0, out)) patch base file before)
    (appended : Appended base (sizeRound file.length) patch out) :
    ∃ chunks, out = patch ++ chunks.flatMap Chunk.encode ∧ Section base file before chunks := by
  obtain ⟨chunks, written, inside⟩ := appended
  refine ⟨chunks, written, inside, ?_⟩
  intro m meets
  obtain ⟨ret, out', same, fails | ⟨rest, behind, run⟩⟩ := reproduces
  · cases same
    exact absurd rfl fails
  · cases same
    obtain ⟨m', executed, loaded⟩ := run m meets
    rw [written, List.append_cancel_left_eq] at behind
    rw [← behind, execute_chunks m chunks _ (fun chunk member => (inside chunk member).bound)
      (encode_length chunks)] at executed
    cases executed
    exact loaded

/-- What is known before the section is loaded. -/
def SectionFile.Before (s : SectionFile) (m : Mem) : Prop :=
  ∀ unpatched, s.unpatched = some unpatched → Loaded m s.base unpatched

/-- The patched section is not the shorter one, where the two are compared. -/
structure SectionFile.Fits (s : SectionFile) : Prop where
  small : sizeRound s.patched.length < 2 ^ 32
  longer : ∀ unpatched, s.unpatched = some unpatched →
    sizeRound unpatched.length ≤ sizeRound s.patched.length

theorem patchAddToFile_works (host : Host) (patched patch : List Byte) (base : Word)
    (works : host.Works) (ret : Int) (out : List Byte)
    (result : patchAddToFile host patched patch base = some (ret, out)) : ret = 0 := by
  simp only [patchAddToFile, works.patchedAllocated, works.patchedRead, Bool.true_eq_false,
    if_false] at result
  obtain ⟨_, -, same⟩ := Option.bind_eq_some_iff.mp result
  cases same
  rfl

theorem patchDiffToFile_zero (host : Host) (unpatched patched patch : List Byte) (base : Word)
    (works : host.Works) (ret : Int) (out : List Byte)
    (result : patchDiffToFile host unpatched patched patch base = some (ret, out)) : ret = 0 := by
  rw [patchDiffToFile_works host unpatched patched patch base works] at result
  obtain ⟨_, -, result⟩ := Option.bind_eq_some_iff.mp result
  split at result
  · obtain ⟨_, -, same⟩ := Option.bind_eq_some_iff.mp result
    cases same
    rfl
  · cases result
    rfl

/-- One section: it is encoded, or compared with the unpatched one. -/
theorem encodeSection_chunks (s : SectionFile) (fits : s.Fits) (patch : List Byte) :
    ∃ ret out, encodeSection s patch = some (ret, out) ∧ (s.host.Works → ret = 0) ∧
      (ret = 0 → ∃ chunks, out = patch ++ chunks.flatMap Chunk.encode ∧
        Section s.base s.patched s.Before chunks) := by
  unfold encodeSection
  cases kind : s.unpatched with
  | none =>
      have reproduces := patchAddToFile_reproduces s.host s.patched patch s.base fits.small
      obtain ⟨ret, out, result, -⟩ := id reproduces
      refine ⟨ret, out, result, ?_, ?_⟩
      · intro works
        exact patchAddToFile_works s.host s.patched patch s.base works ret out result
      · rintro rfl
        have appended := patchAddToFile_appended s.host s.patched patch out fits.small result
        rw [result] at reproduces
        obtain ⟨chunks, written, inside, loaded⟩ := reproduces.chunks appended
        exact ⟨chunks, written, inside, fun m _ => loaded m trivial⟩
  | some unpatched =>
      have reproduces : Reproduces (patchDiffToFile s.host unpatched s.patched patch s.base) patch
          s.base s.patched fun m => Loaded m s.base unpatched := by
        by_cases works : s.host.Works
        · exact patchDiffToFile_longer s.host unpatched s.patched patch s.base works fits.small
            (fits.longer unpatched kind)
        · exact patchDiffToFile_fails s.host unpatched s.patched patch s.base works _
      obtain ⟨ret, out, result, -⟩ := id reproduces
      refine ⟨ret, out, result, ?_, ?_⟩
      · intro works
        exact patchDiffToFile_zero s.host unpatched s.patched patch s.base works ret out result
      · rintro rfl
        have appended := patchDiffToFile_appended s.host unpatched s.patched patch out result
        rw [result] at reproduces
        obtain ⟨chunks, written, inside, loaded⟩ := reproduces.chunks appended
        exact ⟨chunks, written, inside, fun m before => loaded m (before unpatched kind)⟩

/-- No byte of one section is a byte of the other. -/
def Separate (s t : SectionFile) : Prop :=
  Apart s.base (sizeRound s.patched.length) t.base (sizeRound t.patched.length)

def Outside (s : SectionFile) (x : Word) : Prop :=
  ∀ i < sizeRound s.patched.length, x ≠ s.base + BitVec.ofNat 32 i

/-- The chunks load all of the sections and change nothing else. -/
structure Sections (files : List SectionFile) (chunks : List Chunk) : Prop where
  bounds : ∀ chunk ∈ chunks, chunk.bytes.length < 2 ^ 32
  loaded : ∀ m, (∀ s ∈ files, s.Before m) →
    ∀ s ∈ files, Loaded (chunks.foldl Chunk.apply m) s.base s.patched
  kept : ∀ m x, (∀ s ∈ files, Outside s x) → chunks.foldl Chunk.apply m x = m x

theorem sections_nil : Sections [] [] where
  bounds _ absent := absurd absent List.not_mem_nil
  loaded _ _ _ absent := absurd absent List.not_mem_nil
  kept _ _ _ := rfl

/-- A section that is loaded first does not disturb what the others are compared with, and the
others do not disturb it. -/
theorem Section.cons {s : SectionFile} {rest : List SectionFile} {chunks chunks' : List Chunk}
    (first : Section s.base s.patched s.Before chunks) (others : Sections rest chunks')
    (fits : ∀ t ∈ rest, t.Fits) (apart : ∀ t ∈ rest, Separate s t) :
    Sections (s :: rest) (chunks ++ chunks') where
  bounds chunk member := by
    rcases List.mem_append.mp member with member | member
    · exact (first.inside chunk member).bound
    · exact others.bounds chunk member
  loaded m before t member := by
    rw [List.foldl_append]
    rcases List.mem_cons.mp member with rfl | member
    · have here := first.loaded m (before t (List.mem_cons_self ..))
      intro i within
      rw [others.kept, here i within]
      intro u member j inside
      exact apart u member i within j inside
    · apply others.loaded _ _ t member
      intro u member unpatched kind i within
      have shorter := (fits u member).longer unpatched kind
      have held := before u (List.mem_cons_of_mem _ member) unpatched kind i within
      rw [foldl_outside chunks first.inside m, held]
      intro j inside same
      exact apart u member j inside i (Nat.lt_of_lt_of_le within shorter) same.symm
  kept m x outside := by
    rw [List.foldl_append,
      others.kept _ x fun t member => outside t (List.mem_cons_of_mem _ member),
      foldl_outside chunks first.inside m x (outside s (List.mem_cons_self ..))]

/-- The loop over the directory. -/
theorem encodeSections_chunks (files : List SectionFile) (fits : ∀ s ∈ files, s.Fits)
    (apart : files.Pairwise Separate) (patch : List Byte) :
    ∃ ret out, encodeSections files patch = some (ret, out) ∧
      ((∀ s ∈ files, s.opened = true ∧ s.host.Works) → ret = 0) ∧
      (ret = 0 → ∃ chunks, out = patch ++ chunks.flatMap Chunk.encode ∧ Sections files chunks) := by
  induction files generalizing patch with
  | nil =>
      refine ⟨0, patch, rfl, fun _ => rfl, ?_⟩
      intro _
      exact ⟨[], (List.append_nil patch).symm, sections_nil⟩
  | cons s rest ih =>
      obtain ⟨first, others⟩ := List.pairwise_cons.mp apart
      have fitsRest : ∀ t ∈ rest, t.Fits := fun t member => fits t (List.mem_cons_of_mem _ member)
      unfold encodeSections
      by_cases opened : s.opened = false
      · refine ⟨-1, patch, if_pos opened, ?_, fun zero => absurd zero (by decide)⟩
        intro works
        rw [(works s (List.mem_cons_self ..)).1] at opened
        cases opened
      · obtain ⟨ret, middle, encoded, zero, written⟩ :=
          encodeSection_chunks s (fits s (List.mem_cons_self ..)) patch
        rw [if_neg opened, encoded]
        by_cases failed : ret ≠ 0
        · refine ⟨-1, middle, if_pos failed, ?_, fun zero => absurd zero (by decide)⟩
          intro works
          exact absurd (zero (works s (List.mem_cons_self ..)).2) failed
        · obtain ⟨chunks, rfl, here⟩ := written (Decidable.not_not.mp failed)
          obtain ⟨last, out, later, zeroLater, writtenLater⟩ :=
            ih fitsRest others (patch ++ chunks.flatMap Chunk.encode)
          refine ⟨last, out, (if_neg failed).trans later, ?_, ?_⟩
          · intro works
            exact zeroLater fun t member => works t (List.mem_cons_of_mem _ member)
          · intro none
            obtain ⟨chunks', rfl, rest⟩ := writtenLater none
            refine ⟨chunks ++ chunks', ?_, here.cons rest fitsRest first⟩
            rw [List.flatMap_append, List.append_assoc]

/-- The file with its checksum, around the chunks. -/
theorem writeFooterAndHash_chunks (sha : Ctx) (chunks : List Byte) :
    ∃ hash, (writeFooterAndHash sha ⟨writePatchHeader ++ chunks,
        (writePatchHeader ++ chunks).length⟩).content =
        magic ++ bytes32 1#32 ++ hash ++ chunks ++ bytes32 0xFF#32 ∧
      hash = Sha1.digest (withoutHash (magic ++ bytes32 1#32 ++ hash ++ chunks ++
        bytes32 0xFF#32)) := by
  have long : 32 ≤ (writePatchHeader ++ chunks).length := by
    rw [List.length_append]
    exact Nat.le_add_right 32 _
  have content := writeFooterAndHash_eq sha (writePatchHeader ++ chunks) long
  have front : (magic ++ bytes32 1#32).length = 12 := rfl
  have split : writePatchHeader ++ chunks ++ bytes32 0xFF#32 =
      (magic ++ bytes32 1#32) ++ List.replicate 20 0#8 ++ (chunks ++ bytes32 0xFF#32) :=
    List.append_assoc ..
  have first : (writePatchHeader ++ chunks ++ bytes32 0xFF#32).take 12 = magic ++ bytes32 1#32 := by
    rw [split, List.append_assoc, List.take_left' front]
  have last : (writePatchHeader ++ chunks ++ bytes32 0xFF#32).drop 32 =
      chunks ++ bytes32 0xFF#32 := by
    rw [List.append_assoc]
    exact List.drop_left' rfl
  have joined (hash : List Byte) : magic ++ bytes32 1#32 ++ hash ++ chunks ++ bytes32 0xFF#32 =
      magic ++ bytes32 1#32 ++ hash ++ (chunks ++ bytes32 0xFF#32) :=
    List.append_assoc ..
  refine ⟨Sha1.digest (writePatchHeader ++ chunks ++ bytes32 0xFF#32), ?_, ?_⟩
  · rw [content, first, last, joined]
  · rw [joined, withoutHash_eq _ _ _ front (Sha1.digest_length _), ← split]

/-- Every file opens and every block is there, and the header table has room for the size of the
notes. -/
structure MainHost.Works (host : MainHost) : Prop where
  patchOpened : host.patchOpened = true
  sectionsOpened : host.sectionsOpened = true
  patchedSectionsOpened : host.patchedSectionsOpened = true
  sections : ∀ s ∈ host.sections, s.opened = true ∧ s.host.Works
  img : ∃ img, host.img = some img ∧ 0x34 ≤ tblSize host img ∧
    (host.elfPhdrs (tblSize host img)).isSome = true
  elfNotes : ∀ notesSize, host.elfNotes notesSize = true
  iosProcElf : host.iosProcElf = true
  iosProcess : host.iosProcess.isSome = true

theorem MainHost.Works.elfhdr {host : MainHost} (works : host.Works) :
    readElfhdr host = some 0 := by
  obtain ⟨img, opened, table, allocated⟩ := works.img
  obtain ⟨block, there⟩ := Option.isSome_iff_exists.mp allocated
  have fits : ¬ tblSize host img < 0x30 + 4 := by omega
  simp only [readElfhdr, opened, there, if_neg fits, works.elfNotes, Bool.true_eq_false, if_false]

theorem MainHost.Works.process {host : MainHost} (works : host.Works) :
    ∃ file, readIosProcess host = some file := by
  obtain ⟨file, opened⟩ := Option.isSome_iff_exists.mp works.iosProcess
  refine ⟨file.take carveoutSz, ?_⟩
  simp only [readIosProcess, opened, works.iosProcElf, Option.bind_eq_bind, Option.bind_some,
    Bool.true_eq_false, if_false]
  rfl

/-- The file, with its checksum, loads every patched section over the unpatched ones and changes no
byte outside of them. -/
def LoadsSections (files : List SectionFile) (file : List Byte) : Prop :=
  ∃ hash chunks, file = magic ++ bytes32 1#32 ++ hash ++ chunks ++ bytes32 0xFF#32 ∧
    hash = Sha1.digest (withoutHash file) ∧
    ∀ m, (∀ s ∈ files, s.Before m) →
      ∃ m', execute chunks.length m chunks = some m' ∧
        (∀ s ∈ files, Loaded m' s.base s.patched) ∧
        ∀ x, (∀ s ∈ files, Outside s x) → m' x = m x

/-- When all steps work, 0 is returned, and then the file loads the sections. -/
structure Finished (host : MainHost) (result : Option (Int × List Byte)) : Prop where
  works : host.Works → ∃ file, result = some (0, file)
  loads : ∀ file, result = some (0, file) → LoadsSections host.sections file

theorem finished_stops (host : MainHost) (result : Option (Int × List Byte))
    (failed : ∀ file, result ≠ some (0, file)) (stops : ¬ host.Works) : Finished host result :=
  ⟨fun works => absurd works stops, fun file same => absurd same (failed file)⟩

theorem finished_error (host : MainHost) (ret : Int) (patch : List Byte) (failed : ret ≠ 0)
    (stops : ¬ host.Works) : Finished host (some (ret, patch)) := by
  apply finished_stops host _ _ stops
  intro file same
  cases same
  exact failed rfl

theorem finished_check (host : MainHost) (ok : Bool) (patch : List Byte)
    (next : Option (Int × List Byte)) (needed : host.Works → ok = true)
    (passed : Finished host next) :
    Finished host (if ok = false then some (-1, patch) else next) := by
  cases ok with
  | true => exact passed
  | false =>
      apply finished_error host (-1) patch (by decide)
      intro works
      cases needed works

theorem finished_bind {α : Type} (host : MainHost) (part : Option α)
    (next : α → Option (Int × List Byte)) (needed : host.Works → ∃ a, part = some a)
    (passed : ∀ a, part = some a → Finished host (next a)) : Finished host (part.bind next) := by
  cases result : part with
  | none =>
      apply finished_stops host none nofun
      intro works
      obtain ⟨a, there⟩ := needed works
      rw [result] at there
      cases there
  | some a => exact passed a result

/-- What stands behind the chunks of all sections -/
theorem writeFooterAndHash_loads (sha : Ctx) {files : List SectionFile} {chunks : List Chunk}
    (sections : Sections files chunks) :
    LoadsSections files (writeFooterAndHash sha ⟨writePatchHeader ++ chunks.flatMap Chunk.encode,
      (writePatchHeader ++ chunks.flatMap Chunk.encode).length⟩).content := by
  obtain ⟨hash, content, checksum⟩ := writeFooterAndHash_chunks sha (chunks.flatMap Chunk.encode)
  refine ⟨hash, chunks.flatMap Chunk.encode, content, ?_, ?_⟩
  · rw [content]
    exact checksum
  · intro m before
    exact ⟨_, execute_chunks m chunks _ sections.bounds (encode_length chunks),
      sections.loaded m before, sections.kept m⟩

def sampleMainHost : MainHost where
  patchOpened := true
  sectionsOpened := true
  patchedSectionsOpened := true
  sections :=
    [⟨sampleHost, 0x05000000#32, true, [1#8, 2#8, 3#8, 5#8, 6#8], some [1#8, 2#8, 3#8, 4#8]⟩,
      ⟨sampleHost, 0x10000000#32, true, [0#8, 0#8, 0#8, 0#8, 7#8], none⟩]
  img := some (List.replicate 0x82E 0#8 ++ [0#8, 0x20#8, 0#8, 2#8] ++ List.replicate 0x46 0#8)
  entSzNum _ := 0xAA
  elfPhdrs _ := some fun _ => 0xAA
  elfNotes _ := true
  iosProcElf := true
  iosProcess := some [0x7F#8, 0x45#8, 0x4C#8, 0x46#8]

end Stroopwafel.SaltPatch
