import Stroopwafel.IosElfTable
import Stroopwafel.Loops
import Stroopwafel.Segments

set_option autoImplicit false

namespace Stroopwafel.IosElf

open Memory Segments

def Phdr.segment (ph : Phdr) : Segment := ⟨ph.pVaddr, ph.pPaddr, ph.pMemsz⟩

namespace Image

/-- What the translation loop sees of the table. -/
def segments (img : Image) : List Segment := img.entries.map Phdr.segment

/-- The search for `addr` stops between `front` and `back`. -/
structure SplitAt (img : Image) (addr : Word) (front back : List Segment) : Prop where
  segments_eq : img.segments = front ++ back
  passed : ∀ s ∈ front, ¬ addr < s.vaddr
  stopped : ∀ s, back.head? = some s → addr < s.vaddr

theorem segments_length (img : Image) : img.segments.length = img.rest.length + 1 := by
  simp only [segments, entries, List.length_map, List.length_cons]

theorem segments_insert (img : Image) (j : Nat) (ph : Phdr) :
    (img.insert j ph).segments =
      img.segments.take (j + 1) ++ ph.segment :: img.segments.drop (j + 1) := by
  simp only [segments, entries, insert, List.map_cons, List.map_append, List.map_take,
    List.map_drop, List.take_succ_cons, List.drop_succ_cons, List.cons_append]
  rfl

end Image

theorem vaddrToPaddrFrom_eq (m : Mem) (x : Word) (table : List Phdr) (i : Nat)
    (entry : ∀ j, (inside : j < table.length) → phdrAt m (i + j) = table[j]) :
    vaddrToPaddrFrom m x table.length i = firstMatch (table.map Phdr.segment) x := by
  induction table generalizing i with
  | nil => rfl
  | cons ph rest ih =>
      have first : phdrAt m i = ph := entry 0 (by simp)
      have tail := ih (i + 1) (fun j inside => by
        have next := entry (j + 1) (by simpa using inside)
        rwa [show i + (j + 1) = i + 1 + j by omega, List.getElem_cons_succ] at next)
      simp only [List.length_cons, vaddrToPaddrFrom, List.map_cons, firstMatch, first, tail]
      rfl

theorem insertionFrom_eq (m : Mem) (addr : Word) (front back : List Phdr) (i : Nat)
    (entry : ∀ j, (inside : j < (front ++ back).length) → phdrAt m (i + j) = (front ++ back)[j])
    (passed : ∀ ph ∈ front, ¬ addr < ph.pVaddr)
    (stopped : ∀ ph, back.head? = some ph → addr < ph.pVaddr) :
    insertionFrom m addr (front ++ back).length i = i + front.length := by
  induction front generalizing i with
  | nil =>
      cases back with
      | nil => rfl
      | cons ph rest =>
          have first : phdrAt m i = ph := entry 0 (by simp)
          simp only [List.nil_append, List.length_cons, insertionFrom, first, stopped ph rfl,
            if_true, List.length_nil, Nat.add_zero]
  | cons ph rest ih =>
      have first : phdrAt m i = ph := entry 0 (by simp)
      have tail := ih (i + 1)
        (fun j inside => by
          have next := entry (j + 1) (by simpa using inside)
          simpa [show i + (j + 1) = i + 1 + j by omega] using next)
        (fun t member => passed t (by simp [member]))
      simp only [List.cons_append, List.length_cons, insertionFrom, first, tail]
      rw [if_neg (passed ph (by simp))]
      omega

namespace Image

variable {img : Image} {m : Mem}

theorem At.entry_behind (holds : img.At m) (j : Nat) (inside : j < img.entries.length) :
    phdrAt m (segElfinfo + j) = img.entries[j] := by
  have entry := holds.entry (j + 2) (by simpa [entries, headers] using inside)
  rw [show segElfinfo + j = j + 2 from Nat.add_comm 2 j]
  exact entry

theorem At.translate (holds : img.At m) (x : Word) :
    iosElfVaddrToPaddr m x = firstMatch img.segments x := by
  have count : IosElf.numPhdrs m - segElfinfo = img.entries.length := by
    rw [holds.numPhdrs]
    rfl
  rw [iosElfVaddrToPaddr, count]
  exact vaddrToPaddrFrom_eq m x img.entries segElfinfo holds.entry_behind

theorem At.insertionIndex_eq (holds : img.At m) {addr : Word} {front back : List Segment}
    (split : img.SplitAt addr front back) : insertionIndex m addr = front.length + 2 := by
  have count : IosElf.numPhdrs m - segElfinfo = img.entries.length := by
    rw [holds.numPhdrs]
    rfl
  obtain ⟨frontPhdrs, backPhdrs, entries_eq, front_eq, back_eq⟩ :=
    List.map_eq_append_iff.mp split.segments_eq
  have index := insertionFrom_eq m addr frontPhdrs backPhdrs segElfinfo
    (fun j inside => by
      have entry := holds.entry_behind j (by rw [entries_eq]; exact inside)
      simpa only [entries_eq] using entry)
    (fun ph member => split.passed ph.segment (by
      rw [← front_eq]
      exact List.mem_map_of_mem member))
    (fun ph head => split.stopped ph.segment (by
      rw [← back_eq, List.head?_map, head]
      rfl))
  rw [insertionIndex, count, entries_eq, index, ← front_eq, List.length_map]
  exact Nat.add_comm _ _

/-- Replace the size of the entry with index `j` behind the notes entry. -/
def resize (img : Image) (j : Nat) (memsz : Word) : Image :=
  match j with
  | 0 => { img with elfinfo := { img.elfinfo with pMemsz := memsz } }
  | j + 1 => { img with rest := img.rest.modify j fun ph => { ph with pMemsz := memsz } }

theorem resize_headers (img : Image) (j : Nat) (memsz : Word) :
    (img.resize j memsz).headers =
      img.headers.modify (j + 2) fun ph => { ph with pMemsz := memsz } := by
  cases j <;> rfl

theorem resize_noteBytes (img : Image) (j : Nat) (memsz : Word) :
    (img.resize j memsz).noteBytes = img.noteBytes := by
  cases j <;> rfl

theorem segments_resize (img : Image) (j : Nat) (memsz : Word) :
    (img.resize j memsz).segments = img.segments.modify j fun s => { s with memsz := memsz } := by
  cases j with
  | zero => rfl
  | succ j =>
      simp only [segments, entries, resize, List.map_cons, List.modify_succ_cons]
      congr 1
      apply List.ext_getElem
      · simp only [List.length_map, List.length_modify]
      · intro i _ _
        simp only [List.getElem_map, List.getElem_modify]
        split <;> rfl

theorem At.resize (holds : img.At m) (room : img.Room 0) (j : Nat) (memsz : Word)
    (inside : j < img.entries.length) :
    (img.resize j memsz).At (setField m (j + 2) memszField memsz) := by
  have bound := room
  simp only [Room, Nat.add_zero] at bound
  have position : j + 2 < img.headers.length := by simpa [entries, headers] using inside
  have length : (img.resize j memsz).headers.length = img.headers.length := by
    rw [resize_headers, List.length_modify]
  have notes : (img.resize j memsz).notes = img.notes := by cases j <;> rfl
  have self : (img.resize j memsz).self = img.self := by cases j <;> rfl
  refine ⟨?_, ?_, ?_, ?_, ?_⟩
  · intro i within
    rw [length] at within
    simp only [resize_headers, List.getElem_modify]
    by_cases changed : j + 2 = i
    · subst i
      rw [if_pos rfl, phdrAt_setField_memsz _ _ _ (by omega), holds.entry (j + 2) within]
    · rw [if_neg changed, phdrAt_setField_ne m (j + 2) i _ _ changed (by decide) (by omega)
        (by omega), holds.entry i within]
  · rw [length, self]
    exact holds.count
  · rw [length, notes]
    exact holds.behind
  · rw [notes, resize_noteBytes]
    exact holds.notesSize
  · intro t ht
    simp only [resize_noteBytes, length] at ht ⊢
    rw [setField_behind m (j + 2) img.headers.length memszField img.noteBytes.length memsz position
      (by decide) (by omega) t ht]
    exact holds.note t ht

end Image

def altBases : List Word :=
  [mcpAltBase, fsAltBase, netAltBase, kernAltBase, bspAltBase, nsecAltBase]

def mirrors (base : Word) : List Segment := altBases.map fun alt => (mirror base alt).segment

/-- The entry before the carve-out, without the carve-out. -/
def trimmed (base : Word) (previous : Segment) : Segment :=
  { previous with memsz := previous.memsz - carveoutSize base }

@[simp] theorem trimmed_vaddr (base : Word) (s : Segment) : (trimmed base s).vaddr = s.vaddr := by
  cases s
  rfl

@[simp] theorem trimmed_paddr (base : Word) (s : Segment) : (trimmed base s).paddr = s.paddr := by
  cases s
  rfl

/-- `m` holds a table with these segments and room for `extra` more entries. -/
def Stands (m : Mem) (segments : List Segment) (extra : Nat) : Prop :=
  ∃ img : Image, img.At m ∧ img.segments = segments ∧ img.Room extra

section Insertion

variable {m : Mem} {base : Word} {front back : List Segment} {extra : Nat}

theorem Stands.slot (stands : Stands m (front ++ back) (extra + 1))
    (passed : ∀ s ∈ front, ¬ base < s.vaddr)
    (stopped : ∀ s, back.head? = some s → base < s.vaddr) :
    (iosElfAddPhdr m base).2 = phdrAddress (front.length + 2) := by
  obtain ⟨img, holds, segments_eq, room⟩ := stands
  rw [holds.addPhdr_eq (room.mono (by omega)),
    holds.insertionIndex_eq ⟨segments_eq, passed, stopped⟩]

theorem Stands.add (stands : Stands m (front ++ back) (extra + 1)) (nonempty : front ≠ [])
    (passed : ∀ s ∈ front, ¬ base < s.vaddr)
    (stopped : ∀ s, back.head? = some s → base < s.vaddr) (ph : Phdr) :
    Stands (writePhdr (iosElfAddPhdr m base).1 (iosElfAddPhdr m base).2 ph)
      (front ++ ph.segment :: back) extra := by
  obtain ⟨img, holds, segments_eq, room⟩ := stands
  have index := holds.insertionIndex_eq ⟨segments_eq, passed, stopped⟩
  have positive : 0 < front.length := List.length_pos_iff.mpr nonempty
  have position : insertionIndex m base - 3 + 1 = front.length := by omega
  refine ⟨img.insert (insertionIndex m base - 3) ph,
    holds.insert (room.mono (by omega)) base ph (by omega), ?_, ?_⟩
  · rw [Image.segments_insert, position, segments_eq, List.take_left, List.drop_left]
  · have length := congrArg List.length segments_eq
    rw [Image.segments_length, List.length_append] at length
    have grown := img.insert_length (insertionIndex m base - 3) ph (by omega)
    simp only [Image.Room, grown] at room ⊢
    rwa [show img.headers.length + 1 + extra = img.headers.length + (extra + 1) by omega]

theorem Stands.trim {previous : Segment} (base : Word)
    (stands : Stands m (front ++ previous :: back) extra) :
    Stands (trimPrevious base m (phdrAddress (front.length + 3)))
      (front ++ trimmed base previous :: back) extra := by
  obtain ⟨img, holds, segments_eq, room⟩ := stands
  have length := congrArg List.length segments_eq
  rw [Image.segments_length, List.length_append, List.length_cons] at length
  have inside : front.length < img.entries.length := by
    simp only [Image.entries, List.length_cons]
    omega
  have address : phdrAddress (front.length + 3) - phdrBytes = phdrAddress (front.length + 2) := by
    rw [← phdrAddress_succ, BitVec.add_sub_cancel]
  have memsz : field m (front.length + 2) memszField = previous.memsz := by
    have entry := holds.entry_behind front.length inside
    have within : front.length < img.segments.length := by
      rw [segments_eq]
      simp
    have segment : img.segments[front.length] = previous := by
      simp only [segments_eq, List.getElem_append_right (Nat.le_refl _), Nat.sub_self,
        List.getElem_cons_zero]
    rw [Nat.add_comm] at entry
    simp only [Image.segments, List.getElem_map, ← entry] at segment
    exact congrArg Segment.memsz segment
  refine ⟨img.resize front.length (previous.memsz - carveoutSize base), ?_, ?_, ?_⟩
  · have resized := holds.resize (room.mono (Nat.zero_le extra)) front.length
      (previous.memsz - carveoutSize base) inside
    simp only [trimPrevious, address]
    rw [← memsz] at resized ⊢
    exact resized
  · rw [Image.segments_resize, segments_eq, Loops.modify_append]
    rfl
  · simp only [Image.Room, Image.resize_headers, List.length_modify] at room ⊢
    rwa [Image.resize_noteBytes]

/-- The next insertion for `base` goes between `front` and `back`. -/
structure Ready (m : Mem) (base : Word) (front back : List Segment) (extra : Nat) : Prop where
  stands : Stands m (front ++ back) extra
  nonempty : front ≠ []
  passed : ∀ s ∈ front, ¬ base < s.vaddr
  stopped : ∀ s, back.head? = some s → base < s.vaddr

theorem Ready.addLow (ready : Ready m base front back (extra + 1)) (vaddr : Word)
    (low : ¬ base < vaddr) :
    Ready (addMirror base m vaddr) base (front ++ [(mirror base vaddr).segment]) back extra where
  stands := by
    rw [← List.append_cons]
    exact ready.stands.add ready.nonempty ready.passed ready.stopped (mirror base vaddr)
  nonempty := by simp
  passed := by
    simp only [List.mem_append, List.mem_singleton]
    rintro s (member | rfl)
    · exact ready.passed s member
    · exact low
  stopped := ready.stopped

theorem Ready.addHigh (ready : Ready m base front back (extra + 1)) (vaddr : Word)
    (high : base < vaddr) :
    Ready (addMirror base m vaddr) base front ((mirror base vaddr).segment :: back) extra where
  stands := ready.stands.add ready.nonempty ready.passed ready.stopped (mirror base vaddr)
  nonempty := ready.nonempty
  passed := ready.passed
  stopped := by
    rintro s head
    cases head
    exact high

end Insertion

/-- The segments after `init_phdrs`. `NSEC` and `BSP` lie above the insertion point,
so each mirror added after them lands in front of them. -/
def mapped (base : Word) (pre : List Segment) (previous : Segment) (post : List Segment) :
    List Segment :=
  pre ++ trimmed base previous :: (carveout base).segment :: (mirrors base ++ post)

/-- The tables `init_phdrs` is meant for: disjoint ranges, the carve-out at the end
of the entry before the insertion point, and free mirror ranges. -/
structure Prepared (segments : List Segment) (base : Word) (pre : List Segment)
    (previous : Segment) (post : List Segment) : Prop where
  segments_eq : segments = pre ++ previous :: post
  disjoint : segments.Pairwise Disjoint
  bounded : ∀ s ∈ segments, s.Bounded
  passed : ∀ s ∈ pre, ¬ base < s.vaddr
  stopped : ∀ s, post.head? = some s → base < s.vaddr
  starts : previous.vaddr ≤ base
  ends : previous.vaddr.toNat + previous.memsz.toNat = ramdiskEnd.toNat
  carved : base ≤ ramdiskEnd
  free : ∀ s ∈ segments, ∀ alt ∈ altBases, Disjoint s (mirror base alt).segment

namespace Prepared

variable {segments : List Segment} {base : Word} {pre : List Segment} {previous : Segment}
  {post : List Segment}

/-- A mirror below the end of the ramdisk lies below the carve-out. -/
theorem mirror_below (prepared : Prepared segments base pre previous post) (alt : Word)
    (member : alt ∈ altBases) (low : alt < ramdiskEnd) : ¬ base < alt := by
  intro above
  have apart := prepared.free previous (by simp [prepared.segments_eq]) alt member alt
  have starts := prepared.starts
  have ends := prepared.ends
  apply apart
  simp only [Segment.Covers, mirror, Phdr.segment, codeTrampolineSize]
  bv_omega

theorem previous_passed (prepared : Prepared segments base pre previous post) :
    ∀ s ∈ pre ++ [previous], ¬ base < s.vaddr := by
  have starts := prepared.starts
  simp only [List.mem_append, List.mem_singleton]
  rintro s (member | rfl)
  · exact prepared.passed s member
  · bv_omega

/-- The state after the carve-out entry is filled and its predecessor trimmed. -/
theorem carveout_ready (prepared : Prepared segments base pre previous post) {m : Mem}
    (stands : Stands m segments 7) :
    Ready (trimPrevious base (writePhdr (iosElfAddPhdr m base).1 (iosElfAddPhdr m base).2
        (carveout base)) (iosElfAddPhdr m base).2) base
      (pre ++ [trimmed base previous, (carveout base).segment]) post 6 := by
  have passed := prepared.previous_passed
  have initial : Stands m ((pre ++ [previous]) ++ post) 7 := by
    rw [List.append_assoc, List.singleton_append, ← prepared.segments_eq]
    exact stands
  have carved := initial.add (by simp) passed prepared.stopped (carveout base)
  rw [List.append_assoc, List.singleton_append] at carved
  have resized := carved.trim base
  have slot := initial.slot passed prepared.stopped
  rw [List.length_append, List.length_singleton, Nat.add_assoc] at slot
  rw [← slot] at resized
  refine ⟨?_, by simp, ?_, prepared.stopped⟩
  · rwa [List.append_assoc]
  · simp only [List.mem_append, List.mem_cons, List.not_mem_nil, or_false]
    rintro s (member | rfl | rfl)
    · exact prepared.passed s member
    · rw [trimmed_vaddr]
      exact passed previous (by simp)
    · exact BitVec.lt_irrefl base

theorem initPhdrs_stands (prepared : Prepared segments base pre previous post) {m : Mem}
    (stands : Stands m segments 7) :
    Stands (initPhdrs base m) (mapped base pre previous post) 0 := by
  have above : ∀ alt : Word, ramdiskEnd < alt → base < alt := by
    intro alt high
    have := prepared.carved
    bv_omega
  have below := prepared.mirror_below
  have carved := prepared.carveout_ready stands
  have mcp := carved.addLow mcpAltBase (below _ (by simp [altBases]) (by decide))
  have fs := mcp.addLow fsAltBase (below _ (by simp [altBases]) (by decide))
  have net := fs.addLow netAltBase (below _ (by simp [altBases]) (by decide))
  have nsec := net.addHigh nsecAltBase (above _ (by decide))
  have bsp := nsec.addHigh bspAltBase (above _ (by decide))
  have kern := bsp.addLow kernAltBase (below _ (by simp [altBases]) (by decide))
  simpa [mapped, mirrors, altBases, initPhdrs] using kern.stands

theorem carveoutSize_toNat (prepared : Prepared segments base pre previous post) :
    (carveoutSize base).toNat = ramdiskEnd.toNat - base.toNat :=
  BitVec.toNat_sub_of_le prepared.carved

theorem trimmed_memsz (prepared : Prepared segments base pre previous post) :
    (trimmed base previous).memsz.toNat = base.toNat - previous.vaddr.toNat := by
  have starts : previous.vaddr.toNat ≤ base.toNat := prepared.starts
  have carved : base.toNat ≤ ramdiskEnd.toNat := prepared.carved
  have ends := prepared.ends
  have size := prepared.carveoutSize_toNat
  have fits : carveoutSize base ≤ previous.memsz := by
    rw [BitVec.le_def]
    omega
  rw [trimmed, BitVec.toNat_sub_of_le fits]
  omega

theorem carveout_covers_iff (prepared : Prepared segments base pre previous post) (x : Word) :
    (carveout base).segment.Covers x ↔ base.toNat ≤ x.toNat ∧ x.toNat < ramdiskEnd.toNat := by
  have carved : base.toNat ≤ ramdiskEnd.toNat := prepared.carved
  have size := prepared.carveoutSize_toNat
  change base.toNat ≤ x.toNat ∧ x.toNat < base.toNat + (carveoutSize base).toNat ↔ _
  omega

theorem trimmed_covers_iff (prepared : Prepared segments base pre previous post) (x : Word) :
    (trimmed base previous).Covers x ↔ previous.vaddr.toNat ≤ x.toNat ∧ x.toNat < base.toNat := by
  have starts : previous.vaddr.toNat ≤ base.toNat := prepared.starts
  have size := prepared.trimmed_memsz
  rw [Segment.Covers, size]
  rw [trimmed_vaddr]
  omega

theorem previous_covers_iff (prepared : Prepared segments base pre previous post) (x : Word) :
    previous.Covers x ↔
      (trimmed base previous).Covers x ∨ (carveout base).segment.Covers x := by
  have starts : previous.vaddr.toNat ≤ base.toNat := prepared.starts
  have carved : base.toNat ≤ ramdiskEnd.toNat := prepared.carved
  rw [prepared.trimmed_covers_iff, prepared.carveout_covers_iff, Segment.Covers, prepared.ends]
  omega

theorem trimmed_disjoint (prepared : Prepared segments base pre previous post) :
    Disjoint (trimmed base previous) (carveout base).segment := by
  intro x
  rw [prepared.trimmed_covers_iff, prepared.carveout_covers_iff]
  omega

end Prepared

theorem mirror_covers_iff (base alt x : Word) :
    (mirror base alt).segment.Covers x ↔ alt.toNat ≤ x.toNat ∧ x.toNat < alt.toNat + 0x100000 :=
  Iff.rfl

theorem mirrors_disjoint (base : Word) : (mirrors base).Pairwise Disjoint := by
  simp only [mirrors, List.pairwise_map]
  have ordered : altBases.Pairwise fun a b =>
      a.toNat + 0x100000 ≤ b.toNat ∨ b.toNat + 0x100000 ≤ a.toNat := by decide
  exact ordered.imp Ordered.disjoint

namespace Prepared

variable {segments : List Segment} {base : Word} {pre : List Segment} {previous : Segment}
  {post : List Segment}

theorem outside_mirrors (prepared : Prepared segments base pre previous post) {s t : Segment}
    (member : s ∈ segments) (mirrored : t ∈ mirrors base) : Disjoint s t := by
  simp only [mirrors, List.mem_map] at mirrored
  obtain ⟨alt, listed, rfl⟩ := mirrored
  exact prepared.free s member alt listed

theorem mapped_disjoint (prepared : Prepared segments base pre previous post) :
    (mapped base pre previous post).Pairwise Disjoint := by
  have parts := prepared.previous_covers_iff
  have inTrimmed : ∀ x, (trimmed base previous).Covers x → previous.Covers x :=
    fun x covers => (parts x).mpr (Or.inl covers)
  have inCarveout : ∀ x, (carveout base).segment.Covers x → previous.Covers x :=
    fun x covers => (parts x).mpr (Or.inr covers)
  have original := prepared.disjoint
  rw [prepared.segments_eq, List.pairwise_append, List.pairwise_cons] at original
  obtain ⟨beforeApart, ⟨previousApart, afterApart⟩, across⟩ := original
  have mirrorApart : ∀ s ∈ pre ++ previous :: post, ∀ t ∈ mirrors base, Disjoint s t :=
    fun s member t listed =>
      prepared.outside_mirrors (by rw [prepared.segments_eq]; exact member) listed
  rw [mapped, List.pairwise_append, List.pairwise_cons, List.pairwise_cons, List.pairwise_append]
  refine ⟨beforeApart, ⟨?_, ?_, mirrors_disjoint base, afterApart, ?_⟩, ?_⟩
  · intro t member x both
    simp only [List.mem_cons, List.mem_append] at member
    rcases member with rfl | mirrored | behind
    · exact prepared.trimmed_disjoint x both
    · exact mirrorApart previous (by simp) t mirrored x ⟨inTrimmed x both.1, both.2⟩
    · exact previousApart t behind x ⟨inTrimmed x both.1, both.2⟩
  · intro t member x both
    simp only [List.mem_append] at member
    rcases member with mirrored | behind
    · exact mirrorApart previous (by simp) t mirrored x ⟨inCarveout x both.1, both.2⟩
    · exact previousApart t behind x ⟨inCarveout x both.1, both.2⟩
  · intro s mirrored t behind x both
    exact mirrorApart t (by simp [behind]) s mirrored x both.symm
  · intro s before t member x both
    simp only [List.mem_cons, List.mem_append] at member
    rcases member with rfl | rfl | mirrored | behind
    · exact across s before previous (by simp) x ⟨both.1, inTrimmed x both.2⟩
    · exact across s before previous (by simp) x ⟨both.1, inCarveout x both.2⟩
    · exact mirrorApart s (by simp [before]) t mirrored x both
    · exact across s before t (by simp [behind]) x both

theorem mapped_bounded (prepared : Prepared segments base pre previous post) :
    ∀ s ∈ mapped base pre previous post, s.Bounded := by
  have bounded := prepared.bounded
  rw [prepared.segments_eq] at bounded
  have starts : previous.vaddr.toNat ≤ base.toNat := prepared.starts
  have carved : base.toNat ≤ ramdiskEnd.toNat := prepared.carved
  intro s member
  simp only [mapped, List.mem_append, List.mem_cons] at member
  rcases member with before | rfl | rfl | mirrored | behind
  · exact bounded s (by simp [before])
  · rw [Segment.Bounded, prepared.trimmed_memsz, trimmed_vaddr]
    have := base.isLt
    omega
  · have size := prepared.carveoutSize_toNat
    change base.toNat + (carveoutSize base).toNat ≤ 2 ^ 32
    have top : ramdiskEnd.toNat = 0x28000000 := rfl
    omega
  · simp only [mirrors, List.mem_map] at mirrored
    obtain ⟨alt, listed, rfl⟩ := mirrored
    have low : ∀ alt ∈ altBases, alt.toNat < 0xF0000000 := by simp [altBases]
    have := low alt listed
    change alt.toNat + 0x100000 ≤ 2 ^ 32
    omega
  · exact bounded s (by simp [behind])

end Prepared

/-- The addresses whose translation has to survive, with that translation. -/
inductive Promised (segments : List Segment) (base : Word) : Word → Word → Prop where
  | original (s : Segment) (x : Word) (member : s ∈ segments) (covers : s.Covers x)
      (outside : ¬ (base ≤ x ∧ x < ramdiskEnd)) : Promised segments base x (s.translate x)
  | carveout (x : Word) (inside : base ≤ x ∧ x < ramdiskEnd) : Promised segments base x x
  | mirror (alt x : Word) (member : alt ∈ altBases) (lower : alt ≤ x)
      (upper : x < alt + codeTrampolineSize) : Promised segments base x (base + (x - alt))

theorem carveout_translate (base x : Word) : (carveout base).segment.translate x = x := by
  simp only [carveout, Phdr.segment, Segment.translate, BitVec.sub_add_cancel]

theorem mirror_translate (base alt x : Word) :
    (mirror base alt).segment.translate x = base + (x - alt) := by
  simp only [mirror, Phdr.segment, Segment.translate]
  exact BitVec.add_comm (x - alt) base

theorem trimmed_translate (base x : Word) (s : Segment) :
    (trimmed base s).translate x = s.translate x := by
  simp only [Segment.translate, trimmed_vaddr, trimmed_paddr]

theorem mirror_range (alt x : Word) (member : alt ∈ altBases) :
    (alt ≤ x ∧ x < alt + codeTrampolineSize) ↔
      (alt.toNat ≤ x.toNat ∧ x.toNat < alt.toNat + 0x100000) := by
  have low : ∀ alt ∈ altBases, alt.toNat < 0xF0000000 := by simp [altBases]
  have bound := low alt member
  have size : codeTrampolineSize.toNat = 0x100000 := rfl
  rw [BitVec.le_def, BitVec.lt_def, BitVec.toNat_add, size, Nat.mod_eq_of_lt (by omega)]

namespace Prepared

variable {segments : List Segment} {base : Word} {pre : List Segment} {previous : Segment}
  {post : List Segment}

/-- The promise for an address of an original range, by the new segment it is in. -/
theorem original_owned (prepared : Prepared segments base pre previous post) (s : Segment)
    (x : Word) (member : s ∈ segments) (covers : s.Covers x)
    (outside : ¬ (base ≤ x ∧ x < ramdiskEnd)) :
    ∃ owner ∈ mapped base pre previous post,
      owner.Covers x ∧ owner.translate x = s.translate x := by
  have parts := prepared.previous_covers_iff x
  have notCarved : ¬ (carveout base).segment.Covers x := by
    rw [prepared.carveout_covers_iff]
    exact outside
  rw [prepared.segments_eq, List.mem_append, List.mem_cons] at member
  rcases member with before | same | behind
  · exact ⟨s, by simp [mapped, before], covers, rfl⟩
  · subst same
    exact ⟨trimmed base s, by simp [mapped], (parts.mp covers).resolve_right notCarved,
      trimmed_translate base x s⟩
  · exact ⟨s, by simp [mapped, behind], covers, rfl⟩

/-- The new segments only cover what is promised. -/
theorem owned_promised (prepared : Prepared segments base pre previous post) (owner : Segment)
    (x : Word) (member : owner ∈ mapped base pre previous post) (covers : owner.Covers x) :
    Promised segments base x (owner.translate x) := by
  have parts := prepared.previous_covers_iff x
  have apart := prepared.disjoint
  rw [prepared.segments_eq, List.pairwise_append, List.pairwise_cons] at apart
  obtain ⟨_, ⟨previousApart, _⟩, across⟩ := apart
  have carved : base ≤ x ∧ x < ramdiskEnd → (carveout base).segment.Covers x :=
    (prepared.carveout_covers_iff x).mpr
  have inPrevious : base ≤ x ∧ x < ramdiskEnd → previous.Covers x :=
    fun inside => parts.mpr (Or.inr (carved inside))
  simp only [mapped, List.mem_append, List.mem_cons] at member
  rcases member with before | same | same | mirrored | behind
  · exact .original owner x (by simp [prepared.segments_eq, before]) covers
      fun inside => across owner before previous (by simp) x ⟨covers, inPrevious inside⟩
  · subst same
    rw [trimmed_translate]
    exact .original previous x (by simp [prepared.segments_eq]) (parts.mpr (Or.inl covers))
      fun inside => prepared.trimmed_disjoint x ⟨covers, carved inside⟩
  · subst same
    rw [carveout_translate]
    exact .carveout x ((prepared.carveout_covers_iff x).mp covers)
  · simp only [mirrors, List.mem_map] at mirrored
    obtain ⟨alt, listed, same⟩ := mirrored
    subst same
    rw [mirror_translate]
    have range := (mirror_range alt x listed).mpr ((mirror_covers_iff base alt x).mp covers)
    exact .mirror alt x listed range.1 range.2
  · exact .original owner x (by simp [prepared.segments_eq, behind]) covers
      fun inside => previousApart owner behind x ⟨inPrevious inside, covers⟩

/-- A promise is the translation by the one new segment that covers the address. -/
theorem promised_iff (prepared : Prepared segments base pre previous post) (x y : Word) :
    Promised segments base x y ↔
      ∃ owner ∈ mapped base pre previous post, owner.Covers x ∧ owner.translate x = y := by
  constructor
  · rintro (⟨s, _, member, covers, outside⟩ | ⟨_, inside⟩ | ⟨alt, _, member, lower, upper⟩)
    · exact prepared.original_owned s x member covers outside
    · exact ⟨(carveout base).segment, by simp [mapped],
        (prepared.carveout_covers_iff x).mpr inside, carveout_translate base x⟩
    · have listed : (mirror base alt).segment ∈ mirrors base := List.mem_map_of_mem member
      exact ⟨(mirror base alt).segment, by simp [mapped, listed],
        (mirror_covers_iff base alt x).mpr ((mirror_range alt x member).mp ⟨lower, upper⟩),
        mirror_translate base alt x⟩
  · rintro ⟨owner, member, covers, rfl⟩
    exact prepared.owned_promised owner x member covers

end Prepared

/-- `init_phdrs` keeps every promised translation exactly when no address of a new
segment is the inclusive end of a segment that the lookup tries earlier. -/
theorem initPhdrs_translation_iff (img : Image) (m : Mem) (base : Word) (pre : List Segment)
    (previous : Segment) (post : List Segment) (holds : img.At m) (room : img.Room 7)
    (prepared : Prepared img.segments base pre previous post) :
    (∀ x y, Promised img.segments base x y → iosElfVaddrToPaddr (initPhdrs base m) x = y) ↔
      Clear (mapped base pre previous post) := by
  obtain ⟨img', holds', segments', _⟩ := prepared.initPhdrs_stands ⟨img, holds, rfl, room⟩
  rw [← firstMatch_correct_iff _ prepared.mapped_bounded prepared.mapped_disjoint]
  simp only [holds'.translate, segments', prepared.promised_iff]
  constructor
  · intro correct owner member x covers
    exact correct x _ ⟨owner, member, covers, rfl⟩
  · rintro correct x y ⟨owner, member, covers, rfl⟩
    exact correct owner member x covers

/-- Consecutive entries, the first with index `i`. -/
def writeTable (m : Mem) (i : Nat) : List Phdr → Mem
  | [] => m
  | ph :: rest => writeTable (writePhdr m (phdrAddress i) ph) (i + 1) rest

theorem writeTable_before (m : Mem) (i j : Nat) (table : List Phdr) (before : j < i)
    (bound : 32 * (i + table.length) ≤ 2 ^ 32) :
    phdrAt (writeTable m i table) j = phdrAt m j := by
  induction table generalizing m i with
  | nil => rfl
  | cons ph rest ih =>
      simp only [List.length_cons] at bound
      rw [writeTable, ih _ (i + 1) (by omega) (by omega),
        writePhdr_other m i j ph (by omega) (by omega) (by omega)]

theorem writeTable_entry (m : Mem) (i : Nat) (table : List Phdr)
    (bound : 32 * (i + table.length) ≤ 2 ^ 32) (j : Nat) (inside : j < table.length) :
    phdrAt (writeTable m i table) (i + j) = table[j] := by
  induction table generalizing m i j with
  | nil => exact absurd inside (Nat.not_lt_zero j)
  | cons ph rest ih =>
      simp only [List.length_cons] at bound inside
      cases j with
      | zero =>
          rw [writeTable, writeTable_before _ (i + 1) (i + 0) rest (by omega) (by omega),
            Nat.add_zero, writePhdr_entry, List.getElem_cons_zero]
      | succ j =>
          rw [writeTable, show i + (j + 1) = i + 1 + j by omega,
            ih _ (i + 1) (by omega) j (by omega), List.getElem_cons_succ]

/-- A table with the ramdisk, mapped to itself, and the code of `BSP`. -/
def bspImage : Image where
  self := ⟨6, 0x34, phdrs, phdrs, 0xA0, 0xA0, 4, 4⟩
  notes := ⟨4, 0xD4, 0x1D0000A0, 0x1D0000A0, 0, 0, 4, 4⟩
  elfinfo := ⟨1, 0, phdrs, phdrs, 0xA0, 0x3000, 4, 4⟩
  rest := [⟨1, 0, 0x20000000, 0x20000000, 0, 0x08000000, 7, 4⟩,
    ⟨1, 0x1000, 0xE6000000, 0x13CC0000, 0x40000, 0x40000, 7, 4⟩]
  noteBytes := []

def bspMem : Mem := writeTable (fun _ => 0#8) 0 bspImage.headers

abbrev bspBase : Word := 0x27B00000#32

theorem bspImage_at : bspImage.At bspMem where
  entry i inside := by
    have entry := writeTable_entry (fun _ => 0#8) 0 bspImage.headers (by decide) i inside
    rwa [Nat.zero_add] at entry
  count := by decide
  behind := by decide
  notesSize := by decide
  note i inside := absurd inside (Nat.not_lt_zero i)

theorem bspImage_prepared :
    Prepared bspImage.segments bspBase [⟨phdrs, phdrs, 0x3000⟩]
      ⟨0x20000000, 0x20000000, 0x08000000⟩ [⟨0xE6000000, 0x13CC0000, 0x40000⟩] where
  segments_eq := by decide
  disjoint := by
    have ordered : bspImage.segments.Pairwise Ordered := by decide
    exact ordered.imp Ordered.disjoint
  bounded := by
    simp [bspImage, Image.segments, Image.entries, Phdr.segment, Segment.Bounded]
  passed := by decide
  stopped := by simp
  starts := by decide
  ends := by decide
  carved := by decide
  free := by
    have ordered : ∀ s ∈ bspImage.segments, ∀ alt ∈ altBases,
        Ordered s (mirror bspBase alt).segment := by
      simp [bspImage, Image.segments, Image.entries, Phdr.segment, altBases, mirror, Ordered]
    exact fun s member alt listed => (ordered s member alt listed).disjoint

theorem initPhdrs_translation_iff_bsp :
    (∀ x y, Promised bspImage.segments bspBase x y →
        iosElfVaddrToPaddr (initPhdrs bspBase bspMem) x = y) ↔
      Clear (mapped bspBase [⟨phdrs, phdrs, 0x3000⟩] ⟨0x20000000, 0x20000000, 0x08000000⟩
        [⟨0xE6000000, 0x13CC0000, 0x40000⟩]) :=
  initPhdrs_translation_iff bspImage bspMem bspBase _ _ _ bspImage_at (by decide) bspImage_prepared

/-- The first address of `BSP` is translated by the mirror that ends there. -/
theorem initPhdrs_intercepts_bsp :
    bspImage.At bspMem ∧ bspImage.Room 7 ∧
      Prepared bspImage.segments bspBase [⟨phdrs, phdrs, 0x3000⟩]
        ⟨0x20000000, 0x20000000, 0x08000000⟩ [⟨0xE6000000, 0x13CC0000, 0x40000⟩] ∧
      Promised bspImage.segments bspBase 0xE6000000 0x13CC0000 ∧
      iosElfVaddrToPaddr (initPhdrs bspBase bspMem) 0xE6000000 = 0x27C00000 := by
  have room : bspImage.Room 7 := by decide
  refine ⟨bspImage_at, room, bspImage_prepared, ?_, ?_⟩
  · exact .original ⟨0xE6000000, 0x13CC0000, 0x40000⟩ _ (by decide) (by decide) (by decide)
  · obtain ⟨img, holds, segments, _⟩ :=
      bspImage_prepared.initPhdrs_stands ⟨bspImage, bspImage_at, rfl, room⟩
    rw [holds.translate, segments]
    decide

end Stroopwafel.IosElf
