import Stroopwafel.AncastEdits

set_option autoImplicit false

namespace Stroopwafel.Anpack

open Memory ByteFile StructPack Cbc

theorem laid_from {k dataOffset j : Nat} {phdrs : List Phdr} {q : Phdr}
    (laid : Laid k dataOffset phdrs) (held : phdrs[j]? = some q) (plain : special (k + j) = false) :
    dataOffset ≤ q.offset := by
  induction phdrs generalizing k dataOffset j with
  | nil => cases held
  | cons p rest ih =>
      obtain ⟨place, laid⟩ := laid
      cases j with
      | zero =>
          cases held
          exact Nat.le_of_eq (place plain).symm
      | succ j =>
          rw [show k + (j + 1) = k + 1 + j by omega] at plain
          exact Nat.le_trans (Nat.le_add_right _ _) (ih laid held plain)

/-- The content of a header ends where that of a later one starts, or in front of it. -/
theorem laid_order {k dataOffset i j : Nat} {phdrs : List Phdr} {p q : Phdr}
    (laid : Laid k dataOffset phdrs) (less : i < j) (held : phdrs[i]? = some p)
    (held' : phdrs[j]? = some q) (plain : special (k + i) = false)
    (plain' : special (k + j) = false) : p.offset + p.content.length ≤ q.offset := by
  induction phdrs generalizing k dataOffset i j with
  | nil => cases held
  | cons first rest ih =>
      obtain ⟨place, laid⟩ := laid
      obtain ⟨j, rfl⟩ : ∃ m, j = m + 1 := ⟨j - 1, by omega⟩
      rw [show k + (j + 1) = k + 1 + j by omega] at plain'
      cases i with
      | zero =>
          cases held
          have behind := laid_from laid held' plain'
          rw [Nat.add_zero] at plain
          rw [plain] at behind
          rw [place plain]
          exact behind
      | succ i =>
          rw [show k + (i + 1) = k + 1 + i by omega] at plain
          exact ih laid (by omega) held held' plain plain'

/-- The first three headers, as the image has them and as they are read -/
structure Stays (k : Nat) (p q : Phdr) : Prop where
  type : q.type = p.type
  flags : q.flags = p.flags
  align : q.align = p.align
  vaddr : k ≠ 1 → q.vaddr = p.vaddr
  paddr : k ≠ 1 → q.paddr = p.paddr

/-- The headers that are read, when the tool has held `held`. A size that the tool has made larger
than the content (as `elf_proc` does) reads more than the content. -/
structure Rereads (held read : List Phdr) : Prop where
  count : read.length = held.length
  same : ∀ i p q, held[i]? = some p → read[i]? = some q → Same i p q
  disjoint : ∀ i j p q q', i < j → special i = false → special j = false → held[i]? = some p →
    p.filesz ≤ p.content.length → read[i]? = some q → read[j]? = some q' →
    q.offset + q.filesz ≤ q'.offset
  cut : ∀ i p q, special i = false → held[i]? = some p → read[i]? = some q →
    p.filesz ≤ p.content.length → q.content = p.content.take p.filesz
  extended : ∀ i p q, special i = false → held[i]? = some p → read[i]? = some q →
    p.content.length ≤ p.filesz → p.content <+: q.content

section RoundTrip

variable {Key : Type} (aes : Key → BlockCipher Byte 16) (sha1 : Incremental Byte)
variable (bytes : sha1.Digest → Vector Byte 20)

theorem elf_write_sound {fw : Ancast} {k offset : Nat} {file file' : File Byte} {phdrs : List Phdr}
    (headed : Headed fw k) (room : 52 ≤ fw.elf.hdr.phoff) (wide : 32 ≤ fw.elf.hdr.phentsize)
    (wrote : fw.elf.write file offset = some (phdrs, file')) :
    Sound fw.elf.hdr phdrs ∧ phdrs.length = fw.elf.phdrs.length ∧
      ∀ j p q, fw.elf.phdrs[j]? = some p → phdrs[j]? = some q → Written j p q := by
  obtain ⟨packs, length, laid, written, _⟩ := elf_write offset wrote
  refine ⟨⟨headed.ident, room, wide, packs, length.trans fw.elf.count, laid, ?_⟩, length, written⟩
  intro q member
  obtain ⟨j, held⟩ := List.getElem?_of_mem member
  obtain ⟨inside, _⟩ := List.getElem?_eq_some_iff.mp held
  rw [length] at inside
  exact (written j _ q (List.getElem?_eq_getElem inside) held).packs

/-- What `write` has written is read with the headers as it held them. -/
theorem ancast_reread {fw : Ancast} {k : Nat} {key : Key} {iv : List Byte} {phdrs : List Phdr}
    {file : File Byte} (headed : Headed fw k) (low : 0x1C4 ≤ fw.header.length)
    (room : 52 ≤ fw.elf.hdr.phoff) (wide : 32 ≤ fw.elf.hdr.phentsize)
    (noCrypto : fw.noCrypto = true)
    (wrote : fw.write aes sha1 bytes key iv true = some (phdrs, file))
    (digest : ∀ j, 0x1B0 ≤ 4 * j → 4 * j < 0x1C4 → wordAt file.content (4 * j) ≠ magic) :
    ∃ fw', Ancast.read file true = some fw' ∧ fw'.header.length = fw.header.length ∧
      (∀ i, ¬ Patched i → fw'.header[i]? = fw.header[i]?) ∧
      fw'.elf.phdrs = phdrs.map (reread file.content fw.header.length) ∧
      Sound fw.elf.hdr phdrs ∧ phdrs.length = fw.elf.phdrs.length ∧
      (∀ j p q, fw.elf.phdrs[j]? = some p → phdrs[j]? = some q → Written j p q) ∧
      ∀ w ∈ elfWrites fw.elf.hdr fw.header.length phdrs, Holds file.content w.1 w.2 := by
  obtain ⟨⟨between, elf⟩, n, stamp, content⟩ := ancast_write aes sha1 bytes noCrypto wrote
  obtain ⟨sound, length, written⟩ := elf_write_sound headed room wide elf
  have whole : file.content = finished fw phdrs n stamp := content
  rw [whole] at digest
  have first := finished_first sound n stamp headed low digest
  have stands := elf_stands sound n stamp low
  have header := header_stands sound n stamp
  rw [← whole] at first stands header
  obtain ⟨elf', read, hdr, phdrs'⟩ := elf_reread file.pos sound stands
  have offs := elfOffs_eq first
  have small := headed.small
  rw [headed.length] at read
  refine ⟨⟨(file.content.take 0x1000).take (4 * k), elf', true⟩, ?_, ?_, ?_, phdrs', sound, length,
    written, stands⟩
  · unfold Ancast.read
    have start : ((file.seek 0).read 0x1000).1 = file.content.take 0x1000 := by
      rw [read_data, File.rest, seek_pos, seek_content, List.drop_zero]
    rw [start]
    dsimp only
    rw [offs, read]
    rfl
  · have inside := magic_inside first.found
    rw [List.length_take, headed.length]
    omega
  · intro i kept
    dsimp only
    by_cases inside : i < 4 * k
    · rw [List.getElem?_take_of_lt inside, List.getElem?_take_of_lt (by omega)]
      exact header i (by rw [headed.length]; exact inside) kept
    · rw [List.getElem?_take_eq_none (by omega), List.getElem?_eq_none (by
        rw [headed.length]
        omega)]

theorem reread_rereads {hdr : Ehdr} {held phdrs : List Phdr} {content : List Byte} {offset : Nat}
    (sound : Sound hdr phdrs) (length : phdrs.length = held.length)
    (written : ∀ j p q, held[j]? = some p → phdrs[j]? = some q → Written j p q)
    (stands : ∀ w ∈ elfWrites hdr offset phdrs, Holds content w.1 w.2) :
    Rereads held (phdrs.map (reread content offset)) := by
  have back (i : Nat) (q : Phdr) (read : (phdrs.map (reread content offset))[i]? = some q) :
      ∃ r, phdrs[i]? = some r ∧ q = reread content offset r := by
    rw [List.getElem?_map, Option.map_eq_some_iff] at read
    obtain ⟨r, at_, same⟩ := read
    exact ⟨r, at_, same.symm⟩
  have holds (i : Nat) (r : Phdr) (at_ : phdrs[i]? = some r) (plain : special i = false) :
      Holds content (offset + r.offset) r.content := by
    have table := (phdrWrites_table hdr offset 0 at_).2
    rw [Nat.zero_add] at table
    exact stands (offset + r.offset, r.content)
      (List.mem_cons_of_mem _ (List.mem_cons_of_mem _ (table plain)))
  refine ⟨?_, ?_, ?_, ?_, ?_⟩
  · rw [List.length_map, length]
  · intro i p q at_ read
    obtain ⟨r, wrote, rfl⟩ := back i q read
    have kept := (written i p r at_ wrote).toSame
    exact ⟨kept.type, kept.flags, kept.align, kept.memsz, kept.filesz, kept.vaddr, kept.paddr⟩
  · intro i j p q q' less plain plain' at_ small read read'
    obtain ⟨r, wrote, rfl⟩ := back i q read
    obtain ⟨r', wrote', rfl⟩ := back j q' read'
    have kept := written i p r at_ wrote
    have order := laid_order sound.laid less wrote wrote' (by rw [Nat.zero_add]; exact plain)
      (by rw [Nat.zero_add]; exact plain')
    rw [← kept.filesz plain, ← kept.content] at small
    exact Nat.le_trans (Nat.add_le_add_left small _) order
  · intro i p q plain at_ read small
    obtain ⟨r, wrote, rfl⟩ := back i q read
    have kept := written i p r at_ wrote
    have stood := (holds i r wrote plain).take r.filesz (by
      rw [kept.filesz plain, kept.content]
      exact small)
    rw [kept.filesz plain, kept.content] at stood
    rw [← kept.filesz plain] at stood ⊢
    exact stood
  · intro i p q plain at_ read large
    obtain ⟨r, wrote, rfl⟩ := back i q read
    have kept := written i p r at_ wrote
    rw [← kept.filesz plain, ← kept.content] at large
    rw [← kept.content]
    exact (holds i r wrote plain).of_take r.filesz large

theorem Headed.edits {fw : Ancast} {k : Nat} {edits : List Edit} (headed : Headed fw k)
    (kept : Kept fw.elf (fw.edits edits).elf) : Headed (fw.edits edits) k := by
  refine ⟨headed.small, headed.length, ?_, ?_, headed.first⟩
  · rw [kept.hdr]
    exact headed.ident
  · rw [kept.hdr]
    exact headed.found

/-- The file that is written without encryption after the edits reads as what the tool has held. -/
theorem written_rereads {image : File Byte} {fw : Ancast}
    (parsed : Ancast.read image true = some fw) (low : 0x1C4 ≤ fw.header.length)
    (room : 52 ≤ fw.elf.hdr.phoff) (wide : 32 ≤ fw.elf.hdr.phentsize) (edits : List Edit)
    (behind : AllBehind fw.elf edits)
    {key : Key} {iv : List Byte} {phdrs : List Phdr} {file : File Byte}
    (wrote : (fw.edits edits).write aes sha1 bytes key iv true = some (phdrs, file))
    (digest : ∀ j, 0x1B0 ≤ 4 * j → 4 * j < 0x1C4 → (file.content.drop (4 * j)).take 4 ≠ magic) :
    ∃ fw', Ancast.read file true = some fw' ∧ fw'.header.length = fw.header.length ∧
      (∀ i, ¬ Patched i → fw'.header[i]? = fw.header[i]?) ∧
      (∀ i < 3, ∀ p, fw.elf.phdrs[i]? = some p →
        ∃ q, fw'.elf.phdrs[i]? = some q ∧ Stays i p q) ∧
      Rereads (fw.edits edits).elf.phdrs fw'.elf.phdrs := by
  have kept : Kept fw.elf (fw.edits edits).elf := edits_kept fw.elf edits behind
  obtain ⟨k, headed⟩ := read_headed parsed (by
    intro none
    rw [none] at low
    cases low)
  obtain ⟨fw', read, size, header, phdrs', sound, length, written, stands⟩ :=
    ancast_reread aes sha1 bytes (headed.edits kept) low (by rw [kept.hdr]; exact room)
      (by rw [kept.hdr]; exact wide) (ancast_read parsed).2.2 wrote digest
  have rereads := reread_rereads sound length written stands
  rw [← phdrs'] at rereads
  refine ⟨fw', read, size, header, ?_, rereads⟩
  intro i small p at_
  obtain ⟨q, held, alike⟩ := kept.first i small p at_
  have inside := (List.getElem?_eq_some_iff.mp held).1
  rw [← rereads.count] at inside
  have there := List.getElem?_eq_getElem inside
  have same := rereads.same i q _ held there
  refine ⟨_, there, ?_⟩
  exact ⟨same.type.trans alike.type, same.flags.trans alike.flags, same.align.trans alike.align,
    fun other => (same.vaddr other).trans alike.vaddr,
    fun other => (same.paddr other).trans alike.paddr⟩

end RoundTrip

section Sample

def sampleHdr : Ehdr :=
  ⟨magic ++ List.replicate 12 0#8, 2, 40, 1, 0, 52, 0, 0, 52, 32, 5, 0, 0, 0⟩

def samplePhdrs : List Phdr :=
  [⟨6, 52, 0x05000000, 0x05000000, 160, 160, 4, 4, []⟩,
    ⟨4, 212, 0x05000100, 0x05000100, 4, 4, 4, 4, [1#8, 2#8, 3#8, 4#8]⟩,
    ⟨1, 52, 0x05000000, 0x05000000, 164, 0x1000, 4, 4, []⟩,
    ⟨1, 216, 0x05100000, 0x05100000, 4, 0x500000, 5, 4, [5#8, 6#8, 7#8, 8#8]⟩,
    ⟨1, 220, 0x08000000, 0x08000000, 4, 4, 7, 4, [9#8, 10#8, 11#8, 12#8]⟩]

def sampleElf : List Byte :=
  sampleHdr.ident ++ packedEhdr sampleHdr ++ samplePhdrs.flatMap packedPhdr ++
    samplePhdrs.flatMap Phdr.content

/-- A header of zeros with an ELF file of five headers behind it -/
def sampleImage : File Byte := ⟨List.replicate 0x200 0#8 ++ sampleElf, 0⟩

/-- The headers 0 and 2 read what is at their place. -/
def sampleFw : Ancast :=
  ⟨List.replicate 0x200 0#8, ⟨sampleHdr, samplePhdrs.map (reread sampleElf 0), rfl⟩, true⟩

/-- A stroopwafel of one byte -/
def sampleEdits : List Edit := [.elfProc 0x07000000 [0xAA#8]]

/-- SHA-1 of the ELF file that is written, with its zeros -/
def sampleDigest : Vector Byte 20 :=
  #v[0xFF#8, 0x59#8, 0xFE#8, 0x12#8, 0x7D#8, 0xFB#8, 0x94#8, 0x05#8, 0x5C#8, 0x4A#8, 0xAD#8,
    0x86#8, 0x0A#8, 0x83#8, 0xB4#8, 0x0A#8, 0x18#8, 0x27#8, 0x80#8, 0x90#8]

def sampleSha1 : Incremental Byte where
  State := List Byte
  Digest := Vector Byte 20
  init := []
  update s data := s ++ data
  digest _ := sampleDigest
  update_nil := List.append_nil
  update_append := sha1Sample.update_append

theorem sample_first : First (sampleImage.content.take 0x1000) 0x80 := by
  refine ⟨by decide, ?_, ?_⟩
  · decide +kernel
  · intro j less found
    rw [wordAt_take (by omega)] at found
    have byte := wordAt_byte sampleImage.content (4 * j) 0 (by decide)
    have zero : sampleImage.content[4 * j + 0]? = some 0#8 := by
      unfold sampleImage
      rw [List.getElem?_append_left (by rw [List.length_replicate]; omega),
        List.getElem?_replicate_of_lt (by omega)]
    rw [found, zero] at byte
    cases byte

theorem sample_parsed : Ancast.read sampleImage true = some sampleFw := by
  have first : Ehdr.read sampleImage 0x200 = some sampleHdr := by decide +kernel
  have mapped : (List.range 5).mapM (Phdr.read sampleImage 0x200 sampleHdr) =
      some (samplePhdrs.map (reread sampleElf 0)) := by decide +kernel
  obtain ⟨⟨hdr, phdrs, count⟩, read, rfl, rfl⟩ := elf_read first mapped
  unfold Ancast.read
  have start : ((sampleImage.seek 0).read 0x1000).1 = sampleImage.content.take 0x1000 := by
    rw [read_data, File.rest, seek_pos, seek_content, List.drop_zero]
  rw [start]
  dsimp only
  have header : (sampleImage.content.take 0x1000).take (4 * 0x80) = List.replicate 0x200 0#8 := by
    unfold sampleImage
    have size : (List.replicate 0x200 (0#8 : Byte)).length = 4 * 0x80 := List.length_replicate
    rw [List.take_take, show min (4 * 0x80) 0x1000 = 4 * 0x80 from rfl, ← size, List.take_left]
  rw [elfOffs_eq sample_first, header, read]
  rfl

theorem sample_size : sampleFw.header.length = 0x200 := List.length_replicate

theorem sample_behind : AllBehind sampleFw.elf sampleEdits :=
  ⟨show 3 ≤ phdrNum sampleFw.elf.phdrs 0x07000000 by decide +kernel, trivial⟩

def sampleWritten : List Phdr × File Byte :=
  ((sampleFw.edits sampleEdits).elf.write ⟨sampleFw.header, sampleFw.header.length⟩
    sampleFw.header.length).get (by decide +kernel)

theorem sample_elf :
    (sampleFw.edits sampleEdits).elf.write ⟨sampleFw.header, sampleFw.header.length⟩
      sampleFw.header.length = some sampleWritten := by
  unfold sampleWritten
  rw [Option.some_get]

/-- The sample is written, and no word of the digest is the magic word. -/
theorem sample_wrote :
    ∃ file, (sampleFw.edits sampleEdits).write zeroAes sampleSha1 id () zeroBlock true =
        some (sampleWritten.1, file) ∧
      ∀ j, 0x1B0 ≤ 4 * j → 4 * j < 0x1C4 → (file.content.drop (4 * j)).take 4 ≠ magic := by
  have elf : (sampleFw.edits sampleEdits).elf.write ⟨sampleFw.header, sampleFw.header.length⟩
      sampleFw.header.length = some (sampleWritten.1, sampleWritten.2) :=
    sample_elf.trans (congrArg some (Prod.eta sampleWritten).symm)
  generalize sampleWritten.2 = between at elf
  obtain ⟨_, _, _, _, content⟩ := elf_write sampleFw.header.length elf
  have small : between.content.length ≤ 0x1000 := by
    rw [content, sample_size]
    refine writeAll_bound _ _ (Nat.le_trans (Nat.le_of_eq sample_size) (by decide)) ?_
    decide +kernel
  obtain ⟨total, packs⟩ := pack_fits 4
    (show 0 ≤ ((between.content.length : Int) - 0x200 + 0xFFF) / 0x1000 * 0x1000 by omega)
    (by omega)
  obtain ⟨file, n, stamp, body, wrote, digest, whole⟩ :=
    ancast_writes zeroAes sampleSha1 id () rfl (by decide : zeroBlock.length = 16) elf packs
  refine ⟨file, wrote, ?_⟩
  intro j lower upper found
  have stands := stamp_stands (sampleFw.edits sampleEdits) sampleWritten.1 n stamp
    (0x1B0, stamp.digest) (List.mem_cons_of_mem _ (List.mem_cons_of_mem _ List.mem_cons_self))
  obtain ⟨m, rfl⟩ : ∃ m, j = 0x6C + m := ⟨j - 0x6C, by omega⟩
  have byte := wordAt_byte file.content (4 * (0x6C + m)) 0 (by decide)
  have there := stands (4 * m) (by rw [stamp.digest_length]; omega)
  have whole' : finished (sampleFw.edits sampleEdits) sampleWritten.1 n stamp = file.content :=
    whole.symm
  have fixed : stamp.digest = sampleDigest.toList := digest
  rw [show wordAt file.content (4 * (0x6C + m)) = magic from found] at byte
  rw [whole', fixed] at there
  dsimp only at there
  rw [show 4 * (0x6C + m) + 0 = 0x1B0 + 4 * m by omega, there] at byte
  have other : ∀ m < 5, sampleDigest.toList[4 * m]? ≠ some 0x7F#8 := by decide
  exact other m (by omega) byte.symm

theorem sample_places :
    sampleWritten.1[4]?.map (fun p => (p.offset, p.filesz)) = some (316, 0x400000) ∧
    sampleWritten.1[7]?.map (fun p => (p.offset, p.filesz)) = some (317, 4) := by
  decide +kernel

/-- The ranges of two headers overlap behind `elf_proc`. -/
theorem carveout_overlaps :
    ∃ fw phdrs file fw', Ancast.read sampleImage true = some fw ∧
      (fw.edits sampleEdits).write zeroAes sampleSha1 id () zeroBlock true = some (phdrs, file) ∧
      Ancast.read file true = some fw' ∧
      ∃ p q, fw'.elf.phdrs[4]? = some p ∧ fw'.elf.phdrs[7]? = some q ∧ 0 < q.filesz ∧
        p.offset ≤ q.offset ∧ q.offset + q.filesz ≤ p.offset + p.filesz := by
  obtain ⟨file, wrote, digest⟩ := sample_wrote
  obtain ⟨k, headed⟩ := read_headed sample_parsed (by
    intro none
    have size := sample_size
    rw [none] at size
    cases size)
  have kept : Kept sampleFw.elf (sampleFw.edits sampleEdits).elf :=
    edits_kept sampleFw.elf sampleEdits sample_behind
  obtain ⟨fw', read, _, _, phdrs', _⟩ := ancast_reread zeroAes sampleSha1 id (headed.edits kept)
    (by rw [show (sampleFw.edits sampleEdits).header.length = 0x200 from sample_size]; decide)
    (by decide) (by decide) rfl wrote digest
  refine ⟨sampleFw, sampleWritten.1, file, fw', sample_parsed, wrote, read, ?_⟩
  obtain ⟨first, second⟩ := sample_places
  obtain ⟨p, held, place⟩ := Option.map_eq_some_iff.mp first
  obtain ⟨q, held', place'⟩ := Option.map_eq_some_iff.mp second
  generalize (sampleFw.edits sampleEdits).header.length = offset at phdrs'
  refine ⟨reread file.content offset p, reread file.content offset q, ?_, ?_, ?_⟩
  · rw [phdrs', List.getElem?_map, held]
    rfl
  · rw [phdrs', List.getElem?_map, held']
    rfl
  · obtain ⟨start, size⟩ := Prod.mk.inj place
    obtain ⟨start', size'⟩ := Prod.mk.inj place'
    unfold reread
    dsimp only
    omega

theorem written_rereads_sample :
    ∃ fw phdrs file fw', Ancast.read sampleImage true = some fw ∧
      (fw.edits sampleEdits).write zeroAes sampleSha1 id () zeroBlock true = some (phdrs, file) ∧
      Ancast.read file true = some fw' ∧
        Rereads (fw.edits sampleEdits).elf.phdrs fw'.elf.phdrs := by
  obtain ⟨file, wrote, digest⟩ := sample_wrote
  obtain ⟨fw', read, _, _, _, rereads⟩ := written_rereads zeroAes sampleSha1 id sample_parsed
    (by rw [sample_size]; decide) (by decide) (by decide) sampleEdits sample_behind wrote digest
  exact ⟨sampleFw, sampleWritten.1, file, fw', sample_parsed, wrote, read, rereads⟩

end Sample

end Stroopwafel.Anpack
