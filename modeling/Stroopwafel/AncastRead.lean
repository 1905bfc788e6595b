import Stroopwafel.AncastWrite

set_option autoImplicit false

namespace Stroopwafel.Anpack

open Memory ByteFile StructPack

section Parse

variable {content : List Byte} {offset : Nat} (pos : Nat)

/-- What the fields read as, when the bytes of `pack` stand there. -/
theorem readAll_holds {sizes : List Nat} {values : List Int} {data : List Byte}
    (packed : pack sizes values = some data) (holds : Holds content offset data) :
    (∃ after, readAll sizes ⟨content, offset⟩ = some (values.map Int.toNat, after)) ∧
      ∀ n ∈ values, 0 ≤ n := by
  obtain ⟨tail, split⟩ := holds.drop
  obtain ⟨numbers, after, read, equal⟩ := readAll_pack packed ⟨content, offset⟩ tail split
  constructor
  · refine ⟨after, ?_⟩
    rw [read, ← equal, List.map_map, show Int.toNat ∘ Int.ofNat = id from rfl, List.map_id]
  · rw [← equal]
    intro n member
    obtain ⟨k, _, rfl⟩ := List.mem_map.mp member
    exact Int.natCast_nonneg k

theorem ehdr_read {hdr : Ehdr} (ident : hdr.ident.length = 16)
    (packs : ∃ data, pack ehdrSizes hdr.fields = some data) (first : Holds content offset hdr.ident)
    (second : Holds content (offset + 16) (packedEhdr hdr)) :
    Ehdr.read ⟨content, pos⟩ offset = some hdr := by
  obtain ⟨data, packs⟩ := packs
  unfold packedEhdr at second
  rw [packs] at second
  obtain ⟨⟨after, read⟩, _⟩ := readAll_holds packs second
  have data : (content.drop offset).take 16 = hdr.ident := by
    rw [first.take 16 (Nat.le_of_eq ident.symm), List.take_of_length_le (Nat.le_of_eq ident)]
  unfold Ehdr.read File.read File.seek
  dsimp only
  rw [data, ident, read]
  rfl

/-- The header as it reads back from `content` -/
def reread (content : List Byte) (offset : Nat) (p : Phdr) : Phdr :=
  { p with content := (content.drop (offset + p.offset)).take p.filesz }

theorem phdr_read {hdr : Ehdr} {p : Phdr} {k : Nat}
    (packs : ∃ data, pack phdrSizes p.fields = some data)
    (holds : Holds content (phdrOffset hdr offset k) (packedPhdr p)) :
    Phdr.read ⟨content, pos⟩ offset hdr k = some (reread content offset p) := by
  obtain ⟨data, packs⟩ := packs
  unfold packedPhdr at holds
  rw [packs] at holds
  obtain ⟨⟨after, read⟩, positive⟩ := readAll_holds packs holds
  have memsz : ((p.memsz.toNat : Nat) : Int) = p.memsz :=
    Int.toNat_of_nonneg (positive p.memsz (by
      unfold Phdr.fields
      simp only [List.mem_cons, true_or, or_true]))
  unfold Phdr.read File.seek
  unfold phdrOffset at read
  dsimp only
  rw [read]
  unfold reread Phdr.fields
  simp only [Option.bind_eq_bind, Option.bind_some, List.map_cons, List.map_nil, Int.toNat_natCast,
    memsz]
  rfl

theorem mapM_eq_some {α β : Type} (f : α → Option β) (xs : List α) (ys : List β)
    (length : ys.length = xs.length)
    (each : ∀ (i : Nat) (x : α) (y : β), xs[i]? = some x → ys[i]? = some y → f x = some y) :
    xs.mapM f = some ys := by
  induction xs generalizing ys with
  | nil =>
      rw [List.eq_nil_of_length_eq_zero length]
      rfl
  | cons x xs ih =>
      cases ys with
      | nil => cases length
      | cons y ys =>
          have rest := ih ys (Nat.succ.inj length) fun i x' y' at_ at_' =>
            each (i + 1) x' y' at_ at_'
          rw [List.mapM_cons, each 0 x y rfl rfl, Option.bind_eq_bind, Option.bind_some, rest]
          rfl

theorem elf_read {file : File Byte} {hdr : Ehdr} {phdrs : List Phdr}
    (first : Ehdr.read file offset = some hdr)
    (mapped : (List.range hdr.phnum).mapM (Phdr.read file offset hdr) = some phdrs) :
    ∃ elf, Elf.read file offset = some elf ∧ elf.hdr = hdr ∧ elf.phdrs = phdrs := by
  unfold Elf.read
  rw [first]
  dsimp only
  split
  · rename_i none
    rw [mapped] at none
    cases none
  · rename_i phdrs' read
    rw [mapped] at read
    cases read
    exact ⟨_, rfl, rfl, rfl⟩

theorem phdrWrites_table (hdr : Ehdr) (offset k : Nat) {j : Nat} {phdrs : List Phdr} {p : Phdr}
    (held : phdrs[j]? = some p) :
    (phdrOffset hdr offset (k + j), packedPhdr p) ∈ phdrWrites hdr offset k phdrs ∧
      (special (k + j) = false →
        (offset + p.offset, p.content) ∈ phdrWrites hdr offset k phdrs) := by
  induction phdrs generalizing k j with
  | nil => cases held
  | cons first rest ih =>
      rw [phdrWrites]
      cases j with
      | zero =>
          cases held
          refine ⟨List.mem_cons_self, fun plain => List.mem_cons_of_mem _ ?_⟩
          rw [Nat.add_zero] at plain
          rw [plain]
          exact List.mem_append_left _ List.mem_cons_self
      | succ j =>
          have later := ih (k + 1) held
          rw [show k + (j + 1) = k + 1 + j by omega]
          exact ⟨List.mem_cons_of_mem _ (List.mem_append_right _ later.1), fun plain =>
            List.mem_cons_of_mem _ (List.mem_append_right _ (later.2 plain))⟩

/-- What stands as it was written reads as it was held. -/
theorem elf_reread {hdr : Ehdr} {phdrs : List Phdr} (sound : Sound hdr phdrs)
    (stands : ∀ w ∈ elfWrites hdr offset phdrs, Holds content w.1 w.2) :
    ∃ elf, Elf.read ⟨content, pos⟩ offset = some elf ∧ elf.hdr = hdr ∧
      elf.phdrs = phdrs.map (reread content offset) := by
  have first := stands _ List.mem_cons_self
  have second := stands _ (List.mem_cons_of_mem _ List.mem_cons_self)
  dsimp only at first second
  rw [sound.ident] at second
  apply elf_read (ehdr_read pos sound.ident sound.packs first second)
  apply mapM_eq_some
  · rw [List.length_map, List.length_range, sound.count]
  · intro i x y place at_
    obtain ⟨_, same⟩ := List.getElem?_eq_some_iff.mp place
    rw [List.getElem_range] at same
    subst same
    rw [List.getElem?_map, Option.map_eq_some_iff] at at_
    obtain ⟨p, held, rfl⟩ := at_
    have table := (phdrWrites_table hdr offset 0 held).1
    rw [Nat.zero_add] at table
    have holds := stands _ (List.mem_cons_of_mem _ (List.mem_cons_of_mem _ table))
    dsimp only at holds
    exact phdr_read pos (sound.phdrs p (List.mem_of_getElem? held)) holds

end Parse

section Offset

/-- The word at `i` -/
def wordAt (content : List Byte) (i : Nat) : List Byte := (content.drop i).take 4

theorem wordAt_byte (content : List Byte) (i j : Nat) (small : j < 4) :
    (wordAt content i)[j]? = content[i + j]? := by
  unfold wordAt
  rw [List.getElem?_take_of_lt small, List.getElem?_drop]

variable {content : List Byte} {i : Nat}

theorem wordAt_congr {other : List Byte} {i' : Nat}
    (same : ∀ j < 4, content[i + j]? = other[i' + j]?) : wordAt content i = wordAt other i' := by
  apply List.ext_getElem?
  intro j
  by_cases small : j < 4
  · rw [wordAt_byte _ _ j small, wordAt_byte _ _ j small, same j small]
  · unfold wordAt
    rw [List.getElem?_take_eq_none (by omega), List.getElem?_take_eq_none (by omega)]

theorem wordAt_take {n : Nat} (inside : i + 4 ≤ n) : wordAt (content.take n) i = wordAt content i :=
  wordAt_congr fun j small => List.getElem?_take_of_lt (by omega)

theorem Holds.wordAt {data : List Byte} (holds : Holds content i data) (enough : 4 ≤ data.length) :
    wordAt content i = data.take 4 := holds.take 4 enough

theorem magic_inside (found : wordAt content i = magic) : i + 4 ≤ content.length := by
  have last := wordAt_byte content i 3 (by decide)
  rw [found] at last
  obtain ⟨inside, _⟩ := List.getElem?_eq_some_iff.mp last.symm
  omega

/-- The magic word stands at `4 * k` and at no multiple of 4 in front of it. -/
structure First (content : List Byte) (k : Nat) : Prop where
  small : k < 0x400
  found : wordAt content (4 * k) = magic
  first : ∀ j < k, wordAt content (4 * j) ≠ magic

theorem elfOffs_eq {header : List Byte} {k : Nat} (first : First header k) :
    elfOffs header = 4 * k := by
  unfold elfOffs
  have at_ : (List.range 0x400).find? ((fun i => (header.drop i).take 4 == magic) ∘ (4 * ·)) =
      some k := by
    rw [List.find?_range_eq_some]
    refine ⟨beq_iff_eq.mpr first.found, List.mem_range.mpr first.small, ?_⟩
    intro j less
    rw [Bool.not_eq_true', Function.comp_apply, beq_eq_false_iff_ne]
    exact first.first j less
  rw [List.find?_map, at_]
  rfl

theorem elfOffs_first {header : List Byte} (behind : elfOffs header ≠ 0) :
    ∃ k, elfOffs header = 4 * k ∧ First header k := by
  unfold elfOffs at behind ⊢
  rw [List.find?_map] at behind ⊢
  cases found : (List.range 0x400).find? ((fun i => (header.drop i).take 4 == magic) ∘ (4 * ·)) with
  | none =>
      rw [found] at behind
      exact absurd rfl behind
  | some k =>
      obtain ⟨at_, member, first⟩ := List.find?_range_eq_some.mp found
      refine ⟨k, rfl, List.mem_range.mp member, beq_iff_eq.mp at_, ?_⟩
      intro j less
      have not := first j less
      rw [Bool.not_eq_true', Function.comp_apply, beq_eq_false_iff_ne] at not
      exact not

end Offset

/-- The ELF file starts with the magic word, which stands nowhere in the header. -/
structure Headed (fw : Ancast) (k : Nat) : Prop where
  small : k < 0x400
  length : fw.header.length = 4 * k
  ident : fw.elf.hdr.ident.length = 16
  found : fw.elf.hdr.ident.take 4 = magic
  first : ∀ j < k, wordAt fw.header (4 * j) ≠ magic

theorem ancast_read {file : File Byte} {noCrypto : Bool} {fw : Ancast}
    (read : Ancast.read file noCrypto = some fw) :
    Elf.read file (elfOffs (file.content.take 0x1000)) = some fw.elf ∧
      fw.header = (file.content.take 0x1000).take (elfOffs (file.content.take 0x1000)) ∧
      fw.noCrypto = noCrypto := by
  have start : ((file.seek 0).read 0x1000).1 = file.content.take 0x1000 := by
    rw [read_data, File.rest, seek_pos, seek_content, List.drop_zero]
  unfold Ancast.read at read
  rw [start] at read
  dsimp only at read
  generalize elfOffs (file.content.take 0x1000) = offs at read ⊢
  obtain ⟨elf, parsed, same⟩ := Option.bind_eq_some_iff.mp read
  cases same
  exact ⟨parsed, rfl, rfl⟩

theorem elf_read_hdr {file : File Byte} {offset : Nat} {elf : Elf}
    (read : Elf.read file offset = some elf) : Ehdr.read file offset = some elf.hdr := by
  unfold Elf.read at read
  split at read
  · cases read
  · rename_i hdr first
    split at read
    · cases read
    · cases read
      exact first

/-- The fields behind the identification are there, so all of it is. -/
theorem ehdr_read_ident {file : File Byte} {offset : Nat} {hdr : Ehdr}
    (read : Ehdr.read file offset = some hdr) :
    hdr.ident = (file.content.drop offset).take 16 ∧ hdr.ident.length = 16 := by
  unfold Ehdr.read at read
  obtain ⟨⟨fields, after⟩, all, read⟩ := Option.bind_eq_some_iff.mp read
  dsimp only at read
  split at read
  · cases read
    refine ⟨rfl, ?_⟩
    unfold ehdrSizes at all
    rw [readAll] at all
    obtain ⟨⟨first, rest⟩, one, _⟩ := Option.bind_eq_some_iff.mp all
    unfold readOne at one
    dsimp only at one
    split at one
    · rename_i enough
      rw [read_data, read_rest, List.length_take, List.length_drop] at enough
      rw [read_data, List.length_take]
      omega
    · cases one
  · cases read

theorem read_headed {image : File Byte} {noCrypto : Bool} {fw : Ancast}
    (read : Ancast.read image noCrypto = some fw) (behind : fw.header ≠ []) : ∃ k, Headed fw k := by
  obtain ⟨parsed, header, _⟩ := ancast_read read
  have some_ : elfOffs (image.content.take 0x1000) ≠ 0 := by
    intro none
    rw [none] at header
    exact behind header
  obtain ⟨k, offs, first⟩ := elfOffs_first some_
  rw [offs] at parsed header
  obtain ⟨ident, sixteen⟩ := ehdr_read_ident (elf_read_hdr parsed)
  have small := first.small
  have inside := magic_inside first.found
  refine ⟨k, small, ?_, sixteen, ?_, ?_⟩
  · rw [header, List.length_take]
    omega
  · rw [ident, List.take_take, ← first.found, wordAt_take (by omega)]
    rfl
  · intro j less
    rw [header, wordAt_take (by omega)]
    exact first.first j less

section Finished

theorem stamp_stands (fw : Ancast) (phdrs : List Phdr) (n : Nat) (stamp : Stamp)
    (w : Nat × List Byte) (member : w ∈ stamp.writes) :
    Holds (finished fw phdrs n stamp) w.1 w.2 := by
  have four := stamp.total_length
  refine writeAll_holds _ _ ?_ w member
  unfold Stamp.writes
  rw [List.pairwise_cons, List.pairwise_cons]
  unfold ByteFile.Apart
  refine ⟨?_, ?_, List.pairwise_singleton _ _⟩
  · intro w member
    left
    rcases List.mem_cons.mp member with rfl | member
    · exact (by decide : 0x1A0 + 2 ≤ 0x1AC)
    · rw [List.mem_singleton.mp member]
      exact (by decide : 0x1A0 + 2 ≤ 0x1B0)
  · intro w member
    left
    rw [List.mem_singleton.mp member]
    dsimp only
    omega

variable {fw : Ancast} {phdrs : List Phdr} (sound : Sound fw.elf.hdr phdrs) (n : Nat)
  (stamp : Stamp)
variable {k : Nat} (headed : Headed fw k) (low : 0x1C4 ≤ fw.header.length)
include sound headed low

/-- The ELF file is found where it was written, unless the digest looks like one. -/
theorem finished_first
    (digest : ∀ j, 0x1B0 ≤ 4 * j → 4 * j < 0x1C4 →
      wordAt (finished fw phdrs n stamp) (4 * j) ≠ magic) :
    First ((finished fw phdrs n stamp).take 0x1000) k := by
  have small := headed.small
  have length := headed.length
  refine ⟨small, ?_, ?_⟩
  · have stands := elf_stands sound n stamp low _ List.mem_cons_self
    dsimp only at stands
    rw [length] at stands
    rw [wordAt_take (by omega), Holds.wordAt stands (by rw [headed.ident]; decide), headed.found]
  · intro j less
    rw [wordAt_take (by omega)]
    by_cases inside : 0x1B0 ≤ 4 * j ∧ 4 * j < 0x1C4
    · exact digest j inside.1 inside.2
    · intro found
      by_cases version : 4 * j = 0x1A0
      · have zero := stamp_stands fw phdrs n stamp _ List.mem_cons_self 0
          (by decide)
        have byte := wordAt_byte (finished fw phdrs n stamp) (4 * j) 0 (by decide)
        rw [found, version, zero] at byte
        cases byte
      · by_cases total : 4 * j = 0x1AC
        · have member : (0x1AC, stamp.total) ∈ stamp.writes :=
            List.mem_cons_of_mem _ List.mem_cons_self
          have four := stamp.total_length
          have last := stamp_stands fw phdrs n stamp _ member 3 (by
            dsimp only
            omega)
          have byte := wordAt_byte (finished fw phdrs n stamp) (4 * j) 3 (by decide)
          rw [found, total, last, stamp.whole] at byte
          cases byte
        · apply headed.first j less
          rw [← found]
          apply wordAt_congr
          intro b four
          refine (header_stands sound n stamp _ (by omega) ?_).symm
          unfold Patched
          omega

end Finished

end Stroopwafel.Anpack
