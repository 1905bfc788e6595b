import Stroopwafel.Ancast

set_option autoImplicit false

namespace Stroopwafel.Anpack

open Memory ByteFile StructPack

def packedPhdr (p : Phdr) : List Byte := (pack phdrSizes p.fields).getD []

section Layout

variable (hdr : Ehdr) (offset : Nat)

/-- Where the `k`-th program header stands. -/
def phdrOffset (k : Nat) : Nat := offset + hdr.phoff + hdr.phentsize * k

/-- The writes for the headers from the `k`-th one on -/
def phdrWrites : Nat → List Phdr → List (Nat × List Byte)
  | _, [] => []
  | k, p :: rest =>
      (phdrOffset hdr offset k, packedPhdr p) ::
        ((if special k then [] else [(offset + p.offset, p.content)]) ++ phdrWrites (k + 1) rest)

/-- The contents of the headers from the `k`-th one on follow each other from `dataOffset` on. -/
def Laid : Nat → Nat → List Phdr → Prop
  | _, _, [] => True
  | k, dataOffset, p :: rest =>
      (special k = false → p.offset = dataOffset) ∧
        Laid (k + 1) (dataOffset + if special k then 0 else p.content.length) rest

/-- What the `k`-th header keeps when it is written, held as `p` and written as `q` -/
structure Same (k : Nat) (p q : Phdr) : Prop where
  type : q.type = p.type
  flags : q.flags = p.flags
  align : q.align = p.align
  memsz : k ≠ 0 → q.memsz = p.memsz
  filesz : special k = false → q.filesz = p.filesz
  vaddr : k ≠ 1 → q.vaddr = p.vaddr
  paddr : k ≠ 1 → q.paddr = p.paddr

structure Written (k : Nat) (p q : Phdr) : Prop extends Same k p q where
  content : q.content = p.content
  packs : ∃ data, pack phdrSizes q.fields = some data

theorem placed_cases (done : List Phdr) (p : Phdr) (dataOffset : Nat) :
    done.length = 0 ∧ placed hdr done p dataOffset = { p with
        filesz := hdr.phentsize * hdr.phnum
        memsz := (hdr.phentsize * hdr.phnum : Nat) } ∨
      done.length = 1 ∧ (∃ address, placed hdr done p dataOffset = { p with
        offset := dataOffset
        vaddr := address
        paddr := address }) ∨
      done.length = 2 ∧ (∃ size, placed hdr done p dataOffset = { p with filesz := size }) ∨
      3 ≤ done.length ∧ placed hdr done p dataOffset = { p with offset := dataOffset } := by
  unfold placed
  rcases (by omega : done.length = 0 ∨ done.length = 1 ∨ done.length = 2 ∨ 3 ≤ done.length) with
    zero | one | two | other
  · rw [zero]
    exact .inl ⟨rfl, rfl⟩
  · rw [one]
    exact .inr (.inl ⟨rfl, _, rfl⟩)
  · rw [two]
    exact .inr (.inr (.inl ⟨rfl, _, rfl⟩))
  · have plain : special done.length = false := by
      unfold special
      rw [Bool.or_eq_false_iff, beq_eq_false_iff_ne, beq_eq_false_iff_ne]
      omega
    simp only [plain, show done.length ≠ 0 by omega, show done.length ≠ 1 by omega,
      show done.length ≠ 2 by omega, Bool.false_eq_true, if_false]
    exact .inr (.inr (.inr ⟨other, trivial⟩))

theorem placed_written (done : List Phdr) (p : Phdr) (dataOffset : Nat) {data : List Byte}
    (packs : pack phdrSizes (placed hdr done p dataOffset).fields = some data) :
    Written done.length p (placed hdr done p dataOffset) := by
  have kept := placed_cases hdr done p dataOffset
  generalize placed hdr done p dataOffset = q at kept packs
  have packs' : ∃ data, pack phdrSizes q.fields = some data := ⟨data, packs⟩
  rcases kept with ⟨zero, rfl⟩ | ⟨one, _, rfl⟩ | ⟨two, _, rfl⟩ | ⟨_, rfl⟩
  · rw [zero]
    exact ⟨⟨rfl, rfl, rfl, fun other => absurd rfl other, fun plain => absurd plain (by decide),
      fun _ => rfl, fun _ => rfl⟩, rfl, packs'⟩
  · rw [one]
    exact ⟨⟨rfl, rfl, rfl, fun _ => rfl, fun _ => rfl, fun other => absurd rfl other,
      fun other => absurd rfl other⟩, rfl, packs'⟩
  · rw [two]
    exact ⟨⟨rfl, rfl, rfl, fun _ => rfl, fun plain => absurd plain (by decide), fun _ => rfl,
      fun _ => rfl⟩, rfl, packs'⟩
  · exact ⟨⟨rfl, rfl, rfl, fun _ => rfl, fun _ => rfl, fun _ => rfl, fun _ => rfl⟩, rfl, packs'⟩

theorem placed_offset (done : List Phdr) (p : Phdr) (dataOffset : Nat)
    (plain : special done.length = false) : (placed hdr done p dataOffset).offset = dataOffset := by
  rcases placed_cases hdr done p dataOffset with ⟨zero, _⟩ | ⟨_, _, same⟩ | ⟨two, _⟩ | ⟨_, same⟩
  · rw [zero] at plain
    cases plain
  · rw [same]
  · rw [two] at plain
    cases plain
  · rw [same]

theorem phdr_write (p : Phdr) (file file' : File Byte) (k n : Nat)
    (wrote : p.write file offset hdr k (!special k) = some (n, file')) :
    (∃ data, pack phdrSizes p.fields = some data) ∧
      n = (if special k then 0 else p.content.length) ∧
      file'.content = writeAll 0#8 file.content ((phdrOffset hdr offset k, packedPhdr p) ::
        if special k then [] else [(offset + p.offset, p.content)]) := by
  unfold Phdr.write at wrote
  obtain ⟨data, packs, wrote⟩ := Option.bind_eq_some_iff.mp wrote
  refine ⟨⟨data, packs⟩, ?_⟩
  unfold packedPhdr
  rw [packs]
  cases kind : special k with
  | true =>
      rw [kind] at wrote
      cases wrote
      exact ⟨rfl, rfl⟩
  | false =>
      rw [kind] at wrote
      cases wrote
      exact ⟨rfl, rfl⟩

/-- The loop writes the headers that it has placed, one after the other. -/
theorem writePhdrs_spec (done rest : List Phdr) (dataOffset : Nat) (file file' : File Byte)
    (phdrs : List Phdr)
    (wrote : writePhdrs hdr offset done rest dataOffset file = some (phdrs, file')) :
    ∃ qs, phdrs = done ++ qs ∧ qs.length = rest.length ∧ Laid done.length dataOffset qs ∧
      (∀ j p q, rest[j]? = some p → qs[j]? = some q → Written (done.length + j) p q) ∧
      file'.content = writeAll 0#8 file.content (phdrWrites hdr offset done.length qs) := by
  induction rest generalizing done dataOffset file with
  | nil =>
      cases wrote
      refine ⟨[], (List.append_nil _).symm, rfl, trivial, ?_, rfl⟩
      intro j p q held _
      cases held
  | cons p rest ih =>
      rw [writePhdrs] at wrote
      obtain ⟨⟨written, between⟩, one, others⟩ := Option.bind_eq_some_iff.mp wrote
      obtain ⟨⟨data, packs⟩, size, first⟩ := phdr_write hdr offset _ _ _ _ _ one
      obtain ⟨qs, whole, length, laid, keeps, content⟩ := ih _ _ _ others
      rw [List.length_append, List.length_singleton] at laid keeps content
      rw [size] at laid
      refine ⟨placed hdr done p dataOffset :: qs, ?_, ?_, ?_, ?_, ?_⟩
      · rw [whole, List.append_assoc]
        rfl
      · rw [List.length_cons, List.length_cons, length]
      · exact ⟨placed_offset hdr done p dataOffset, laid⟩
      · intro j p' q held wrote
        cases j with
        | zero =>
            cases held
            cases wrote
            exact placed_written hdr done p dataOffset packs
        | succ j =>
            have later := keeps j p' q held wrote
            rw [show done.length + 1 + j = done.length + (j + 1) by omega] at later
            exact later
      · rw [content, first, ← writeAll_append]
        rfl

def packedEhdr (hdr : Ehdr) : List Byte := (pack ehdrSizes hdr.fields).getD []

def elfWrites (phdrs : List Phdr) : List (Nat × List Byte) :=
  (offset, hdr.ident) :: (offset + hdr.ident.length, packedEhdr hdr) ::
    phdrWrites hdr offset 0 phdrs

theorem elf_write {elf : Elf} {file file' : File Byte} {phdrs : List Phdr}
    (wrote : elf.write file offset = some (phdrs, file')) :
    (∃ data, pack ehdrSizes elf.hdr.fields = some data) ∧ phdrs.length = elf.phdrs.length ∧
      Laid 0 (elf.hdr.phoff + elf.hdr.phentsize * elf.hdr.phnum) phdrs ∧
      (∀ j p q, elf.phdrs[j]? = some p → phdrs[j]? = some q → Written j p q) ∧
      file'.content = writeAll 0#8 file.content (elfWrites elf.hdr offset phdrs) := by
  unfold Elf.write at wrote
  obtain ⟨between, first, wrote⟩ := Option.bind_eq_some_iff.mp wrote
  unfold Ehdr.write at first
  obtain ⟨data, packs, same⟩ := Option.bind_eq_some_iff.mp first
  cases same
  obtain ⟨qs, whole, length, laid, keeps, content⟩ :=
    writePhdrs_spec elf.hdr offset [] elf.phdrs _ _ file' phdrs wrote
  rw [List.nil_append] at whole
  subst whole
  refine ⟨⟨data, packs⟩, length, laid, ?_, ?_⟩
  · intro j p q held wrote
    have kept := keeps j p q held wrote
    rw [List.length_nil, Nat.zero_add] at kept
    exact kept
  · rw [content]
    unfold elfWrites packedEhdr
    rw [packs]
    rfl

theorem packed_length {p : Phdr} (packs : ∃ data, pack phdrSizes p.fields = some data) :
    (packedPhdr p).length = 32 := by
  obtain ⟨data, packs⟩ := packs
  unfold packedPhdr
  rw [packs]
  exact pack_length packs

theorem phdrOffset_lt (wide : 32 ≤ hdr.phentsize) {j j' : Nat} (less : j < j') :
    phdrOffset hdr offset j + 32 ≤ phdrOffset hdr offset j' := by
  have step := Nat.mul_le_mul_left hdr.phentsize (Nat.succ_le_of_lt less)
  rw [Nat.mul_succ] at step
  unfold phdrOffset
  omega

/-- A write is one of the table, or it is behind the place of the first content. -/
theorem phdrWrites_place (k dataOffset : Nat) (phdrs : List Phdr) (laid : Laid k dataOffset phdrs)
    (packs : ∀ p ∈ phdrs, ∃ data, pack phdrSizes p.fields = some data) (w : Nat × List Byte)
    (member : w ∈ phdrWrites hdr offset k phdrs) :
    (∃ j, k ≤ j ∧ j < k + phdrs.length ∧ w.1 = phdrOffset hdr offset j ∧ w.2.length = 32) ∨
      offset + dataOffset ≤ w.1 := by
  induction phdrs generalizing k dataOffset with
  | nil => exact absurd member List.not_mem_nil
  | cons p rest ih =>
      obtain ⟨place, laid⟩ := laid
      rw [List.length_cons]
      rcases List.mem_cons.mp member with rfl | member
      · have size := packed_length (packs p List.mem_cons_self)
        refine .inl ⟨k, Nat.le_refl k, by omega, rfl, ?_⟩
        dsimp only
        exact size
      · rcases List.mem_append.mp member with content | later
        · right
          split at content
          · exact absurd content List.not_mem_nil
          · rename_i plain
            rw [List.mem_singleton.mp content]
            exact Nat.le_of_eq (congrArg (offset + ·) (place (Bool.eq_false_iff.mpr plain)).symm)
        · rcases ih _ _ laid (fun q member => packs q (List.mem_cons_of_mem _ member)) later with
            ⟨j, lower, upper, rest⟩ | behind
          · exact .inl ⟨j, by omega, by omega, rest⟩
          · exact .inr (by omega)

/-- The table and the contents behind it have no place in common. -/
theorem phdrWrites_apart (wide : 32 ≤ hdr.phentsize) (k dataOffset : Nat) (phdrs : List Phdr)
    (laid : Laid k dataOffset phdrs)
    (packs : ∀ p ∈ phdrs, ∃ data, pack phdrSizes p.fields = some data)
    (behind : phdrOffset hdr offset (k + phdrs.length) ≤ offset + dataOffset) :
    (phdrWrites hdr offset k phdrs).Pairwise ByteFile.Apart := by
  induction phdrs generalizing k dataOffset with
  | nil => exact List.Pairwise.nil
  | cons p rest ih =>
      obtain ⟨place, laid⟩ := laid
      rw [List.length_cons] at behind
      have packs' : ∀ q ∈ rest, ∃ data, pack phdrSizes q.fields = some data :=
        fun q member => packs q (List.mem_cons_of_mem _ member)
      have size := packed_length (packs p List.mem_cons_self)
      have table : ∀ j, j < k + (rest.length + 1) →
          phdrOffset hdr offset j + 32 ≤ offset + dataOffset :=
        fun j less => Nat.le_trans (phdrOffset_lt hdr offset wide less) behind
      have later := phdrWrites_place hdr offset (k + 1) _ rest laid packs'
      rw [phdrWrites, List.pairwise_cons, List.pairwise_append]
      refine ⟨?_, ?_, ?_, ?_⟩
      · intro w member
        unfold ByteFile.Apart
        dsimp only
        rw [size]
        rcases List.mem_append.mp member with content | member
        · split at content
          · exact absurd content List.not_mem_nil
          · rename_i plain
            rw [List.mem_singleton.mp content, place (Bool.eq_false_iff.mpr plain)]
            exact .inl (table k (by omega))
        · left
          rcases later w member with ⟨j, lower, _, at_, _⟩ | past
          · rw [at_]
            exact phdrOffset_lt hdr offset wide lower
          · have first := table k (by omega)
            omega
      · split
        · exact List.Pairwise.nil
        · exact List.pairwise_singleton _ _
      · refine ih _ _ laid packs' ?_
        rw [show k + 1 + rest.length = k + (rest.length + 1) by omega]
        omega
      · intro w content w' member
        split at content
        · exact absurd content List.not_mem_nil
        · rename_i plain
          rw [if_neg plain] at later
          rw [List.mem_singleton.mp content, place (Bool.eq_false_iff.mpr plain)]
          unfold ByteFile.Apart
          dsimp only
          rcases later w' member with ⟨j, _, upper, at_, length⟩ | past
          · have first := table j (by omega)
            omega
          · omega

end Layout

section File

open Cbc

variable {Key : Type} (aes : Key → BlockCipher Byte 16) (sha1 : Incremental Byte)
variable (bytes : sha1.Digest → Vector Byte 20)

/-- The file before it is padded -/
def unpadded (fw : Ancast) (phdrs : List Phdr) : List Byte :=
  writeAll 0#8 [] ((0, fw.header) :: elfWrites fw.elf.hdr fw.header.length phdrs)

/-- The fields that `write` sets last -/
structure Stamp where
  total : List Byte
  digest : List Byte
  total_length : total.length = 4
  digest_length : digest.length = 20
  whole : total[3]? = some 0#8

def Stamp.writes (stamp : Stamp) : List (Nat × List Byte) :=
  [(0x1A0, [0#8, 1#8]), (0x1AC, stamp.total), (0x1B0, stamp.digest)]

theorem total_last {n : Int} {total : List Byte} (packs : pack [4] [n] = some total)
    (multiple : (0x1000 : Int) ∣ n) : total.length = 4 ∧ total[3]? = some 0#8 := by
  refine ⟨pack_length packs, ?_⟩
  unfold pack at packs
  obtain ⟨first, one, packs⟩ := Option.bind_eq_some_iff.mp packs
  cases packs
  unfold packOne at one
  split at one
  · cases one
    rw [List.append_nil, digits, List.getElem?_append_right (Nat.le_of_eq (digits_length _ _)),
      digits_length]
    have low : BitVec.ofNat 8 n.toNat = 0#8 := by
      apply BitVec.eq_of_toNat_eq
      rw [BitVec.toNat_ofNat, BitVec.toNat_ofNat]
      omega
    rw [low]
    rfl
  · cases one

/-- Without encryption the file is the header and the ELF file with zeros behind them and the fields
set. -/
theorem ancast_writes (key : Key) {fw : Ancast} {iv : List Byte} {phdrs : List Phdr}
    {between : File Byte} {total : List Byte} (noCrypto : fw.noCrypto = true)
    (iv16 : iv.length = 16)
    (elf : fw.elf.write ⟨fw.header, fw.header.length⟩ fw.header.length = some (phdrs, between))
    (packs : pack [4] [((between.content.length : Int) - 0x200 + 0xFFF) / 0x1000 * 0x1000] =
      some total) :
    ∃ file n stamp body, fw.write aes sha1 bytes key iv true = some (phdrs, file) ∧
      stamp.digest = (bytes (sha1.oneShot body)).toList ∧
      file.content =
        writeAll 0#8 (unpadded fw phdrs ++ List.replicate n 0#8) (Stamp.writes stamp) := by
  obtain ⟨_, _, _, _, content⟩ := elf_write fw.header.length elf
  have body : between.content = unpadded fw phdrs := by
    rw [content]
    unfold unpadded
    rw [writeAll_cons, overwrite_start]
  have multiple := Int.dvd_mul_left
    (((between.content.length : Int) - 0x200 + 0xFFF) / 0x1000) 0x1000
  obtain ⟨length, last⟩ := total_last packs multiple
  unfold Ancast.write
  rw [write_start]
  dsimp only
  rw [elf, Option.bind_eq_bind, Option.bind_some]
  dsimp only
  rw [seek_pos]
  generalize zeros : (((between.content.length : Int) - 0x200 + 0xFFF) / 0x1000 * 0x1000 -
    ((between.content.length : Int) - 0x200)).toNat = n
  have padded : (File.write 0#8 (between.seek between.content.length)
      (List.replicate n 0#8)).content = unpadded fw phdrs ++ List.replicate n 0#8 := by
    unfold File.write
    rw [seek_content, seek_pos, overwrite_end, body]
  have aligned : 16 ∣ ((File.write 0#8 (between.seek between.content.length)
      (List.replicate n 0#8)).content.drop 0x200).length := by
    rw [padded, ← body, List.length_drop, List.length_append, List.length_replicate]
    omega
  obtain ⟨pos, same⟩ := encrypt_mode aes sha1 key iv _ 0x200 fw.noCrypto iv16 aligned
  have plain (data : List Byte) : (mode aes key true).output iv data = data := rfl
  rw [same, noCrypto, plain, List.take_append_drop, padded, Option.bind_eq_bind,
    Option.bind_some, Option.bind_eq_bind, packs, Option.bind_some, if_pos rfl]
  dsimp only
  generalize (unpadded fw phdrs ++ List.replicate n 0#8).drop 0x200 = body
  refine ⟨_, n, ⟨total, (bytes (sha1.oneShot body)).toList, length,
    (bytes (sha1.oneShot body)).length_toList, last⟩, body, rfl, rfl, ?_⟩
  dsimp only [File.write, File.seek]
  rw [length]
  rfl

theorem ancast_write {fw : Ancast} {key : Key} {iv : List Byte} {phdrs : List Phdr}
    {file : File Byte} (noCrypto : fw.noCrypto = true)
    (wrote : fw.write aes sha1 bytes key iv true = some (phdrs, file)) :
    (∃ between,
        fw.elf.write ⟨fw.header, fw.header.length⟩ fw.header.length = some (phdrs, between)) ∧
      ∃ n stamp, file.content =
        writeAll 0#8 (unpadded fw phdrs ++ List.replicate n 0#8) (Stamp.writes stamp) := by
  have kept := wrote
  unfold Ancast.write at wrote
  rw [write_start] at wrote
  obtain ⟨⟨phdrs', between⟩, elf, wrote⟩ := Option.bind_eq_some_iff.mp wrote
  dsimp only at wrote
  obtain ⟨⟨after, hash⟩, crypt, wrote⟩ := Option.bind_eq_some_iff.mp wrote
  dsimp only at wrote
  obtain ⟨total, packs, wrote⟩ := Option.bind_eq_some_iff.mp wrote
  cases wrote
  have iv16 := encrypt_iv aes sha1 key iv _ _ _ crypt
  obtain ⟨file, n, stamp, body, written, _, content⟩ :=
    ancast_writes aes sha1 bytes _ noCrypto iv16 elf packs
  cases kept.symm.trans written
  exact ⟨⟨between, elf⟩, n, stamp, content⟩

end File

/-- The headers as they are written, with room for the table behind the ELF header -/
structure Sound (hdr : Ehdr) (phdrs : List Phdr) : Prop where
  ident : hdr.ident.length = 16
  room : 52 ≤ hdr.phoff
  wide : 32 ≤ hdr.phentsize
  packs : ∃ data, pack ehdrSizes hdr.fields = some data
  count : phdrs.length = hdr.phnum
  laid : Laid 0 (hdr.phoff + hdr.phentsize * hdr.phnum) phdrs
  phdrs : ∀ p ∈ phdrs, ∃ data, pack phdrSizes p.fields = some data

namespace Sound

variable {hdr : Ehdr} {phdrs : List Phdr} (sound : Sound hdr phdrs) (offset : Nat)
include sound

theorem packed : (packedEhdr hdr).length = 36 := by
  obtain ⟨data, packs⟩ := sound.packs
  unfold packedEhdr
  rw [packs]
  exact pack_length packs

theorem behind (w : Nat × List Byte) (member : w ∈ phdrWrites hdr offset 0 phdrs) :
    offset + 52 ≤ w.1 := by
  have room := sound.room
  rcases phdrWrites_place hdr offset 0 _ phdrs sound.laid sound.phdrs w member with
    ⟨j, _, _, place, _⟩ | past
  · rw [place]
    unfold phdrOffset
    omega
  · omega

theorem apart : (elfWrites hdr offset phdrs).Pairwise ByteFile.Apart := by
  have ident := sound.ident
  have packed := sound.packed
  have table := phdrWrites_apart hdr offset sound.wide 0 _ phdrs sound.laid sound.phdrs (by
    unfold phdrOffset
    rw [Nat.zero_add, sound.count]
    omega)
  unfold elfWrites
  rw [List.pairwise_cons, List.pairwise_cons]
  refine ⟨?_, ?_, table⟩
  · intro w member
    left
    dsimp only
    rcases List.mem_cons.mp member with rfl | member
    · exact Nat.le_refl _
    · have past := sound.behind offset w member
      omega
  · intro w member
    left
    dsimp only
    have past := sound.behind offset w member
    omega

theorem from_offset (w : Nat × List Byte) (member : w ∈ elfWrites hdr offset phdrs) :
    offset ≤ w.1 := by
  rcases List.mem_cons.mp member with rfl | member
  · exact Nat.le_refl _
  · rcases List.mem_cons.mp member with rfl | member
    · exact Nat.le_add_right _ _
    · have past := sound.behind offset w member
      omega

end Sound

/-- The bytes of the header that `write` sets -/
def Patched (i : Nat) : Prop := 0x1A0 ≤ i ∧ i < 0x1A2 ∨ 0x1AC ≤ i ∧ i < 0x1C4

section Stands

variable {fw : Ancast} {phdrs : List Phdr} (sound : Sound fw.elf.hdr phdrs) (n : Nat)
  (stamp : Stamp)

/-- What is written in the end -/
def finished (fw : Ancast) (phdrs : List Phdr) (n : Nat) (stamp : Stamp) : List Byte :=
  writeAll 0#8 (unpadded fw phdrs ++ List.replicate n 0#8) (Stamp.writes stamp)

include sound

/-- The ELF file stands behind the header. -/
theorem elf_stands (low : 0x1C4 ≤ fw.header.length) (w : Nat × List Byte)
    (member : w ∈ elfWrites fw.elf.hdr fw.header.length phdrs) :
    Holds (finished fw phdrs n stamp) w.1 w.2 := by
  have first := sound.from_offset fw.header.length w member
  have stands : Holds (unpadded fw phdrs) w.1 w.2 := by
    unfold unpadded
    rw [writeAll_cons]
    exact writeAll_holds _ _ (sound.apart fw.header.length) w member
  unfold finished
  apply (stands.append _).writeAll
  have four := stamp.total_length
  have twenty := stamp.digest_length
  intro w' patch
  right
  unfold Stamp.writes at patch
  rcases List.mem_cons.mp patch with rfl | patch
  · exact Nat.le_trans (by decide : 0x1A0 + 2 ≤ 0x1C4) (Nat.le_trans low first)
  · rcases List.mem_cons.mp patch with rfl | patch
    · dsimp only
      omega
    · rw [List.mem_singleton.mp patch]
      dsimp only
      omega

/-- The header stands at the start, but for the fields that are set. -/
theorem header_stands (i : Nat) (inside : i < fw.header.length) (kept : ¬ Patched i) :
    (finished fw phdrs n stamp)[i]? = fw.header[i]? := by
  have stands : Holds (unpadded fw phdrs) 0 fw.header := by
    unfold unpadded
    rw [writeAll_cons]
    apply holds_overwrite.writeAll
    intro w member
    left
    have first := sound.from_offset fw.header.length w member
    dsimp only
    omega
  have start := (stands.append (List.replicate n 0#8)) i inside
  rw [Nat.zero_add] at start
  rw [← start]
  have long : i < (unpadded fw phdrs ++ List.replicate n 0#8).length := by
    obtain ⟨short, _⟩ := List.getElem?_eq_some_iff.mp
      (start.trans (List.getElem?_eq_getElem inside))
    exact short
  have four := stamp.total_length
  have twenty := stamp.digest_length
  unfold Patched at kept
  apply writeAll_outer _ _ _ long
  intro w patch
  unfold Stamp.writes at patch
  rcases List.mem_cons.mp patch with rfl | patch
  · dsimp only [List.length_cons, List.length_nil]
    omega
  · rcases List.mem_cons.mp patch with rfl | patch
    · dsimp only
      omega
    · rw [List.mem_singleton.mp patch]
      dsimp only
      omega

end Stands

end Stroopwafel.Anpack
