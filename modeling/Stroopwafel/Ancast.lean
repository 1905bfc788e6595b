import Stroopwafel.AncastEncrypt
import Stroopwafel.StructPack

set_option autoImplicit false

namespace Stroopwafel.Anpack

open Memory ByteFile StructPack Cbc

/-- The fields of `elf32_ehdr` -/
structure Ehdr where
  ident : List Byte
  type : Nat
  machine : Nat
  version : Nat
  entry : Nat
  phoff : Nat
  shoff : Nat
  flags : Nat
  ehsize : Nat
  phentsize : Nat
  phnum : Nat
  shentsize : Nat
  shnum : Nat
  shstrndx : Nat
deriving DecidableEq

/-- The fields of `elf32_phdr`. `p_memsz` may become negative. -/
structure Phdr where
  type : Nat
  offset : Nat
  vaddr : Nat
  paddr : Nat
  filesz : Nat
  memsz : Int
  flags : Nat
  align : Nat
  content : List Byte
deriving DecidableEq

def ehdrSizes : List Nat := [2, 2, 4, 4, 4, 4, 4, 2, 2, 2, 2, 2, 2]

def phdrSizes : List Nat := [4, 4, 4, 4, 4, 4, 4, 4]

def Ehdr.fields (h : Ehdr) : List Int :=
  [h.type, h.machine, h.version, h.entry, h.phoff, h.shoff, h.flags, h.ehsize, h.phentsize, h.phnum,
    h.shentsize, h.shnum, h.shstrndx]

def Phdr.fields (p : Phdr) : List Int :=
  [p.type, p.offset, p.vaddr, p.paddr, p.filesz, p.memsz, p.flags, p.align]

def Ehdr.read (file : File Byte) (offset : Nat) : Option Ehdr := do
  let ident := ((file.seek offset).read 16).1
  let (fields, _) ← readAll ehdrSizes ((file.seek offset).read 16).2
  match fields with
  | [type, machine, version, entry, phoff, shoff, flags, ehsize, phentsize, phnum, shentsize, shnum,
      shstrndx] =>
      some ⟨ident, type, machine, version, entry, phoff, shoff, flags, ehsize, phentsize, phnum,
        shentsize, shnum, shstrndx⟩
  | _ => none

def Ehdr.write (h : Ehdr) (file : File Byte) (offset : Nat) : Option (File Byte) := do
  let packed ← pack ehdrSizes h.fields
  return ((file.seek offset).write 0#8 h.ident).write 0#8 packed

def Phdr.read (file : File Byte) (offset : Nat) (hdr : Ehdr) (id : Nat) : Option Phdr := do
  let (fields, _) ← readAll phdrSizes (file.seek (offset + hdr.phoff + hdr.phentsize * id))
  match fields with
  | [type, pOffset, vaddr, paddr, filesz, memsz, flags, align] =>
      some ⟨type, pOffset, vaddr, paddr, filesz, memsz, flags, align,
        ((file.seek (offset + pOffset)).read filesz).1⟩
  | _ => none

def Phdr.empty : Phdr := ⟨0, 0, 0, 0, 0, 0, 0, 0, []⟩

def Phdr.replaceContent (p : Phdr) (content : List Byte) : Phdr :=
  { p with content := content, filesz := content.length, memsz := content.length }

/-- The file behind the write, and how many bytes of content were written -/
def Phdr.write (p : Phdr) (file : File Byte) (offset : Nat) (hdr : Ehdr) (id : Nat)
    (writeContent : Bool) : Option (Nat × File Byte) := do
  let packed ← pack phdrSizes p.fields
  let file := (file.seek (offset + hdr.phoff + hdr.phentsize * id)).write 0#8 packed
  if writeContent then
    return (p.content.length, (file.seek (offset + p.offset)).write 0#8 p.content)
  else return (0, file)

/-- The tool's `elf32`, which has `e_phnum` program headers -/
structure Elf where
  hdr : Ehdr
  phdrs : List Phdr
  count : phdrs.length = hdr.phnum

theorem mapM_length {α β : Type} (f : α → Option β) {xs : List α} {ys : List β}
    (mapped : xs.mapM f = some ys) : ys.length = xs.length := by
  induction xs generalizing ys with
  | nil =>
      cases mapped
      rfl
  | cons x xs ih =>
      rw [List.mapM_cons] at mapped
      obtain ⟨y, _, mapped⟩ := Option.bind_eq_some_iff.mp mapped
      obtain ⟨rest, others, whole⟩ := Option.bind_eq_some_iff.mp mapped
      cases whole
      rw [List.length_cons, ih others, List.length_cons]

def Elf.read (file : File Byte) (offset : Nat) : Option Elf :=
  match Ehdr.read file offset with
  | none => none
  | some hdr =>
      match mapped : (List.range hdr.phnum).mapM (Phdr.read file offset hdr) with
      | none => none
      | some phdrs => some ⟨hdr, phdrs, (mapM_length _ mapped).trans List.length_range⟩

/-- What the headers 0 and 2 have is not written as content. -/
def special (i : Nat) : Bool := i == 0 || i == 2

/-- The `i`-th header as `elf32.write` changes it, when `done` are those in front of it. -/
def placed (hdr : Ehdr) (done : List Phdr) (p : Phdr) (dataOffset : Nat) : Phdr :=
  let i := done.length
  let p := if special i then p else { p with offset := dataOffset }
  let p :=
    if i = 0 then { p with
      filesz := hdr.phentsize * hdr.phnum
      memsz := (hdr.phentsize * hdr.phnum : Nat) }
    else p
  let p :=
    if i = 1 then
      let first := done[0]?.getD .empty
      { p with vaddr := first.vaddr + first.filesz, paddr := first.vaddr + first.filesz }
    else p
  if i = 2 then
    { p with filesz := hdr.phentsize * hdr.phnum + (done[i - 1]?.getD .empty).filesz }
  else p

/-- The loop of `elf32.write` over the headers, behind those that are done. -/
def writePhdrs (hdr : Ehdr) (offset : Nat) :
    List Phdr → List Phdr → Nat → File Byte → Option (List Phdr × File Byte)
  | done, [], _, file => some (done, file)
  | done, p :: rest, dataOffset, file => do
      let p := placed hdr done p dataOffset
      let (written, file) ← p.write file offset hdr done.length (!special done.length)
      writePhdrs hdr offset (done ++ [p]) rest (dataOffset + written) file

/-- The headers that the tool holds behind the write, and the file -/
def Elf.write (elf : Elf) (file : File Byte) (offset : Nat) : Option (List Phdr × File Byte) := do
  let file ← elf.hdr.write file offset
  writePhdrs elf.hdr offset [] elf.phdrs (elf.hdr.phoff + elf.hdr.phentsize * elf.hdr.phnum) file

def Elf.modify (elf : Elf) (i : Nat) (f : Phdr → Phdr) : Elf :=
  ⟨elf.hdr, elf.phdrs.modify i f, (List.length_modify ..).trans elf.count⟩

/-- The first header at the address is changed. -/
def Elf.modifyAt (elf : Elf) (adr : Nat) (f : Phdr → Phdr) : Elf :=
  match elf.phdrs.findIdx? fun p => p.vaddr = adr with
  | some i => elf.modify i f
  | none => elf

/-- The sections are the addresses with the contents of the files, in their order. -/
def Elf.replaceSections (elf : Elf) (sections : List (Nat × List Byte)) : Elf :=
  sections.foldl (fun elf s => elf.modifyAt s.1 fun p => p.replaceContent s.2) elf

def Elf.bssSections (elf : Elf) (sections : List (Nat × List Byte)) : Elf :=
  sections.foldl
    (fun elf s => elf.modifyAt s.1 fun p => { p with filesz := 0, memsz := s.2.length }) elf

/-- The place of a new header: 0 stands for none that was found yet. -/
def phdrNum (phdrs : List Phdr) (addr : Nat) : Nat :=
  (List.range phdrs.length).foldl
    (fun num i => if addr < (phdrs[i]?.getD .empty).vaddr ∧ num = 0 then i else num) 0

def Elf.insertPhdr (elf : Elf) (addr : Nat) : Nat × Elf :=
  let num := phdrNum elf.phdrs addr
  (num, ⟨{ elf.hdr with phnum := elf.hdr.phnum + 1 },
    elf.phdrs.take num ++ [.empty] ++ elf.phdrs.drop num, by
      have count := elf.count
      simp only [List.length_append, List.length_take, List.length_drop, List.length_singleton]
      omega⟩)

structure Ancast where
  header : List Byte
  elf : Elf
  noCrypto : Bool

def magic : List Byte := [0x7F#8, 0x45#8, 0x4C#8, 0x46#8]

/-- The multiple of 4 below 0x1000 at which the magic word stands first, or 0 -/
def elfOffs (header : List Byte) : Nat :=
  (((List.range 0x400).map (4 * ·)).find? fun i => (header.drop i).take 4 == magic).getD 0

def Ancast.read (file : File Byte) (noCrypto : Bool) : Option Ancast := do
  let header := ((file.seek 0).read 0x1000).1
  let offs := elfOffs header
  let elf ← Elf.read file offs
  return ⟨header.take offs, elf, noCrypto⟩

section Write

variable {Key : Type} (aes : Key → BlockCipher Byte 16) (sha1 : Incremental Byte)
-- the digest of SHA-1 as bytes
variable (bytes : sha1.Digest → Vector Byte 20)

/-- `write` to a new file. `noCrypto` is the option of the program, which it looks at again. -/
def Ancast.write (fw : Ancast) (key : Key) (iv : List Byte) (noCrypto : Bool) :
    Option (List Phdr × File Byte) := do
  let file := ((File.mk [] 0).seek 0).write 0#8 fw.header
  let (phdrs, file) ← fw.elf.write file fw.header.length
  let file := file.seek file.content.length
  let size : Int := file.pos - 0x200
  let totalSize : Int := (size + 0xFFF) / 0x1000 * 0x1000
  let file := file.write 0#8 (List.replicate (totalSize - size).toNat 0#8)
  let (file, hash) ← encrypt aes sha1 key iv file 0x200 fw.noCrypto
  let file := if noCrypto then (file.seek 0x1A0).write 0#8 [0#8, 1#8] else file
  let total ← pack [4] [totalSize]
  let file := ((file.seek 0x1AC).write 0#8 total).write 0#8 (bytes hash).toList
  return (phdrs, file)

end Write

/-- The ELF file at `addr`, with the mirrors for the trampolines of MCP and FS -/
def Elf.elfProc (elf : Elf) (addr : Nat) (elfDat : List Byte) : Elf :=
  let carveoutSz := 0x400000
  let codeTrampolineSz := 0x100000
  let (num, elf) := elf.insertPhdr addr
  let elf := elf.modify num fun p => { p with
    content := elfDat
    type := 1
    offset := 0
    vaddr := addr
    paddr := addr
    filesz := carveoutSz
    memsz := carveoutSz
    flags := 7 ||| 0x1 <<< 20
    align := 1 }
  -- the header in front of the first is the last
  let elf := elf.modify (if num = 0 then elf.phdrs.length - 1 else num - 1) fun p =>
    { p with memsz := p.memsz - carveoutSz }
  let mirror := fun (vaddr : Nat) (p : Phdr) => { p with
    type := 1
    offset := 0
    vaddr := vaddr
    paddr := addr
    filesz := 0
    memsz := codeTrampolineSz
    flags := 7 ||| 0x1 <<< 20
    align := 1 }
  let (num, elf) := elf.insertPhdr addr
  let elf := elf.modify num (mirror 0x05200000)
  let (num, elf) := elf.insertPhdr addr
  elf.modify num (mirror 0x10600000)

/-- The edits of the tool -/
inductive Edit where
  | replaceSections (sections : List (Nat × List Byte))
  | bssSections (sections : List (Nat × List Byte))
  | elfProc (addr : Nat) (elfDat : List Byte)

def Elf.edit (elf : Elf) : Edit → Elf
  | .replaceSections sections => elf.replaceSections sections
  | .bssSections sections => elf.bssSections sections
  | .elfProc addr elfDat => elf.elfProc addr elfDat

def Ancast.edits (fw : Ancast) (edits : List Edit) : Ancast :=
  { fw with elf := edits.foldl Elf.edit fw.elf }

end Stroopwafel.Anpack
