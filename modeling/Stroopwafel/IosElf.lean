import Stroopwafel.Memory

set_option autoImplicit false

namespace Stroopwafel.IosElf

open Memory

structure Phdr where
  pType : Word
  pOffset : Word
  pVaddr : Word
  pPaddr : Word
  pFilesz : Word
  pMemsz : Word
  pFlags : Word
  pAlign : Word
  deriving DecidableEq

def Phdr.words (ph : Phdr) : List Word :=
  [ph.pType, ph.pOffset, ph.pVaddr, ph.pPaddr, ph.pFilesz, ph.pMemsz, ph.pFlags, ph.pAlign]

/-- The IOS program headers stand at a fixed address. -/
abbrev phdrs : Word := 0x1D000000#32

abbrev segPhdrs : Nat := 0
abbrev segNotes : Nat := 1
abbrev segElfinfo : Nat := 2

/-- `&phdrs[i]`; an entry has 32 bytes. -/
def phdrAddress (i : Nat) : Word := phdrs + BitVec.ofNat 32 (32 * i)

/-- Byte offsets of the fields that are updated in place. -/
abbrev vaddrField : Nat := 8
abbrev paddrField : Nat := 12
abbrev fileszField : Nat := 16
abbrev memszField : Nat := 20

def field (m : Mem) (i offset : Nat) : Word :=
  read32 m (phdrAddress i + BitVec.ofNat 32 offset)

def phdrAt (m : Mem) (i : Nat) : Phdr where
  pType := field m i 0
  pOffset := field m i 4
  pVaddr := field m i vaddrField
  pPaddr := field m i paddrField
  pFilesz := field m i fileszField
  pMemsz := field m i memszField
  pFlags := field m i 24
  pAlign := field m i 28

def setField (m : Mem) (i offset : Nat) (value : Word) : Mem :=
  write32 m (phdrAddress i + BitVec.ofNat 32 offset) value

/-- Assign every field through a `Elf32_Phdr*`. -/
def writePhdr (m : Mem) (address : Word) (ph : Phdr) : Mem := writeWords m address ph.words

def numPhdrs (m : Mem) : Nat := (phdrAt m segPhdrs).pMemsz.toNat / 32

/-- The test of the translation loop. Its upper bound is inclusive. -/
def Phdr.Matches (ph : Phdr) (addr : Word) : Prop :=
  ph.pVaddr ≤ addr ∧ addr ≤ ph.pVaddr + ph.pMemsz

instance (ph : Phdr) (addr : Word) : Decidable (ph.Matches addr) :=
  inferInstanceAs (Decidable (_ ∧ _))

def Phdr.translate (ph : Phdr) (addr : Word) : Word := addr - ph.pVaddr + ph.pPaddr

/-- The loop over the `remaining` entries from index `i` on. -/
def vaddrToPaddrFrom (m : Mem) (addr : Word) : Nat → Nat → Word
  | 0, _ => addr
  | remaining + 1, i =>
      if (phdrAt m i).Matches addr then (phdrAt m i).translate addr
      else vaddrToPaddrFrom m addr remaining (i + 1)

def iosElfVaddrToPaddr (m : Mem) (addr : Word) : Word :=
  vaddrToPaddrFrom m addr (numPhdrs m - segElfinfo) segElfinfo

/-- The index at which `ios_elf_add_phdr` leaves its search loop. -/
def insertionFrom (m : Mem) (addr : Word) : Nat → Nat → Nat
  | 0, i => i
  | remaining + 1, i =>
      if addr < (phdrAt m i).pVaddr then i else insertionFrom m addr remaining (i + 1)

def insertionIndex (m : Mem) (addr : Word) : Nat :=
  insertionFrom m addr (numPhdrs m - segElfinfo) segElfinfo

/-- `phdrs[i].field += value` -/
def addField (m : Mem) (i offset : Nat) (value : Word) : Mem :=
  setField m i offset (field m i offset + value)

/-- `sizeof(Elf32_Phdr)` -/
abbrev phdrBytes : Word := 32#32

/-- `(num_phdrs - i) * sizeof(Elf32_Phdr)`, in 32 bits. -/
def entryBytes (num i : Nat) : Nat :=
  ((BitVec.ofNat 32 num - BitVec.ofNat 32 i) * phdrBytes).toNat

/-- The memory afterwards and the address of the new, not yet filled entry. The
notes block moves first: it stands where the last entry is going to be. -/
def iosElfAddPhdr (m : Mem) (addr : Word) : Mem × Word :=
  let num := numPhdrs m
  let i := insertionIndex m addr
  let notes := phdrAt m segNotes
  let m := move m (notes.pVaddr + phdrBytes) notes.pVaddr notes.pMemsz.toNat
  let m := addField m segNotes vaddrField phdrBytes
  let m := addField m segNotes paddrField phdrBytes
  let m := move m (phdrAddress (i + 1)) (phdrAddress i) (entryBytes num i)
  let m := addField m segPhdrs memszField phdrBytes
  let m := addField m segPhdrs fileszField phdrBytes
  let m := addField m segElfinfo fileszField phdrBytes
  (m, phdrAddress i)

abbrev mcpAltBase : Word := 0x05200000#32
abbrev fsAltBase : Word := 0x10600000#32
abbrev netAltBase : Word := 0x12200000#32
abbrev nsecAltBase : Word := 0xE1300000#32
abbrev bspAltBase : Word := 0xE5F00000#32
abbrev kernAltBase : Word := 0x08200000#32

abbrev ramdiskEnd : Word := 0x28000000#32

/-- `CARVEOUT_SZ` -/
def carveoutSize (pluginBase : Word) : Word := ramdiskEnd - pluginBase

/-- `IOS_PHDR_FLAGS(IOS_RWX, IOS_KERNEL)` -/
abbrev kernelRwx : Word := 7#32

abbrev codeTrampolineSize : Word := 0x100000#32

def mirror (pluginBase vaddr : Word) : Phdr where
  pType := 1
  pOffset := 0
  pVaddr := vaddr
  pPaddr := pluginBase
  pFilesz := 0
  pMemsz := codeTrampolineSize
  pFlags := kernelRwx
  pAlign := 1

def carveout (pluginBase : Word) : Phdr where
  pType := 1
  pOffset := 0
  pVaddr := pluginBase
  pPaddr := pluginBase
  pFilesz := carveoutSize pluginBase
  pMemsz := carveoutSize pluginBase
  pFlags := kernelRwx
  pAlign := 1

def addMirror (pluginBase : Word) (m : Mem) (vaddr : Word) : Mem :=
  let (m, phdr) := iosElfAddPhdr m pluginBase
  writePhdr m phdr (mirror pluginBase vaddr)

/-- `phdr_base[-1].p_memsz -= CARVEOUT_SZ`, with the entry before `phdrBase`. -/
def trimPrevious (pluginBase : Word) (m : Mem) (phdrBase : Word) : Mem :=
  let memsz := phdrBase - phdrBytes + BitVec.ofNat 32 memszField
  write32 m memsz (read32 m memsz - carveoutSize pluginBase)

def initPhdrs (pluginBase : Word) (m : Mem) : Mem :=
  let (m, phdrBase) := iosElfAddPhdr m pluginBase
  let m := writePhdr m phdrBase (carveout pluginBase)
  let m := trimPrevious pluginBase m phdrBase
  let m := addMirror pluginBase m mcpAltBase
  let m := addMirror pluginBase m fsAltBase
  let m := addMirror pluginBase m netAltBase
  let m := addMirror pluginBase m nsecAltBase
  let m := addMirror pluginBase m bspAltBase
  addMirror pluginBase m kernAltBase

end Stroopwafel.IosElf
