import Stroopwafel.IosElf

set_option autoImplicit false

namespace Stroopwafel.Trampoline

open Memory IosElf

inductive Proto where
  | blre
  | blreRegs
  | hookbefore
  | hookbeforeLr
  | tBlre
  | tBlreRegs
  | tHookbefore
  | tHookbeforeBl
  deriving DecidableEq

/-- The prototypes as assembled. Thumb code has two halfwords in a word. -/
def Proto.code : Proto → List Word
  | .blre =>
      [0xE52DE004, -- push {lr}
       0xE59FE010, -- ldr lr, chain
       0xE52DE004, -- push {lr}
       0xE59FE004, -- ldr lr, target
       0xE12FFF3E, -- blx lr
       0xE8BDC000, -- pop {lr, pc}
       0, 0]
  | .blreRegs =>
      [0xE52DE004, -- push {lr}
       0xE59FE014, -- ldr lr, chain
       0xE92D5FF0, -- push {r4-r12, lr}
       0xE59FE008, -- ldr lr, target
       0xE12FFF3E, -- blx lr
       0xE28DD024, -- add sp, #36
       0xE8BDC000, -- pop {lr, pc}
       0, 0]
  | .hookbefore =>
      [0xE92D5FFF, -- push {r0-r12, lr}
       0xE1A0000D, -- mov r0, sp
       0xE59FE00C, -- ldr lr, target
       0xE12FFF3E, -- blx lr
       0xE8BD5FFF, -- pop {r0-r12, lr}
       0xE51FF004, -- ldr pc, chain
       0xE12FFF1E, -- bx lr
       0]
  | .hookbeforeLr =>
      [0xE92D5FFF, -- push {r0-r12, lr}
       0xE1A0000D, -- mov r0, sp
       0xE59FE014, -- ldr lr, target
       0xE12FFF3E, -- blx lr
       0xE3500000, -- cmp r0, #0
       0xE8BD5FFF, -- pop {r0-r12, lr}
       0x159FF008, -- ldrne pc, ret
       0xE1A00000, -- nop
       0xE59FF000, -- ldr pc, ret
       0, 0]
  | .tBlre =>
      [0xB5034804, -- push {r0, r1, lr}; ldr r0, target
       0x46864804, -- mov lr, r0; ldr r0, chain
       0x9001BC01, -- str r0, [sp, #4]; pop {r0}
       0x47F0B001, -- blx lr; add sp, #4
       0xBD0046C0, -- pop {pc}; padding
       0, 0]
  | .tBlreRegs =>
      [0xB500B5F1, -- push {lr}; push {r0, r4-r7, lr}
       0x48034686, -- ldr r0, target; mov lr, r0
       0x48039005, -- ldr r0, chain; str r0, [sp, #20]
       0xBC0147F0, -- pop {r0}; blx lr
       0xB001BD00, -- add sp, #4; pop {pc}
       0, 0]
  | .tHookbefore =>
      [0xB5FF4F05, -- push {r0-r7, lr}; ldr r7, target
       0x466847B8, -- mov r0, sp; blx r7
       0x98084686, -- ldr r0, [sp, #32]; mov lr, r0
       0xBCFFB001, -- pop {r0-r7}; add sp, #4
       0x46C046C0, -- nop; nop
       0x477046C0, -- bx lr; nop
       0]
  | .tHookbeforeBl =>
      [0xB5FF4F05, -- push {r0-r7, lr}; ldr r7, target
       0x466847B8, -- mov r0, sp; blx r7
       0x98084686, -- ldr r0, [sp, #32]; mov lr, r0
       0x49019108, -- ldr r1, chain; str r1, [sp, #32]
       0xBDFF46C0, -- pop {r0-r7, pc}; padding
       0, 0]

/-- `trampoline_end - trampoline` -/
def Proto.size (p : Proto) : Nat := 4 * p.code.length

/-- Word indices of the labels inside the prototypes. -/
def Proto.target : Proto → Nat
  | .blre => 6
  | .blreRegs => 7
  | .hookbefore => 7
  | .hookbeforeLr => 9
  | .tBlre => 5
  | .tBlreRegs => 5
  | .tHookbefore => 6
  | .tHookbeforeBl => 6

abbrev blreChain : Nat := 7
abbrev blreRegsChain : Nat := 8
abbrev hookbeforeOrgins : Nat := 5
abbrev hookbeforeChain : Nat := 6
abbrev hookbeforeLrOrgins : Nat := 7
abbrev hookbeforeLrRet : Nat := 10
abbrev tBlreChain : Nat := 6
abbrev tBlreRegsChain : Nat := 6
abbrev tHookbeforeOrgins : Nat := 4
abbrev tHookbeforeBlChain : Nat := 5

/-- Addresses the linker and the loader choose. -/
structure Symbols where
  proto : Proto → Word
  trampolineBuffer : Word
  trampolineBufferEnd : Word
  wafelPluginBaseAddr : Word

structure State where
  mem : Mem
  trampolineNext : Word

section Codec

variable (m : Mem) (addr : Word)

def align (x unit : Word) : Word := x + (unit - 1#32) - (x - 1#32) % unit

def extractTarget (addr ins : Word) : Word :=
  let off := (ins &&& 0xFFFFFF#32) <<< 2
  let m := 1#32 <<< 25
  let soff := (off ^^^ m) - m
  addr + soff + 8#32

def extractBlTarget : Word :=
  let ins := read32 m (iosElfVaddrToPaddr m addr)
  if ins >>> 24 ≠ 0xEB#32 then 0#32 else extractTarget addr ins

def extractBTarget : Word :=
  let ins := read32 m (iosElfVaddrToPaddr m addr)
  if ins >>> 24 ≠ 0xEA#32 then 0#32 else extractTarget addr ins

def extractBlTTarget : Word :=
  let paddr := iosElfVaddrToPaddr m addr
  let ins1 := read16 m paddr
  let ins2 := read16 m (paddr + 2#32)
  if ins1 >>> 11 ≠ 0x1E#16 ∨ ins2 >>> 11 ≠ 0x1F#16 then 0#32
  else
    let off1 : Word := ins1.setWidth 32 <<< 21
    let off2 : Word := (ins2 &&& 0x7FF#16).setWidth 32 <<< 10
    let soff := (off1 ||| off2).sshiftRight 9
    (addr + soff + 4#32) ||| 1#32

/-- `_patch_u32_k`: two halfwords, for targets that are only 2-aligned. -/
def patchU32K (value : Word) : Mem :=
  let paddr := iosElfVaddrToPaddr m addr
  write16 (write16 m paddr (value.extractLsb' 16 16)) (paddr + 2#32) (value.extractLsb' 0 16)

def blTrampolineK (dst : Word) : Mem :=
  let offs := (dst - addr - 8#32).sdiv 4#32
  patchU32K m addr (0xEB000000#32 ||| (offs &&& 0xFFFFFF#32))

def branchPatchK (dst : Word) : Mem :=
  let offs := (dst - addr - 8#32).sdiv 4#32
  patchU32K m addr (0xEA000000#32 ||| (offs &&& 0xFFFFFF#32))

def blTTrampolineK (dst : Word) : Mem :=
  let offs := (dst - addr - 4#32).sdiv 2#32
  patchU32K m addr
    (0xF000F800#32 ||| (offs &&& 0x7FF#32) ||| (((offs >>> 11) &&& 0x3FF#32) <<< 16))

end Codec

section Install

variable (sym : Symbols) (s : State) (addr : Word)

/-- The new state and the address of the copy. `none` is `crash_and_burn`. -/
def trampolineCopy (p : Proto) : Option (State × Word) :=
  let next := align s.trampolineNext 4#32
  let size := BitVec.ofNat 32 p.size
  if next + size ≥ sym.trampolineBufferEnd then none
  else some (⟨copy16 s.mem next (sym.proto p) (p.size / 2), next + size⟩, next)

/-- The addresses at which the trampoline is mapped, in the order they are tried. -/
def mappings (trampoline : Word) : List Word :=
  trampoline :: [mcpAltBase, fsAltBase, netAltBase, nsecAltBase, bspAltBase, kernAltBase].map
    fun altBase => trampoline - sym.wafelPluginBaseAddr + altBase

def trampolineFindMapping (trampoline : Word) (offsetBits : Nat) : Option Word :=
  (mappings sym trampoline).find? fun alt => alt >>> offsetBits == addr >>> offsetBits

def trampolineInstallNolink (p : Proto) : Option (State × Word) := do
  let (s, installed) ← trampolineCopy sym s p
  let alt ← trampolineFindMapping sym addr installed 26
  pure ({ s with mem := branchPatchK s.mem addr alt }, installed)

def trampolineInstall (p : Proto) : Option (State × Word) := do
  let (s, installed) ← trampolineCopy sym s p
  let alt ← trampolineFindMapping sym addr installed 26
  pure ({ s with mem := blTrampolineK s.mem addr alt }, installed)

def trampolineTInstall (p : Proto) : Option (State × Word) := do
  let (s, installed) ← trampolineCopy sym s p
  let alt ← trampolineFindMapping sym addr installed 23
  pure ({ s with mem := blTTrampolineK s.mem addr alt }, installed)

/-- Store into the word with index `i` of the code at `base`. -/
def setWord (s : State) (base : Word) (i : Nat) (value : Word) : State :=
  { s with mem := write32 s.mem (base + BitVec.ofNat 32 (4 * i)) value }

def setHalf (s : State) (address : Word) (value : Half) : State :=
  { s with mem := write16 s.mem address value }

variable (target : Word)

def trampolineBlreplace : Option State := do
  let s := setWord s (sym.proto .blre) blreChain (extractBlTarget s.mem addr)
  let s := setWord s (sym.proto .blre) Proto.blre.target target
  let (s, _) ← trampolineInstall sym s addr .blre
  pure s

def trampolineBlreplaceWithRegs : Option State := do
  let s := setWord s (sym.proto .blreRegs) blreRegsChain (extractBlTarget s.mem addr)
  let s := setWord s (sym.proto .blreRegs) Proto.blreRegs.target target
  let (s, _) ← trampolineInstall sym s addr .blreRegs
  pure s

/-- The chain or the original instruction is stored into the copy, as that would
overwrite the other case in the prototype. -/
def trampolineHookBefore : Option State := do
  let blTarget := extractBlTarget s.mem addr
  let orgins := read32 s.mem (iosElfVaddrToPaddr s.mem addr)
  let s := setWord s (sym.proto .hookbefore) Proto.hookbefore.target target
  let (s, base) ← trampolineInstall sym s addr .hookbefore
  if blTarget ≠ 0#32 then pure (setWord s base hookbeforeChain blTarget)
  else pure (setWord s base hookbeforeOrgins orgins)

def trampolineHookBeforeV2 : Option State := do
  let blTarget := extractBlTarget s.mem addr
  let isBl : Bool := blTarget ≠ 0#32
  let bTarget := if blTarget = 0#32 then extractBTarget s.mem addr else blTarget
  let orgins := read32 s.mem (iosElfVaddrToPaddr s.mem addr)
  let s := setWord s (sym.proto .hookbeforeLr) Proto.hookbeforeLr.target target
  let s := setWord s (sym.proto .hookbeforeLr) hookbeforeLrRet
    (if bTarget ≠ 0#32 then bTarget else addr + 4#32)
  let (s, base) ←
    if isBl then trampolineInstall sym s addr .hookbeforeLr
    else trampolineInstallNolink sym s addr .hookbeforeLr
  if bTarget = 0#32 then pure (setWord s base hookbeforeLrOrgins orgins) else pure s

def trampolineTBlreplace : Option State := do
  let s := setWord s (sym.proto .tBlre) tBlreChain (extractBlTTarget s.mem addr)
  let s := setWord s (sym.proto .tBlre) Proto.tBlre.target target
  let (s, _) ← trampolineTInstall sym s addr .tBlre
  pure s

def trampolineTBlreplaceWithRegs : Option State := do
  let s := setWord s (sym.proto .tBlreRegs) tBlreRegsChain (extractBlTTarget s.mem addr)
  let s := setWord s (sym.proto .tBlreRegs) Proto.tBlreRegs.target target
  let (s, _) ← trampolineTInstall sym s addr .tBlreRegs
  pure s

/-- The two halfwords of the instruction are stored one by one: `addr` might not be
word-aligned. The second is read after the first one is stored. -/
def trampolineTHookBeforeIns : Option State := do
  let orgins := iosElfVaddrToPaddr s.mem addr
  let proto := sym.proto .tHookbefore
  let slot := proto + BitVec.ofNat 32 (4 * tHookbeforeOrgins)
  let s := setWord s proto Proto.tHookbefore.target target
  let s := setHalf s slot (read16 s.mem orgins)
  let s := setHalf s (slot + 2#32) (read16 s.mem (orgins + 2#32))
  let (s, _) ← trampolineTInstall sym s addr .tHookbefore
  pure s

def trampolineTHookBeforeBl (chain : Word) : Option State := do
  let s := setWord s (sym.proto .tHookbeforeBl) Proto.tHookbeforeBl.target target
  let s := setWord s (sym.proto .tHookbeforeBl) tHookbeforeBlChain chain
  let (s, _) ← trampolineTInstall sym s addr .tHookbeforeBl
  pure s

def trampolineTHookBefore : Option State :=
  let blTarget := extractBlTTarget s.mem addr
  if blTarget ≠ 0#32 then trampolineTHookBeforeBl sym s addr target blTarget
  else trampolineTHookBeforeIns sym s addr target

end Install

end Stroopwafel.Trampoline
