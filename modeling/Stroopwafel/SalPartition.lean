import Stroopwafel.HaiCompanion
import Stroopwafel.SlcRedirect

set_option autoImplicit false

namespace Stroopwafel.RedNand

open Memory Arm Redirect HaiCompanion

section Wrappers

/-- The arguments of `read_func` and `write_func`. -/
structure SalArgs extends Blocks where
  deviceHandle : Word
  buf : Word
  cb : Word
  cbCtx : Word

/-- The arguments of `sync_func`, where the number of blocks is `blkCount` and no size is given. -/
structure SyncArgs extends Blocks where
  serverHandle : Word
  cb : Word
  cbCtx : Word

/-- The routines of a device. `none` is `crash_and_burn`. -/
abbrev ReadWriteFunc (β : Type) := SalArgs → Option β
abbrev SyncFunc (β : Type) := SyncArgs → Option β

def SalArgs.addOffset (args : SalArgs) (partitionOffset : Word) : SalArgs :=
  { args with toBlocks := args.toBlocks.addOffset partitionOffset }

def readWrapper {β : Type} (partitionOffset : Word) (realRead : ReadWriteFunc β) :
    ReadWriteFunc β := fun args => realRead (args.addOffset partitionOffset)

def writeWrapper {β : Type} (partitionOffset : Word) (realWrite : ReadWriteFunc β) :
    ReadWriteFunc β := fun args => realWrite (args.addOffset partitionOffset)

def syncWrapper {β : Type} (partitionOffset : Word) (realSync : SyncFunc β) : SyncFunc β :=
  fun args => realSync { args with toBlocks := args.toBlocks.addOffset partitionOffset }

def readop2Crash {β : Type} : ReadWriteFunc β := fun _ => none
def writeop2Crash {β : Type} : ReadWriteFunc β := fun _ => none

structure FSSALDeviceParams where
  deviceType : Word
  maxLbaSize : BitVec 64
  blockCount : BitVec 64
  blockSize : Word

structure FSSALAttachDeviceArg (β : Type) where
  serverHandle : Word
  params : FSSALDeviceParams
  opRead : ReadWriteFunc β
  opRead2 : ReadWriteFunc β
  opWrite : ReadWriteFunc β
  opWrite2 : ReadWriteFunc β
  opsync : SyncFunc β

def patchPartitionAttachArg {β : Type} (partitionOffset partitionSize : Word)
    (attachArg : FSSALAttachDeviceArg β) (deviceType : Word) : FSSALAttachDeviceArg β :=
  { attachArg with
    opRead := readWrapper partitionOffset attachArg.opRead
    opWrite := writeWrapper partitionOffset attachArg.opWrite
    opRead2 := readop2Crash
    opWrite2 := writeop2Crash
    opsync := syncWrapper partitionOffset attachArg.opsync
    params := { attachArg.params with
      deviceType
      maxLbaSize := (partitionSize - 1#32).setWidth 64
      blockCount := partitionSize.setWidth 64 } }

/-- `DEVTYPE_MLC` -/
def devtypeMlc : Word := 5#32

inductive Attach where
  | sal
  | scfm
  deriving DecidableEq

/-- What is attached, by which of the two functions. -/
def registerSdAsMlc {β : Type} (partitionOffset partitionSize : Word) (disableScfm : Bool)
    (sdAttachArg : FSSALAttachDeviceArg β) : Attach × FSSALAttachDeviceArg β :=
  (if disableScfm then .sal else .scfm,
    patchPartitionAttachArg partitionOffset partitionSize sdAttachArg devtypeMlc)

end Wrappers

section Hook

variable (sym : Symbols) (ios : Ios) (redmlcSizeSectors : Word)

/-- The part behind the test: the frame of the driver is undone. -/
def sdcardReadWriteCont (c : Cpu) : Cpu :=
  let c := c.pop [4#4, lr]
  let c := c.set 0#4 (c.regs 12#4)
  readWriteCallbackPatch sym ios (c.set 1#4 0#32)

/-- Only the device of type 5 goes on in the original routine, while its size is 0. -/
def sdcardReadWritePatch (c : Cpu) : Outcome :=
  let c := ldr c 4#4 0#4 0x14#32
  if c.regs 4#4 = 5#32 then
    let c := c.set 4#4 (read32 c.mem redmlcSizeSectors)
    if c.regs 4#4 = 0#32 then .original (c.set sp (c.regs sp - 0x14#32))
    else .command (sdcardReadWriteCont sym ios c)
  else .command (sdcardReadWriteCont sym ios c)

def sdcardWritePatch (c : Cpu) : Outcome :=
  sdcardReadWritePatch sym ios redmlcSizeSectors (c.set 12#4 0#32)
def sdcardReadPatch (c : Cpu) : Outcome :=
  sdcardReadWritePatch sym ios redmlcSizeSectors (c.set 12#4 1#32)

end Hook

/-- The driver of the SD card has pushed `r4` and `lr` and reached the patched instruction. -/
structure AtHook (c : Cpu) (args : SalArgs) : Prop where
  deviceHandle : c.regs 0#4 = args.deviceHandle
  lbaHi : c.regs 1#4 = args.lbaHi
  lbaLo : c.regs 2#4 = args.lbaLo
  blkCount : c.regs 3#4 = args.blkCount
  blockSize : read32 c.mem (c.regs sp + 8#32) = args.blockSize
  buf : read32 c.mem (c.regs sp + 12#32) = args.buf
  deviceType : read32 c.mem (args.deviceHandle + 0x14#32) = 6#32

theorem sdcardReadWriteCont_command (sym : Symbols) (ios : Ios) (returns : ios.Returns) (c : Cpu) :
    sdCommand (sdcardReadWriteCont sym ios c) =
      command (c.regs 12#4) (read32 c.mem (c.regs sp + 12#32)) (c.regs 3#4)
        (read32 c.mem (c.regs sp + 8#32)) (c.regs 2#4) 0xDA#32 := by
  have kept : ∀ r : Reg, r ≠ lr → r ≠ 4#4 → loadRegs c.mem [4#4, lr] (c.regs sp) c.regs r =
      c.regs r := by
    intro r link first
    simp only [loadRegs, if_neg link, if_neg first]
  unfold sdcardReadWriteCont
  rw [readWriteCallbackPatch_command sym ios returns]
  simp (disch := decide) [kept, BitVec.add_assoc]

/-- Every access to the SD card issues the command for its arguments, without the high word. -/
theorem sdcardReadWritePatch_command (sym : Symbols) (ios : Ios) (returns : ios.Returns)
    (redmlcSizeSectors read : Word) (c : Cpu) (args : SalArgs) (hook : AtHook c args) :
    ∃ d, sdcardReadWritePatch sym ios redmlcSizeSectors (c.set 12#4 read) = .command d ∧
      sdCommand d = command read args.buf args.blkCount args.blockSize args.lbaLo 0xDA#32 := by
  have other : ¬ (ldr (c.set 12#4 read) 4#4 0#4 0x14#32).regs 4#4 = 5#32 := by
    simp (disch := decide) [ldr, hook.deviceHandle, hook.deviceType]
  refine ⟨_, if_neg other, ?_⟩
  rw [sdcardReadWriteCont_command sym ios returns]
  simp (disch := decide) [ldr, hook.buf, hook.blkCount, hook.blockSize, hook.lbaLo]

/-- The low word is the sector, where the sector fits into it. -/
theorem lbaLo_sector (blocks : Blocks) (below : blocks.sector < 2 ^ 32) :
    blocks.lbaLo.toNat = blocks.sector := by
  have low := blocks.lbaLo.isLt
  unfold Blocks.sector at below ⊢
  rw [BitVec.toNat_append, ← Nat.shiftLeft_add_eq_or_of_lt low, Nat.shiftLeft_eq] at below ⊢
  omega

end Stroopwafel.RedNand
