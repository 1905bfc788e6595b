import Mathlib.Data.BitVec
import Stroopwafel.ArmExec

set_option autoImplicit false

namespace Stroopwafel.Redirect

open Memory Arm

/-- Addresses of the words that the routines refer to, and of the completion callback. -/
structure Symbols where
  redslcOffSectors : Word
  redslcSizeSectors : Word
  redslccmptOffSectors : Word
  redslccmptSizeSectors : Word
  sdcardAccessMutex : Word
  sdcardReadwriteCallback : Word

/-- The services of IOS that are called before a command is issued. -/
structure Ios where
  iosWaitSemaphore : Cpu → Cpu
  iosCreateSemaphore : Cpu → Cpu

/-- `ldr rd, [rn, #offset]` and `str rd, [rn, #offset]` -/
def ldr (c : Cpu) (rd rn : Reg) (offset : Word) : Cpu :=
  c.set rd (read32 c.mem (c.regs rn + offset))
def str (c : Cpu) (rd rn : Reg) (offset : Word) : Cpu :=
  c.store (c.regs rn + offset) (c.regs rd)

/-- The loop over `r3`, `r2` and `r6`. The comparison is signed. -/
def blockSizeAdjust (blockSize cnt offset : Word) : Word × Word × Word :=
  if (0x200#32).slt blockSize then blockSizeAdjust (blockSize >>> 1) (cnt <<< 1) (offset <<< 1)
  else (blockSize, cnt, offset)
termination_by blockSize.toNat
decreasing_by
  rename_i greater
  have nonzero : blockSize.toNat ≠ 0 := by
    intro zero
    rw [BitVec.eq_of_toNat_eq (show blockSize.toNat = (0#32).toNat from zero)] at greater
    exact absurd greater (by decide)
  rw [BitVec.toNat_ushiftRight, Nat.shiftRight_eq_div_pow]
  omega

/-- The frame of `sdcard_readwrite`, with its first four arguments saved. -/
def sdcardFrame (c : Cpu) : Cpu :=
  let c := c.push [4#4, 5#4, 6#4, lr]
  let c := c.set sp (c.regs sp - 48#32)
  let c := c.set 4#4 (c.regs sp + 0xC#32)
  let c := c.set 5#4 (c.regs sp + 4#32)
  let c := ldr c 6#4 sp 64#32
  c.push [0#4, 1#4, 2#4, 3#4]

/-- `sdcard_readwrite` up to the loop: both semaphores are taken. -/
def sdcardLock (sym : Symbols) (ios : Ios) (c : Cpu) : Cpu :=
  let c := sdcardFrame c
  let c := c.set 0#4 sym.sdcardAccessMutex
  let c := ldr c 0#4 0#4 0#32
  let c := ios.iosWaitSemaphore (c.set 1#4 0#32)
  let c := ios.iosCreateSemaphore ((c.set 0#4 1#32).set 1#4 1#32)
  let c := str c 0#4 5#4 0#32
  let c := ios.iosWaitSemaphore (c.set 1#4 0#32)
  c.pop [0#4, 1#4, 2#4, 3#4]

/-- The rest, up to `bl REL_FS_SDIO_DOREADWRITECOMMAND`. -/
def sdcardCommand (sym : Symbols) (c : Cpu) : Cpu :=
  let (blockSize, cnt, offset) := blockSizeAdjust (c.regs 3#4) (c.regs 2#4) (c.regs 6#4)
  let c := ((c.set 3#4 blockSize).set 2#4 cnt).set 6#4 offset
  let c := str c 2#4 4#4 0x00#32
  let c := str c 3#4 4#4 0x04#32
  let c := if c.regs 0#4 ≠ 0#32 then c.set 0#4 3#32 else c
  let c := str c 0#4 4#4 0x08#32
  let c := str c 1#4 4#4 0x0C#32
  let c := c.set 0#4 0#32
  let c := str c 0#4 4#4 0x10#32
  let c := str c 6#4 4#4 0x14#32
  let c := str c 0#4 4#4 0x18#32
  let c := str c 0#4 4#4 0x1C#32
  let c := c.set 0#4 (~~~0#32)
  let c := str c 0#4 4#4 0x20#32
  let c := ldr c 0#4 sp (64#32 + 8#32)
  let c := c.set 1#4 (c.regs 4#4)
  let c := c.set 2#4 (c.regs 6#4)
  let c := c.set 3#4 sym.sdcardReadwriteCallback
  str c 5#4 sp 0#32

def sdcardReadwrite (sym : Symbols) (ios : Ios) (c : Cpu) : Cpu :=
  sdcardCommand sym (sdcardLock sym ios c)

/-- The frame of `readWriteCallback_patch`, with the arguments of the inner call. -/
def readWriteFrame (c : Cpu) : Cpu :=
  let c := c.push [0#4, 1#4, 2#4, 3#4, 4#4, 5#4, lr]
  let c := c.set 5#4 0xDA#32
  let c := str c 5#4 sp 8#32
  let c := c.set 5#4 (c.regs sp + 0xC#32)
  let c := c.set 2#4 (c.regs 2#4 + c.regs 1#4)
  let c := str c 2#4 sp 0#32
  let c := str c 5#4 sp 4#32
  let c := ldr c 1#4 sp (28#32 + 4#32)
  let c := c.set 2#4 (c.regs 3#4)
  ldr c 3#4 sp 28#32

def readWriteCallbackPatch (sym : Symbols) (ios : Ios) (c : Cpu) : Cpu :=
  sdcardReadwrite sym ios (readWriteFrame c)

/-- Four SD sectors make one block of the SLC, so the start of the partition is divided. -/
def slcOffset (sym : Symbols) (c : Cpu) : Cpu :=
  let c := c.push [2#4]
  let c := ldr c 2#4 0#4 4#32
  let c := c.set 0#4 (c.regs 1#4)
  let c := c.set 1#4 (read32 c.mem
    (if c.regs 2#4 ≠ 0#32 then sym.redslcOffSectors else sym.redslccmptOffSectors))
  let c := c.set 1#4 (c.regs 1#4 >>> 2)
  c.pop [2#4]

def slcReadWritePatch (sym : Symbols) (ios : Ios) (c : Cpu) : Cpu :=
  readWriteCallbackPatch sym ios (slcOffset sym c)

/-- A transfer goes on in the original routine, or issues a command for the SD card. -/
inductive Outcome where
  | original (c : Cpu)
  | command (c : Cpu)

/-- The size of the partition of the device, in `r1`. -/
def loadSize (sym : Symbols) (c : Cpu) : Cpu :=
  let c := c.push [0#4, 1#4]
  let c := ldr c 1#4 0#4 4#32
  c.set 1#4 (read32 c.mem
    (if c.regs 1#4 ≠ 0#32 then sym.redslcSizeSectors else sym.redslccmptSizeSectors))

/-- The test that the four entry points begin with. -/
def redirect (sym : Symbols) (cont : Cpu → Cpu) (c : Cpu) : Outcome :=
  let c := loadSize sym c
  let size := c.regs 1#4
  let c := c.pop [0#4, 1#4]
  if size ≠ 0#32 then .command (cont c)
  else .original (c.push [4#4, 5#4, 6#4, 7#4, 8#4, lr])

def slcRead1Cont (sym : Symbols) (ios : Ios) (c : Cpu) : Cpu :=
  slcReadWritePatch sym ios (c.set 1#4 1#32)

def slcWrite1Cont (sym : Symbols) (ios : Ios) (c : Cpu) : Cpu :=
  slcReadWritePatch sym ios (c.set 1#4 0#32)

/-- The arguments behind the frame are handed over in the order of the first routines. -/
def handOver (c : Cpu) (frame : Word) : Cpu :=
  let c := c.set sp (c.regs sp - 0x10#32)
  let c := ldr c 4#4 sp (frame + 0x00#32)
  let c := str c 4#4 sp 0x0#32
  let c := ldr c 4#4 sp (frame + 0x08#32)
  let c := str c 4#4 sp 0x4#32
  let c := ldr c 4#4 sp (frame + 0x10#32)
  let c := str c 4#4 sp 0x8#32
  let c := ldr c 4#4 sp (frame + 0x14#32)
  str c 4#4 sp 0xC#32

def slcRead2Cont (sym : Symbols) (ios : Ios) (c : Cpu) : Cpu :=
  slcRead1Cont sym ios (handOver (c.push [0#4, 1#4, 2#4, 3#4, 4#4, 5#4, lr]) (0x10#32 + 28#32))

def slcWrite2Cont (sym : Symbols) (ios : Ios) (c : Cpu) : Cpu :=
  slcWrite1Cont sym ios (handOver (c.push [0#4, 1#4, 2#4, 3#4, 4#4, lr]) (0x10#32 + 24#32))

/-- The four routines that are redirected. -/
def slcRead1Patch (sym : Symbols) (ios : Ios) : Cpu → Outcome := redirect sym (slcRead1Cont sym ios)
def slcWrite1Patch (sym : Symbols) (ios : Ios) : Cpu → Outcome :=
  redirect sym (slcWrite1Cont sym ios)
def slcRead2Patch (sym : Symbols) (ios : Ios) : Cpu → Outcome := redirect sym (slcRead2Cont sym ios)
def slcWrite2Patch (sym : Symbols) (ios : Ios) : Cpu → Outcome :=
  redirect sym (slcWrite2Cont sym ios)

/-- A called routine keeps `r4` to `r11` and the stack pointer, and the frames above it. -/
structure Returns (f : Cpu → Cpu) : Prop where
  saved : ∀ c r, r ∈ [4#4, 5#4, 6#4, 7#4, 8#4, 9#4, 10#4, 11#4, sp] → (f c).regs r = c.regs r
  frames : ∀ c, Same c.mem (f c).mem (c.regs sp) 256

structure Ios.Returns (ios : Ios) : Prop where
  waitSemaphore : Redirect.Returns ios.iosWaitSemaphore
  createSemaphore : Redirect.Returns ios.iosCreateSemaphore

/-- The parameters of the command, and the arguments that go with them. -/
structure SdCommand where
  cnt : Word
  blockSize : Word
  type : Word
  dataPtr : Word
  offsetHigh : Word
  offsetLow : Word
  device : Word
  offsetBlocks : Word
  deriving DecidableEq

def sdCommand (c : Cpu) : SdCommand where
  cnt := read32 c.mem (c.regs 1#4)
  blockSize := read32 c.mem (c.regs 1#4 + 0x04#32)
  type := read32 c.mem (c.regs 1#4 + 0x08#32)
  dataPtr := read32 c.mem (c.regs 1#4 + 0x0C#32)
  offsetHigh := read32 c.mem (c.regs 1#4 + 0x10#32)
  offsetLow := read32 c.mem (c.regs 1#4 + 0x14#32)
  device := c.regs 0#4
  offsetBlocks := c.regs 2#4

/-- The command for these arguments. -/
def command (read dataPtr cnt blockSize offset device : Word) : SdCommand :=
  let (blockSize, cnt, offset) := blockSizeAdjust blockSize cnt offset
  ⟨cnt, blockSize, if read ≠ 0#32 then 3#32 else 0#32, dataPtr, 0#32, offset, device, offset⟩

/-- The second half writes the parameters into the frame of the first half. -/
theorem sdcardCommand_eq (sym : Symbols) (c : Cpu) (frame : Word) (top : c.regs sp = frame)
    (params : c.regs 4#4 = frame + 0xC#32) :
    sdCommand (sdcardCommand sym c) =
      command (c.regs 0#4) (c.regs 1#4) (c.regs 2#4) (c.regs 3#4) (c.regs 6#4)
        (read32 c.mem (frame + 72#32)) := by
  unfold sdcardCommand command
  generalize blockSizeAdjust (c.regs 3#4) (c.regs 2#4) (c.regs 6#4) = adjusted
  obtain ⟨blockSize, cnt, offset⟩ := adjusted
  simp only [sdCommand, str, ldr]
  by_cases read : c.regs 0#4 ≠ 0#32
  · simp (disch := decide) [read, top, params, BitVec.add_assoc, read_write_offset,
      read_write_first]
  · rw [ne_eq, Decidable.not_not] at read
    simp (disch := decide) [read, top, params, BitVec.add_assoc, read_write_offset,
      read_write_first]

theorem sub_literal (base : Word) (i j : Word) : base + i - j = base + (i - j) := by
  grind

/-- The frame below `base + 80` of a call with the registers and the stack of `c`. -/
structure Framed (c c' : Cpu) (base : Word) : Prop where
  top : c'.regs sp = base
  params : c'.regs 4#4 = base + 28#32
  semaphore : c'.regs 5#4 = base + 20#32
  offset : c'.regs 6#4 = read32 c.mem (base + 80#32)
  arguments : WordsAt c'.mem base [c.regs 0#4, c.regs 1#4, c.regs 2#4, c.regs 3#4]
  caller : ∀ i, 80 ≤ i → i < 252 → read32 c'.mem (base + BitVec.ofNat 32 i) =
    read32 c.mem (base + BitVec.ofNat 32 i)

theorem sdcardFrame_framed (c : Cpu) (base : Word) (top : c.regs sp = base + 80#32) :
    Framed c (sdcardFrame c) base := by
  unfold sdcardFrame
  simp only [ldr]
  refine ⟨?_, ?_, ?_, ?_, ?_, ?_⟩
  · simp (disch := decide) [top, sub_literal]
  · simp (disch := decide) [top, sub_literal, BitVec.add_assoc]
  · simp (disch := decide) [top, sub_literal, BitVec.add_assoc]
  · simp (disch := decide) [top, sub_literal, BitVec.add_assoc, writeWords, read_write_offset]
  · have saved := writeWords_wordsAt (c.push [4#4, 5#4, 6#4, lr]).mem base
      [c.regs 0#4, c.regs 1#4, c.regs 2#4, c.regs 3#4] (by simp)
    simpa (disch := decide) [top, sub_literal, BitVec.add_assoc] using saved
  · intro i lower upper
    simp (disch := first | decide | omega) [top, sub_literal, BitVec.add_assoc, writeWords,
      read_write_offset, read_write_first]

/-- A call keeps the frame. -/
theorem Framed.call {c c' d : Cpu} {base : Word} (framed : Framed c c' base)
    (saved : ∀ r, r ∈ [4#4, 5#4, 6#4, sp] → d.regs r = c'.regs r)
    (frames : Same c'.mem d.mem base 256) : Framed c d base where
  top := (saved sp (by decide)).trans framed.top
  params := (saved 4#4 (by decide)).trans framed.params
  semaphore := (saved 5#4 (by decide)).trans framed.semaphore
  offset := (saved 6#4 (by decide)).trans framed.offset
  arguments := (frames.mono (by simp)).wordsAt framed.arguments
  caller i lower upper := by
    rw [(frames.sub i (by omega) : Same c'.mem d.mem _ 4).read32]
    exact framed.caller i lower upper

/-- The semaphore is stored between the saved arguments and the parameters. -/
theorem Framed.store {c c' : Cpu} {base : Word} (framed : Framed c c' base) (value : Word) :
    Framed c (c'.store (base + 20#32) value) base where
  top := framed.top
  params := framed.params
  semaphore := framed.semaphore
  offset := framed.offset
  arguments := by
    have apart : Apart base 16 (base + 20#32) 4 := by
      have order := apart_offsets base 0 20 16 4 (by decide) (by decide) (by decide)
      rwa [BitVec.add_zero] at order
    exact (write32_apart c'.mem base _ 16 value apart).wordsAt framed.arguments
  caller i lower upper := by
    rw [Cpu.store_mem, read_write_offset _ _ _ _ _ (by omega) (by decide) (by omega)]
    exact framed.caller i lower upper

theorem Returns.call {f : Cpu → Cpu} (returns : Returns f) {c c' d : Cpu} {base : Word}
    (framed : Framed c c' base) (saved : ∀ r, r ∈ [4#4, 5#4, 6#4, sp] → d.regs r = c'.regs r)
    (same : d.mem = c'.mem) : Framed c (f d) base := by
  have frames := returns.frames d
  rw [saved sp (by decide), framed.top, same] at frames
  refine framed.call ?_ frames
  intro r listed
  rw [returns.saved d r (by revert listed; revert r; decide), saved r listed]

theorem sdcardLock_spec (sym : Symbols) (ios : Ios) (returns : ios.Returns) (c : Cpu) (base : Word)
    (top : c.regs sp = base + 80#32) :
    let d := sdcardLock sym ios c
    d.regs sp = base + 16#32 ∧ d.regs 4#4 = base + 28#32 ∧
      d.regs 6#4 = read32 c.mem (base + 80#32) ∧
      read32 d.mem (base + 88#32) = read32 c.mem (base + 88#32) ∧
      d.regs 0#4 = c.regs 0#4 ∧ d.regs 1#4 = c.regs 1#4 ∧ d.regs 2#4 = c.regs 2#4 ∧
      d.regs 3#4 = c.regs 3#4 := by
  have entered := sdcardFrame_framed c base top
  have locked := returns.waitSemaphore.call
    (d := (ldr ((sdcardFrame c).set 0#4 sym.sdcardAccessMutex) 0#4 0#4 0#32).set 1#4 0#32)
    entered (by simp (disch := decide) [ldr]) rfl
  simp only [sdcardLock]
  generalize ios.iosWaitSemaphore ((ldr ((sdcardFrame c).set 0#4 sym.sdcardAccessMutex)
    0#4 0#4 0#32).set 1#4 0#32) = c1 at locked
  have created := returns.createSemaphore.call (d := (c1.set 0#4 1#32).set 1#4 1#32) locked
    (by simp (disch := decide)) rfl
  generalize ios.iosCreateSemaphore ((c1.set 0#4 1#32).set 1#4 1#32) = c2 at created
  have waited := returns.waitSemaphore.call (d := (str c2 0#4 5#4 0#32).set 1#4 0#32)
    (created.store (c2.regs 0#4)) (by simp (disch := decide) [str])
    (by simp [str, created.semaphore])
  generalize ios.iosWaitSemaphore ((str c2 0#4 5#4 0#32).set 1#4 0#32) = c3 at waited
  have args := waited.arguments
  have arg0 := args 0 (by simp)
  have arg1 := args 1 (by simp)
  have arg2 := args 2 (by simp)
  have arg3 := args 3 (by simp)
  simp only [Nat.mul_zero, BitVec.add_zero, List.getElem_cons_zero, List.getElem_cons_succ]
    at arg0 arg1 arg2 arg3
  refine ⟨?_, ?_, ?_, ?_, ?_, ?_, ?_, ?_⟩
  · simp [waited.top]
  · simp (disch := decide) [loadRegs, waited.params]
  · simp (disch := decide) [loadRegs, waited.offset]
  · exact waited.caller 88 (by decide) (by decide)
  · simp (disch := decide) [loadRegs, waited.top, arg0]
  · simp (disch := decide) [loadRegs, waited.top, arg1]
  · simp (disch := decide) [loadRegs, waited.top, BitVec.add_assoc, arg2]
  · simp (disch := decide) [loadRegs, waited.top, BitVec.add_assoc, arg3]

theorem sdcardReadwrite_command (sym : Symbols) (ios : Ios) (returns : ios.Returns) (c : Cpu) :
    sdCommand (sdcardReadwrite sym ios c) =
      command (c.regs 0#4) (c.regs 1#4) (c.regs 2#4) (c.regs 3#4) (read32 c.mem (c.regs sp))
        (read32 c.mem (c.regs sp + 8#32)) := by
  have top : c.regs sp = (c.regs sp - 80#32) + 80#32 := (BitVec.sub_add_cancel _ _).symm
  obtain ⟨frame, params, offset, device, arg0, arg1, arg2, arg3⟩ :=
    sdcardLock_spec sym ios returns c _ top
  have params' : (sdcardLock sym ios c).regs 4#4 = c.regs sp - 80#32 + 16#32 + 0xC#32 := by
    rw [params, BitVec.add_assoc]
    rfl
  rw [sdcardReadwrite, sdcardCommand_eq sym _ _ frame params', arg0, arg1, arg2, arg3, offset,
    BitVec.sub_add_cancel, BitVec.add_assoc]
  rw [show c.regs sp - 80#32 + (16#32 + 72#32) = c.regs sp - 80#32 + 88#32 from rfl, device]
  rw [show c.regs sp - 80#32 + 88#32 = c.regs sp + 8#32 by grind]

theorem readWriteFrame_spec (c : Cpu) (base : Word) (top : c.regs sp = base + 28#32) :
    let d := readWriteFrame c
    d.regs 0#4 = c.regs 0#4 ∧ d.regs 1#4 = read32 c.mem (base + 32#32) ∧
      d.regs 2#4 = c.regs 3#4 ∧ d.regs 3#4 = read32 c.mem (base + 28#32) ∧ d.regs sp = base ∧
      read32 d.mem base = c.regs 2#4 + c.regs 1#4 ∧ read32 d.mem (base + 8#32) = 0xDA#32 := by
  simp only [readWriteFrame, ldr, str]
  refine ⟨?_, ?_, ?_, ?_, ?_, ?_, ?_⟩
  · simp (disch := decide)
  · simp (disch := decide) [top, BitVec.add_assoc, writeWords, read_write_offset,
      read_write_first]
  · simp (disch := decide)
  · simp (disch := decide) [top, BitVec.add_assoc, writeWords, read_write_offset,
      read_write_first]
  · simp (disch := decide) [top]
  · simp (disch := decide) [top, BitVec.add_assoc, writeWords, read_first_write]
  · simp (disch := decide) [top, BitVec.add_assoc, writeWords, read_write_offset,
      read_write_first]

theorem readWriteCallbackPatch_command (sym : Symbols) (ios : Ios) (returns : ios.Returns)
    (c : Cpu) :
    sdCommand (readWriteCallbackPatch sym ios c) =
      command (c.regs 0#4) (read32 c.mem (c.regs sp + 4#32)) (c.regs 3#4)
        (read32 c.mem (c.regs sp)) (c.regs 2#4 + c.regs 1#4) 0xDA#32 := by
  obtain ⟨base, top⟩ : ∃ base, c.regs sp = base + 28#32 :=
    ⟨c.regs sp - 28#32, (BitVec.sub_add_cancel _ _).symm⟩
  obtain ⟨read, dataPtr, cnt, blockSize, frame, offset, device⟩ := readWriteFrame_spec c base top
  rw [readWriteCallbackPatch, sdcardReadwrite_command sym ios returns, read, dataPtr, cnt,
    blockSize, frame, offset, device, top, BitVec.add_assoc]
  rfl

/-- The start of the partition of a device, in sectors of the SD card. -/
def start (sym : Symbols) (c : Cpu) : Word :=
  read32 c.mem (if read32 c.mem (c.regs 0#4 + 4#32) ≠ 0#32 then sym.redslcOffSectors
    else sym.redslccmptOffSectors)

/-- Its size. -/
def size (sym : Symbols) (c : Cpu) : Word :=
  read32 c.mem (if read32 c.mem (c.regs 0#4 + 4#32) ≠ 0#32 then sym.redslcSizeSectors
    else sym.redslccmptSizeSectors)

/-- The word is not in the part of the stack that a transfer uses. -/
def OffStack (top a : Word) : Prop := Apart a 4 (top - 512#32) 512

/-- The device and the four words of the configuration are not on the stack. -/
structure Placed (sym : Symbols) (c : Cpu) : Prop where
  device : OffStack (c.regs sp) (c.regs 0#4 + 4#32)
  redslcOff : OffStack (c.regs sp) sym.redslcOffSectors
  redslcSize : OffStack (c.regs sp) sym.redslcSizeSectors
  redslccmptOff : OffStack (c.regs sp) sym.redslccmptOffSectors
  redslccmptSize : OffStack (c.regs sp) sym.redslccmptSizeSectors

/-- `d` is deeper in the stack of `c`, with the arguments in the same registers. -/
structure Deeper (c d : Cpu) (k : Nat) : Prop where
  top : d.regs sp = c.regs sp - BitVec.ofNat 32 k
  device : d.regs 0#4 = c.regs 0#4
  offset : d.regs 2#4 = c.regs 2#4
  cnt : d.regs 3#4 = c.regs 3#4
  offStack : ∀ a, OffStack (c.regs sp) a → read32 d.mem a = read32 c.mem a

/-- Words that are written below the entry are not seen off the stack. -/
theorem offStack_write {top a : Word} (off : OffStack top a) (m : Mem) (q : Nat) (ws : List Word)
    (depth : q ≤ 512) (fits : 4 * ws.length ≤ q) :
    read32 (writeWords m (top - BitVec.ofNat 32 q) ws) a = read32 m a :=
  (writeWords_below m q ws off depth fits).read32

theorem slcOffset_spec (sym : Symbols) (c d : Cpu) (placed : Placed sym c) {k : Nat}
    (deeper : Deeper c d k) (depth : k ≤ 256) :
    let e := slcOffset sym d
    e.regs 0#4 = d.regs 1#4 ∧ e.regs 1#4 = start sym c >>> 2 ∧ e.regs 2#4 = c.regs 2#4 ∧
      e.regs 3#4 = c.regs 3#4 ∧ e.regs sp = d.regs sp ∧
      read32 e.mem (d.regs sp) = read32 d.mem (d.regs sp) ∧
      read32 e.mem (d.regs sp + 4#32) = read32 d.mem (d.regs sp + 4#32) := by
  have kept : ∀ a, OffStack (c.regs sp) a →
      read32 (write32 d.mem (d.regs sp - 4#32) (c.regs 2#4)) a = read32 c.mem a := by
    intro a off
    rw [← deeper.offStack a off, deeper.top]
    rw [show c.regs sp - BitVec.ofNat 32 k - 4#32 = c.regs sp - BitVec.ofNat 32 (k + 4) from
      sub_ofNat_sub _ _ 4]
    exact offStack_write off d.mem (k + 4) [c.regs 2#4] (by omega) (by simp)
  have start' : read32 (write32 d.mem (d.regs sp - 4#32) (c.regs 2#4))
      (if read32 (write32 d.mem (d.regs sp - 4#32) (c.regs 2#4)) (c.regs 0#4 + 4#32) = 0#32 then
        sym.redslccmptOffSectors else sym.redslcOffSectors) = start sym c := by
    unfold start
    rw [kept _ placed.device]
    by_cases slc : read32 c.mem (c.regs 0#4 + 4#32) = 0#32
    · rw [if_pos slc, if_neg (not_not_intro slc), kept _ placed.redslccmptOff]
    · rw [if_neg slc, if_pos slc, kept _ placed.redslcOff]
  obtain ⟨base, top⟩ : ∃ base, d.regs sp = base + 4#32 :=
    ⟨d.regs sp - 4#32, (BitVec.sub_add_cancel _ _).symm⟩
  rw [top, sub_literal] at start'
  simp only [slcOffset, ldr]
  refine ⟨?_, ?_, ?_, ?_, ?_, ?_, ?_⟩
  · simp (disch := decide) [loadRegs]
  · have shifted := congrArg (fun x : Word => x >>> 2) start'
    simpa (disch := decide) [loadRegs, top, sub_literal, writeWords, deeper.device, deeper.offset]
      using shifted
  · simp (disch := decide) [loadRegs, top, writeWords, deeper.offset]
  · simp (disch := decide) [loadRegs, deeper.cnt]
  · simp (disch := decide) [top]
  · simp (disch := decide) [top, writeWords, read_write_first]
  · simp (disch := decide) [top, BitVec.add_assoc, writeWords, read_write_first]

theorem slcReadWritePatch_command (sym : Symbols) (ios : Ios) (returns : ios.Returns) (c d : Cpu)
    (placed : Placed sym c) {k : Nat} (deeper : Deeper c d k) (depth : k ≤ 256) :
    sdCommand (slcReadWritePatch sym ios d) =
      command (d.regs 1#4) (read32 d.mem (d.regs sp + 4#32)) (c.regs 3#4)
        (read32 d.mem (d.regs sp)) (c.regs 2#4 + start sym c >>> 2) 0xDA#32 := by
  obtain ⟨read, offset, block, cnt, top, blockSize, dataPtr⟩ :=
    slcOffset_spec sym c d placed deeper depth
  rw [slcReadWritePatch, readWriteCallbackPatch_command sym ios returns, read, offset, block, cnt,
    top, blockSize, dataPtr]

/-- The state in which an entry point goes on: only memory below the stack has changed. -/
structure Entered (c d : Cpu) : Prop where
  regs : d.regs = c.regs
  mem : d.mem = writeWords c.mem (c.regs sp - 8#32) [c.regs 0#4, c.regs 1#4]

theorem loadSize_eq (sym : Symbols) (c : Cpu) (placed : Placed sym c) :
    (loadSize sym c).regs 1#4 = size sym c := by
  have kept : ∀ a, OffStack (c.regs sp) a →
      read32 (writeWords c.mem (c.regs sp - 8#32) [c.regs 0#4, c.regs 1#4]) a = read32 c.mem a :=
    fun a off => offStack_write off c.mem 8 _ (by decide) (by simp)
  unfold size
  by_cases slc : read32 c.mem (c.regs 0#4 + 4#32) = 0#32
  · rw [if_neg (not_not_intro slc), ← kept _ placed.redslccmptSize]
    rw [← kept _ placed.device] at slc
    simp (disch := decide) [loadSize, ldr, slc]
  · rw [if_pos slc, ← kept _ placed.redslcSize]
    rw [← kept _ placed.device] at slc
    simp (disch := decide) [loadSize, ldr, slc]

theorem loadSize_entered (sym : Symbols) (c : Cpu) :
    Entered c ((loadSize sym c).pop [0#4, 1#4]) := by
  obtain ⟨base, top⟩ : ∃ base, c.regs sp = base + 8#32 :=
    ⟨c.regs sp - 8#32, (BitVec.sub_add_cancel _ _).symm⟩
  refine ⟨?_, ?_⟩
  · funext r
    by_cases stack : r = sp
    · subst stack
      simp (disch := decide) [loadSize, ldr, top]
    · by_cases first : r = 0#4
      · subst first
        simp (disch := decide) [loadSize, ldr, top, loadRegs, writeWords,
          read_first_write]
      · by_cases second : r = 1#4
        · subst second
          simp (disch := decide) [loadSize, ldr, top, loadRegs, writeWords]
        · simp (disch := first | assumption | decide) [loadSize, ldr, loadRegs, first,
            second]
  · simp (disch := decide) [loadSize, ldr]

/-- A transfer is redirected exactly when the partition of the device has a size. -/
theorem redirect_eq (sym : Symbols) (cont : Cpu → Cpu) (c : Cpu) (placed : Placed sym c) :
    ∃ d, Entered c d ∧ redirect sym cont c =
      if size sym c ≠ 0#32 then .command (cont d)
      else .original (d.push [4#4, 5#4, 6#4, 7#4, 8#4, lr]) := by
  refine ⟨_, loadSize_entered sym c, ?_⟩
  simp only [redirect, loadSize_eq sym c placed]

theorem Entered.deeper {c d : Cpu} (entered : Entered c d) : Deeper c d 0 where
  top := by rw [entered.regs, BitVec.sub_zero]
  device := by rw [entered.regs]
  offset := by rw [entered.regs]
  cnt := by rw [entered.regs]
  offStack a off := by
    rw [entered.mem]
    exact offStack_write off c.mem 8 _ (by decide) (by simp)

/-- Words that are written below the stack pointer are not in the caller's stack. -/
theorem above_write (m : Mem) (top : Word) (q i : Nat) (ws : List Word) (fits : 4 * ws.length ≤ q)
    (depth : q ≤ 512) (bound : i ≤ 512) :
    read32 (writeWords m (top - BitVec.ofNat 32 q) ws) (top + BitVec.ofNat 32 i) =
      read32 m (top + BitVec.ofNat 32 i) := by
  have place : top + BitVec.ofNat 32 i = top - BitVec.ofNat 32 q + BitVec.ofNat 32 (q + i) := by
    rw [BitVec.ofNat_add]
    grind
  have apart := apart_offsets (top - BitVec.ofNat 32 q) (q + i) 0 4 (4 * ws.length) (by omega)
    (by omega) (by omega)
  rw [BitVec.add_zero] at apart
  rw [place, (writeWords_apart m _ _ 4 ws apart).read32]

theorem Entered.caller {c d : Cpu} (entered : Entered c d) (i : Nat) (bound : i ≤ 512) :
    read32 d.mem (c.regs sp + BitVec.ofNat 32 i) =
      read32 c.mem (c.regs sp + BitVec.ofNat 32 i) := by
  rw [entered.mem]
  exact above_write c.mem _ 8 i _ (by simp) (by decide) bound

theorem handOver_spec (c : Cpu) (base : Word) (frame : Nat) (top : c.regs sp = base + 16#32)
    (above : 16 ≤ frame) (bound : frame < 64) :
    let d := handOver c (BitVec.ofNat 32 frame)
    d.regs sp = base ∧ (∀ r, r ≠ sp → r ≠ 4#4 → d.regs r = c.regs r) ∧
      read32 d.mem base = read32 c.mem (base + BitVec.ofNat 32 frame) ∧
      read32 d.mem (base + 4#32) = read32 c.mem (base + BitVec.ofNat 32 (frame + 8)) ∧
      ∀ a, Apart a 4 base 16 → read32 d.mem a = read32 c.mem a := by
  have plus : ∀ i : Nat, base + (BitVec.ofNat 32 frame + BitVec.ofNat 32 i) =
      base + BitVec.ofNat 32 (frame + i) := by
    intro i
    rw [BitVec.ofNat_add]
  simp only [handOver, ldr, str]
  refine ⟨?_, ?_, ?_, ?_, ?_⟩
  · simp (disch := decide) [top]
  · intro r stack scratch
    simp (disch := assumption)
  · simp (disch := first | decide | omega) [top, plus, read_first_write,
      read_write_offset, read_write_first]
  · simp (disch := first | decide | omega) [top, plus, read_write_offset,
      read_write_first]
  · intro a apart
    have words : ∀ m : Mem, ∀ i w, i + 4 ≤ 16 →
        read32 (write32 m (base + BitVec.ofNat 32 i) w) a = read32 m a := by
      intro m i w inside
      exact read32_write32_apart m a _ w (apart.comm.sub i inside).comm
    have first : ∀ (m : Mem) w, read32 (write32 m base w) a = read32 m a := by
      intro m w
      exact read32_write32_apart m a _ w (apart.mono (by decide) (by decide))
    simp (disch := decide) [top, words, first]

/-- The second routines enter the first ones with these registers and arguments. -/
theorem handOver_deeper {c d : Cpu} (entered : Entered c d) (rs : List Reg) (n : Nat)
    (count : 4 * rs.length = n) (bound : n ≤ 32) :
    let e := handOver (d.push rs) (0x10#32 + BitVec.ofNat 32 n)
    Deeper c e (n + 16) ∧ read32 e.mem (e.regs sp) = read32 c.mem (c.regs sp) ∧
      read32 e.mem (e.regs sp + 4#32) = read32 c.mem (c.regs sp + 8#32) := by
  have pushed : (d.push rs).regs sp = c.regs sp - BitVec.ofNat 32 (n + 16) + 16#32 := by
    rw [Cpu.push_sp, entered.regs, count, ← sub_ofNat_sub]
    grind
  have frame : 0x10#32 + BitVec.ofNat 32 n = BitVec.ofNat 32 (16 + n) := by
    rw [BitVec.ofNat_add]
  have pushedMem : (d.push rs).mem =
      writeWords d.mem (c.regs sp - BitVec.ofNat 32 n) (rs.map d.regs) := by
    rw [Cpu.push_mem, entered.regs, count]
  have argument : ∀ i ≤ 512,
      read32 (d.push rs).mem (c.regs sp - BitVec.ofNat 32 (n + 16) + BitVec.ofNat 32 (16 + n + i)) =
        read32 c.mem (c.regs sp + BitVec.ofNat 32 i) := by
    intro i inside
    have place : c.regs sp - BitVec.ofNat 32 (n + 16) + BitVec.ofNat 32 (16 + n + i) =
        c.regs sp + BitVec.ofNat 32 i := by
      rw [BitVec.ofNat_add (16 + n) i, Nat.add_comm 16 n]
      grind
    rw [place, pushedMem, above_write _ _ n i _ (by simp [count]) (by omega) inside,
      entered.caller i inside]
  rw [frame]
  obtain ⟨top, kept, blockSize, dataPtr, outside⟩ :=
    handOver_spec (d.push rs) _ (16 + n) pushed (by omega) (by omega)
  have regs : ∀ r, r ≠ sp → r ≠ 4#4 →
      (handOver (d.push rs) (BitVec.ofNat 32 (16 + n))).regs r = c.regs r := by
    intro r stack scratch
    rw [kept r stack scratch, Cpu.push_other d r rs stack, entered.regs]
  refine ⟨⟨top, regs _ (by decide) (by decide), regs _ (by decide) (by decide),
    regs _ (by decide) (by decide), ?_⟩, ?_, ?_⟩
  · intro a off
    have below : Apart a 4 (c.regs sp - BitVec.ofNat 32 (n + 16)) 16 :=
      Apart.below off (n + 16) 16 (by omega) (by omega)
    rw [outside a below, pushedMem, offStack_write off _ n _ (by omega) (by simp [count]),
      entered.deeper.offStack a off]
  · rw [top, blockSize]
    have first := argument 0 (by decide)
    rwa [Nat.add_zero, BitVec.add_zero] at first
  · rw [top, dataPtr]
    exact argument 8 (by decide)

theorem blockSizeAdjust_power (k : Nat) (bound : k ≤ 21) (blockSize cnt offset : Word)
    (power : blockSize.toNat = 0x200 * 2 ^ k) :
    blockSizeAdjust blockSize cnt offset = (0x200#32, cnt <<< k, offset <<< k) := by
  induction k generalizing blockSize cnt offset with
  | zero =>
      have final : blockSize = 0x200#32 := BitVec.eq_of_toNat_eq power
      rw [blockSizeAdjust, final, if_neg (by decide), BitVec.shiftLeft_zero, BitVec.shiftLeft_zero]
  | succ k ih =>
      have small : 2 ^ (k + 1) ≤ 2 ^ 21 := Nat.pow_le_pow_right (by decide) bound
      have large : 2 ^ 0 ≤ 2 ^ k := Nat.pow_le_pow_right (by decide) (Nat.zero_le k)
      rw [Nat.pow_succ] at power small
      have greater : (0x200#32).slt blockSize = true := by
        have value : (0x200#32).toInt = 512 := rfl
        rw [BitVec.slt_eq_decide, decide_eq_true_eq, value,
          BitVec.toInt_eq_toNat_of_lt (by omega)]
        omega
      have half : (blockSize >>> 1).toNat = 0x200 * 2 ^ k := by
        rw [BitVec.toNat_ushiftRight, Nat.shiftRight_eq_div_pow]
        omega
      rw [blockSizeAdjust, if_pos greater, ih (by omega) _ _ _ half, ← BitVec.shiftLeft_add,
        ← BitVec.shiftLeft_add, Nat.add_comm]

/-- The entry points of the SLC driver that are patched. -/
inductive Entry where
  | read1
  | write1
  | read2
  | write2

def Entry.patch (sym : Symbols) (ios : Ios) : Entry → Cpu → Outcome
  | read1 => slcRead1Patch sym ios
  | write1 => slcWrite1Patch sym ios
  | read2 => slcRead2Patch sym ios
  | write2 => slcWrite2Patch sym ios

def Entry.read : Entry → Word
  | read1 | read2 => 1#32
  | write1 | write2 => 0#32

/-- Where the caller has the pointer to the data, behind the block size. -/
def Entry.dataPtr : Entry → Word
  | read1 | write1 => 4#32
  | read2 | write2 => 8#32

section Entries

variable (sym : Symbols) (ios : Ios) (returns : ios.Returns) (entry : Entry) (c : Cpu)
  (placed : Placed sym c)
include placed

/-- A device without a partition goes on in the original routine, with its registers. -/
theorem patch_original (empty : size sym c = 0#32) :
    ∃ d, entry.patch sym ios c = .original d ∧ (∀ r, r ≠ sp → d.regs r = c.regs r) ∧
      d.regs sp = c.regs sp - 24#32 := by
  have same : ∀ cont, ∃ d, redirect sym cont c = .original d ∧ (∀ r, r ≠ sp → d.regs r = c.regs r) ∧
      d.regs sp = c.regs sp - 24#32 := by
    intro cont
    obtain ⟨d, entered, outcome⟩ := redirect_eq sym cont c placed
    rw [if_neg (not_not_intro empty)] at outcome
    refine ⟨_, outcome, ?_, ?_⟩
    · intro r stack
      rw [Cpu.push_other d r _ stack, entered.regs]
    · rw [Cpu.push_sp, entered.regs]
      rfl
  cases entry with
  | read1 => exact same _
  | write1 => exact same _
  | read2 => exact same _
  | write2 => exact same _

include returns

/-- Every redirected transfer issues the command for its arguments. -/
theorem patch_command (some : size sym c ≠ 0#32) :
    ∃ d, entry.patch sym ios c = .command d ∧ sdCommand d =
      command entry.read (read32 c.mem (c.regs sp + entry.dataPtr)) (c.regs 3#4)
        (read32 c.mem (c.regs sp)) (c.regs 2#4 + start sym c >>> 2) 0xDA#32 := by
  have first : ∀ read : Word, ∃ d, redirect sym
      (fun c => slcReadWritePatch sym ios (c.set 1#4 read)) c = .command d ∧ sdCommand d =
        command read (read32 c.mem (c.regs sp + 4#32)) (c.regs 3#4) (read32 c.mem (c.regs sp))
          (c.regs 2#4 + start sym c >>> 2) 0xDA#32 := by
    intro read
    obtain ⟨d, entered, outcome⟩ := redirect_eq sym
      (fun c => slcReadWritePatch sym ios (c.set 1#4 read)) c placed
    rw [if_pos some] at outcome
    have deeper : Deeper c (d.set 1#4 read) 0 := by
      have before := entered.deeper
      exact ⟨before.top, before.device, before.offset, before.cnt, before.offStack⟩
    have issued := slcReadWritePatch_command sym ios returns c (d.set 1#4 read) placed deeper
      (by decide)
    have blockSize := entered.caller 0 (by decide)
    have dataPtr := entered.caller 4 (by decide)
    rw [BitVec.add_zero] at blockSize
    refine ⟨_, outcome, ?_⟩
    rw [issued, Cpu.set_same, Cpu.set_other _ _ _ _ (by decide), Cpu.set_mem, entered.regs,
      blockSize, dataPtr]
  have second : ∀ (rs : List Reg) (n : Nat) (read : Word), 4 * rs.length = n → n ≤ 32 →
      ∃ d, redirect sym (fun c => slcReadWritePatch sym ios
        ((handOver (c.push rs) (0x10#32 + BitVec.ofNat 32 n)).set 1#4 read)) c = .command d ∧
        sdCommand d =
          command read (read32 c.mem (c.regs sp + 8#32)) (c.regs 3#4) (read32 c.mem (c.regs sp))
            (c.regs 2#4 + start sym c >>> 2) 0xDA#32 := by
    intro rs n read count bound
    obtain ⟨d, entered, outcome⟩ := redirect_eq sym (fun c => slcReadWritePatch sym ios
      ((handOver (c.push rs) (0x10#32 + BitVec.ofNat 32 n)).set 1#4 read)) c placed
    rw [if_pos some] at outcome
    obtain ⟨deeper, blockSize, dataPtr⟩ := handOver_deeper entered rs n count bound
    have issued := slcReadWritePatch_command sym ios returns c
      ((handOver (d.push rs) (0x10#32 + BitVec.ofNat 32 n)).set 1#4 read) placed
      ⟨deeper.top, deeper.device, deeper.offset, deeper.cnt, deeper.offStack⟩ (by omega)
    refine ⟨_, outcome, ?_⟩
    rw [issued, Cpu.set_same, Cpu.set_other _ _ _ _ (by decide), Cpu.set_mem, blockSize, dataPtr]
  cases entry with
  | read1 => exact first 1#32
  | write1 => exact first 0#32
  | read2 => exact second [0#4, 1#4, 2#4, 3#4, 4#4, 5#4, lr] 28 1#32 rfl (by decide)
  | write2 => exact second [0#4, 1#4, 2#4, 3#4, 4#4, lr] 24 0#32 rfl (by decide)

end Entries

/-- The command covers the sectors from `off + 4 * block` up to `off + 4 * (block + cnt)`. -/
structure Covers (issued : SdCommand) (off block cnt : Nat) : Prop where
  blockSize : issued.blockSize = 0x200#32
  first : issued.offsetLow.toNat = off + 4 * block
  high : issued.offsetHigh = 0#32
  count : issued.cnt.toNat = 4 * cnt
  argument : issued.offsetBlocks = issued.offsetLow

/-- A transfer of `r3` blocks at block `r2` goes to its sectors, or is not redirected. -/
def Addressed (sym : Symbols) (ios : Ios) (entry : Entry) (c : Cpu) : Prop :=
  if size sym c = 0#32 then ∃ d, entry.patch sym ios c = .original d
  else ∃ d, entry.patch sym ios c = .command d ∧
    Covers (sdCommand d) (start sym c).toNat (c.regs 2#4).toNat (c.regs 3#4).toNat

/-- The loop ends with sectors and keeps both products, in words and, where they fit, as numbers. -/
structure Adjusted (blockSize cnt offset : Word) (result : Word × Word × Word) : Prop where
  sector : result.1 = 0x200#32
  cntProduct : result.1 * result.2.1 = blockSize * cnt
  offsetProduct : result.1 * result.2.2 = blockSize * offset
  cntExact : blockSize.toNat * cnt.toNat < 0x200 * 2 ^ 32 →
    0x200 * result.2.1.toNat = blockSize.toNat * cnt.toNat
  offsetExact : blockSize.toNat * offset.toNat < 0x200 * 2 ^ 32 →
    0x200 * result.2.2.toNat = blockSize.toNat * offset.toNat

theorem shift_product (k : Nat) (blockSize x : Word) (power : blockSize.toNat = 0x200 * 2 ^ k) :
    0x200#32 * (x <<< k) = blockSize * x ∧
      (blockSize.toNat * x.toNat < 0x200 * 2 ^ 32 →
        0x200 * (x <<< k).toNat = blockSize.toNat * x.toNat) := by
  have shifted : (x <<< k).toNat = x.toNat * 2 ^ k % 2 ^ 32 := by
    rw [BitVec.toNat_shiftLeft, Nat.shiftLeft_eq]
  have product : blockSize.toNat * x.toNat = 0x200 * (x.toNat * 2 ^ k) := by
    rw [power, Nat.mul_assoc, Nat.mul_comm (2 ^ k)]
  constructor
  · apply BitVec.eq_of_toNat_eq
    rw [BitVec.toNat_mul, BitVec.toNat_mul, shifted, product,
      show (0x200#32).toNat = 0x200 from rfl, Nat.mul_mod_mod]
  · intro fits
    rw [product] at fits ⊢
    rw [shifted, Nat.mod_eq_of_lt (by omega)]

theorem blockSizeAdjust_adjusted_iff (k : Nat) (blockSize cnt offset : Word)
    (power : blockSize.toNat = 0x200 * 2 ^ k) :
    Adjusted blockSize cnt offset (blockSizeAdjust blockSize cnt offset) ↔
      blockSize ≠ 0x80000000#32 := by
  constructor
  · rintro adjusted rfl
    have size := adjusted.sector
    rw [blockSizeAdjust, if_neg (by decide)] at size
    exact absurd size (show ¬ 0x80000000#32 = 0x200#32 by decide)
  · intro unsigned
    have bound : k ≤ 21 := by
      apply Nat.le_of_not_lt
      intro large
      have limit := blockSize.isLt
      rcases Nat.lt_or_ge 22 k with more | exactly
      · have power23 : 2 ^ 23 ≤ 2 ^ k := Nat.pow_le_pow_right (by decide) more
        omega
      · obtain rfl : k = 22 := by omega
        exact unsigned (BitVec.eq_of_toNat_eq power)
    rw [blockSizeAdjust_power k bound blockSize cnt offset power]
    obtain ⟨cnt', cntExact⟩ := shift_product k blockSize cnt power
    obtain ⟨offset', offsetExact⟩ := shift_product k blockSize offset power
    exact ⟨rfl, cnt', offset', cntExact, offsetExact⟩

/-- A quarter of the start is multiplied by four again. -/
theorem covers_iff (off block cnt read dataPtr : Word)
    (fits : off.toNat + 4 * (block.toNat + cnt.toNat) < 2 ^ 32) :
    Covers (command read dataPtr cnt 0x800#32 (block + off >>> 2) 0xDA#32) off.toNat block.toNat
        cnt.toNat ↔
      off.toNat % 4 = 0 := by
  have quarter : (off >>> 2).toNat = off.toNat / 4 := by
    rw [BitVec.toNat_ushiftRight, Nat.shiftRight_eq_div_pow]
  have offset : ((block + off >>> 2) <<< 2).toNat = 4 * (block.toNat + off.toNat / 4) := by
    rw [BitVec.toNat_shiftLeft, Nat.shiftLeft_eq, BitVec.toNat_add, quarter,
      Nat.mod_eq_of_lt (show block.toNat + off.toNat / 4 < 2 ^ 32 by omega)]
    omega
  have count : (cnt <<< 2).toNat = 4 * cnt.toNat := by
    rw [BitVec.toNat_shiftLeft, Nat.shiftLeft_eq]
    omega
  have adjusted := blockSizeAdjust_power 2 (by decide) 0x800#32 cnt (block + off >>> 2) rfl
  constructor
  · intro covers
    have first := covers.first
    simp only [command, adjusted, offset] at first
    omega
  · intro multiple
    refine ⟨?_, ?_, ?_, ?_, ?_⟩
    · simp only [command, adjusted]
    · simp only [command, adjusted, offset]
      omega
    · simp only [command, adjusted]
    · simp only [command, adjusted, count]
    · simp only [command, adjusted]

/-- Transfers reach their sectors exactly when the partition starts at a multiple of four
sectors, and the loop is right exactly for block sizes that are positive as signed words. -/
theorem slcPatch_addressed_iff (sym : Symbols) (ios : Ios) (returns : ios.Returns) (entry : Entry)
    (c : Cpu) (placed : Placed sym c) (blocks : read32 c.mem (c.regs sp) = 0x800#32)
    (fits : (start sym c).toNat + 4 * ((c.regs 2#4).toNat + (c.regs 3#4).toNat) < 2 ^ 32)
    (k : Nat) (blockSize cnt offset : Word) (power : blockSize.toNat = 0x200 * 2 ^ k) :
    Addressed sym ios entry c ∧
        Adjusted blockSize cnt offset (blockSizeAdjust blockSize cnt offset) ↔
      (size sym c = 0#32 ∨ (start sym c).toNat % 4 = 0) ∧ blockSize ≠ 0x80000000#32 := by
  rw [blockSizeAdjust_adjusted_iff k blockSize cnt offset power]
  apply and_congr_left
  intro _
  unfold Addressed
  by_cases empty : size sym c = 0#32
  · obtain ⟨d, outcome, _⟩ := patch_original sym ios entry c placed empty
    rw [if_pos empty]
    exact iff_of_true ⟨d, outcome⟩ (.inl empty)
  · obtain ⟨d, outcome, issued⟩ := patch_command sym ios returns entry c placed empty
    rw [blocks] at issued
    rw [if_neg empty, outcome, ← covers_iff _ _ _ _ _ fits, ← issued]
    constructor
    · rintro ⟨d', same, covers⟩
      rw [Outcome.command.injEq] at same
      exact .inr (same ▸ covers)
    · rintro (absent | covers)
      · exact absurd absent empty
      · exact ⟨d, rfl, covers⟩

def symbolsSample : Symbols :=
  ⟨0x10600000#32, 0x10600004#32, 0x10600008#32, 0x1060000C#32, 0x10600010#32, 0x10600100#32⟩

/-- Semaphores that are free. -/
def iosSample : Ios := ⟨fun c => c.set 0#4 0#32, fun c => c.set 0#4 1#32⟩

theorem iosSample_returns : iosSample.Returns := by
  have returns : ∀ value, Returns fun c => c.set 0#4 value := by
    intro value
    refine ⟨?_, fun c => .refl _ _ _⟩
    intro c r saved
    rw [Cpu.set_other]
    rintro rfl
    exact absurd saved (by decide)
  exact ⟨returns 0#32, returns 1#32⟩

/-- A read of one block of the SLC, whose partition starts at sector `off`. -/
def transferSample (off : Word) : Cpu where
  regs r := if r = 0#4 then 0x10900000#32 else if r = 2#4 then 5#32 else if r = 3#4 then 1#32
    else if r = sp then 0x11F00000#32 else 0#32
  pc := 0#32
  thumb := false
  flags := ⟨false, false, false, false⟩
  mem :=
    let m := writeWords (fun _ => 0#8) 0x10600000#32 [off, 0x100000#32]
    let m := writeWords m 0x10900000#32 [0#32, 1#32]
    writeWords m 0x11F00000#32 [0x800#32, 0x12000000#32, 0#32, 0#32]

theorem transferSample_placed (off : Word) : Placed symbolsSample (transferSample off) := by
  have offStack : ∀ a : Word, 4 ≤ (0x11F00000#32 - 512#32 - a).toNat →
      512 ≤ (a - (0x11F00000#32 - 512#32)).toNat → OffStack 0x11F00000#32 a :=
    fun a up down => apart_of_distance up down
  exact ⟨offStack 0x10900004#32 (by decide) (by decide),
    offStack 0x10600000#32 (by decide) (by decide), offStack 0x10600004#32 (by decide) (by decide),
    offStack 0x10600008#32 (by decide) (by decide), offStack 0x1060000C#32 (by decide) (by decide)⟩

theorem slcPatch_addressed_iff_sample :
    Addressed symbolsSample iosSample .read1 (transferSample 0x1000#32) ∧
        Adjusted 0x800#32 1#32 5#32 (blockSizeAdjust 0x800#32 1#32 5#32) ↔
      (size symbolsSample (transferSample 0x1000#32) = 0#32 ∨
        (start symbolsSample (transferSample 0x1000#32)).toNat % 4 = 0) ∧
        0x800#32 ≠ 0x80000000#32 :=
  slcPatch_addressed_iff symbolsSample iosSample iosSample_returns .read1 (transferSample 0x1000#32)
    (transferSample_placed _) (by decide +kernel) (by decide +kernel) 2 0x800#32 1#32 5#32 rfl

/-- A partition that starts at sector 1: the command goes to the sectors one before. -/
theorem slcRead1Patch_misses_start :
    ¬ Addressed symbolsSample iosSample .read1 (transferSample 1#32) := by
  have some : size symbolsSample (transferSample 1#32) ≠ 0#32 := by decide +kernel
  have off : start symbolsSample (transferSample 1#32) = 1#32 := by decide +kernel
  have blocks : read32 (transferSample 1#32).mem ((transferSample 1#32).regs sp) = 0x800#32 := by
    decide +kernel
  obtain ⟨d, outcome, issued⟩ := patch_command symbolsSample iosSample iosSample_returns .read1 _
    (transferSample_placed 1#32) some
  rw [blocks, off] at issued
  unfold Addressed
  rw [if_neg some, off]
  rintro ⟨d', same, covers⟩
  rw [outcome, Outcome.command.injEq] at same
  rw [← same, issued] at covers
  exact absurd ((covers_iff 1#32 _ _ _ _ (by decide)).mp covers) (by decide)

end Stroopwafel.Redirect
