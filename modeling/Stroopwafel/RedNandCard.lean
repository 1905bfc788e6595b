import Stroopwafel.DiskWindow
import Stroopwafel.SalPartition

set_option autoImplicit false

namespace Stroopwafel.RedNand

open Memory Arm Redirect DiskWindow HaiCompanion

section Config

/-- `rednand_partition` -/
structure Partition where
  lbaStart : Word
  lbaLength : Word

/-- The devices whose sectors are on the SD card: three that are redirected, and the card. -/
inductive Device where
  | slc
  | slccmpt
  | mlc
  | sd
  deriving DecidableEq

structure Partitions where
  slc : Partition
  slccmpt : Partition
  mlc : Partition

/-- The first sector. That of the SLC devices is rounded down to a block of four sectors. -/
def Partitions.start (parts : Partitions) : Device → Nat
  | .slc => 4 * (parts.slc.lbaStart.toNat / 4)
  | .slccmpt => 4 * (parts.slccmpt.lbaStart.toNat / 4)
  | .mlc => parts.mlc.lbaStart.toNat
  | .sd => 0

def Partitions.length (parts : Partitions) : Device → Nat
  | .slc => parts.slc.lbaLength.toNat
  | .slccmpt => parts.slccmpt.lbaLength.toNat
  | .mlc => parts.mlc.lbaLength.toNat
  | .sd => 0

/-- The card itself has what no partition has. -/
def Partitions.owns (parts : Partitions) (device : Device) (b : Nat) : Prop :=
  match device with
  | .sd => ∀ other, ∀ a < parts.length other, b ≠ parts.start other + a
  | _ => b < parts.length device

def Partitions.layout (parts : Partitions) : Layout Device := ⟨parts.start, parts.owns⟩

/-- The partitions do not overlap, and end on the sectors that a word can address. -/
structure Partitions.Ok (parts : Partitions) : Prop where
  apart : ∀ i j, i ≠ j → ∀ a < parts.length i, ∀ b < parts.length j,
    parts.start i + a ≠ parts.start j + b
  addressable : ∀ i, parts.start i + parts.length i ≤ 2 ^ 32

theorem Partitions.owns_iff (parts : Partitions) (device : Device) (b : Nat)
    (other : device ≠ .sd) : parts.owns device b ↔ b < parts.length device := by
  cases device with
  | sd => exact absurd rfl other
  | slc | slccmpt | mlc => exact Iff.rfl

theorem Partitions.Ok.disjoint {parts : Partitions} (ok : parts.Ok) : parts.layout.Disjoint := by
  have card : ∀ (i : Device) a b, i ≠ .sd → parts.owns i a → parts.owns .sd b →
      parts.start i + a ≠ parts.start .sd + b := by
    intro i a b other owned rest same
    apply rest i a ((parts.owns_iff i a other).mp owned)
    rw [same]
    exact (Nat.zero_add b).symm
  intro i j a b distinct first second
  by_cases here : i = .sd
  · subst here
    exact (card j b a distinct.symm second first).symm
  · by_cases there : j = .sd
    · subst there
      exact card i a b here first second
    · exact ok.apart i j distinct a ((parts.owns_iff i a here).mp first) b
        ((parts.owns_iff j b there).mp second)

/-- The words that the patches of the SLC driver read. -/
structure Configured (sym : Symbols) (parts : Partitions) (m : Mem) : Prop where
  slcOff : read32 m sym.redslcOffSectors = parts.slc.lbaStart
  slcSize : read32 m sym.redslcSizeSectors = parts.slc.lbaLength
  slccmptOff : read32 m sym.redslccmptOffSectors = parts.slccmpt.lbaStart
  slccmptSize : read32 m sym.redslccmptSizeSectors = parts.slccmpt.lbaLength

end Config

/-- The driver of the SD card: its two routines up to the patched instruction, and what a command
does to the sectors of the card. The data of a write is what the DMA finds in memory. -/
structure Driver (α : Type) where
  readEntry : SalArgs → Cpu
  writeEntry : SalArgs → Cpu
  doReadWriteCommand : SdCommand → Disk α → List α → List α × Disk α

structure Driver.Sound {α : Type} (driver : Driver α) (handle : Word) : Prop where
  readEntry : ∀ args, args.deviceHandle = handle → AtHook (driver.readEntry args) args
  writeEntry : ∀ args, args.deviceHandle = handle → AtHook (driver.writeEntry args) args
  reads : ∀ cmd card data, cmd.type = 3#32 → cmd.blockSize = 0x200#32 → cmd.offsetHigh = 0#32 →
    driver.doReadWriteCommand cmd card data =
      (readAt card cmd.offsetLow.toNat cmd.cnt.toNat, card)
  writes : ∀ cmd card data, cmd.type = 0#32 → cmd.blockSize = 0x200#32 → cmd.offsetHigh = 0#32 →
    data.length = cmd.cnt.toNat →
    driver.doReadWriteCommand cmd card data = ([], writeAt card cmd.offsetLow.toNat data)

/-- A transfer of the SLC driver, or one through the attached device of the card or of the MLC. -/
inductive Access (α : Type) where
  | slc (entry : Entry) (c : Cpu) (data : List α)
  | sal (mlc write : Bool) (args : SalArgs) (data : List α)

section Card

variable {α : Type} (sym : Symbols) (ios : Ios) (redmlcSizeSectors : Word) (driver : Driver α)
  (parts : Partitions) (sdAttachArg : FSSALAttachDeviceArg Outcome)

/-- The routines of the card, with the patches at their start. -/
structure SdAttached : Prop where
  opRead : sdAttachArg.opRead =
    fun args => some (sdcardReadPatch sym ios redmlcSizeSectors (driver.readEntry args))
  opWrite : sdAttachArg.opWrite =
    fun args => some (sdcardWritePatch sym ios redmlcSizeSectors (driver.writeEntry args))

/-- The device that a transfer goes through: the card as it is, or as it is registered again. -/
def attached (mlc : Bool) : FSSALAttachDeviceArg Outcome :=
  if mlc then (registerSdAsMlc parts.mlc.lbaStart parts.mlc.lbaLength false sdAttachArg).2
  else sdAttachArg

def Access.issue : Access α → Option Outcome
  | .slc entry c _ => some (entry.patch sym ios c)
  | .sal mlc write args _ =>
      let device := attached parts sdAttachArg mlc
      if write then device.opWrite args else device.opRead args

def Access.data : Access α → List α
  | .slc _ _ data => data
  | .sal _ _ _ data => data

/-- The card carries out the command of an access. -/
def serveCard (card : Disk α) (access : Access α) : Option (List α × Disk α) :=
  match access.issue sym ios parts sdAttachArg with
  | some (.command d) => some (driver.doReadWriteCommand (sdCommand d) card access.data)
  | _ => none

def runCard : Disk α → List (Access α) → Option (List (List α) × Disk α)
  | card, [] => some ([], card)
  | card, access :: rest => do
      let (answer, card) ← serveCard sym ios driver parts sdAttachArg card access
      let (answers, card) ← runCard card rest
      return (answer :: answers, card)

def entryWrites : Entry → Bool
  | .read1 | .read2 => false
  | .write1 | .write2 => true

def slcDevice (c : Cpu) : Device :=
  if read32 c.mem (c.regs 0#4 + 4#32) ≠ 0#32 then .slc else .slccmpt

def salDevice (mlc : Bool) : Device := if mlc then .mlc else .sd

def requestOf (write : Bool) (device : Device) (first count : Nat) (data : List α) :
    Request Device α :=
  if write then .write device first data else .read device first count

/-- What is asked of the device of an access, in sectors. -/
def Access.request : Access α → Request Device α
  | .slc entry c data =>
      requestOf (entryWrites entry) (slcDevice c) (4 * (c.regs 2#4).toNat)
        (4 * (c.regs 3#4).toNat) data
  | .sal mlc write args data =>
      requestOf write (salDevice mlc) (args.sector) args.blkCount.toNat data

/-- A transfer of one block or more that stays on its device. -/
structure Transfer (write : Bool) (device : Device) (first count : Nat) (data : List α) : Prop where
  some : count ≠ 0
  inside : ∀ k < count, parts.owns device (first + k)
  below : device = .sd → first + count ≤ 2 ^ 32
  data : write = true → data.length = count

def Access.Valid : Access α → Prop
  | .slc entry c data =>
      Placed sym c ∧ Configured sym parts c.mem ∧ read32 c.mem (c.regs sp) = 0x800#32 ∧
        size sym c ≠ 0#32 ∧
        Transfer parts (entryWrites entry) (slcDevice c) (4 * (c.regs 2#4).toNat)
          (4 * (c.regs 3#4).toNat) data
  | .sal mlc write args data =>
      args.deviceHandle = sdAttachArg.serverHandle ∧ args.blockSize = 0x200#32 ∧
        Transfer parts write (salDevice mlc) (args.sector) args.blkCount.toNat data

theorem Transfer.short {parts : Partitions} {write : Bool} {device : Device} {first count : Nat}
    {data : List α} (transfer : Transfer parts write device first count data)
    (other : device ≠ .sd) : first + count ≤ parts.length device := by
  have some := transfer.some
  have last := transfer.inside (count - 1) (Nat.sub_one_lt some)
  rw [parts.owns_iff device _ other] at last
  omega

theorem Partitions.length_lt (parts : Partitions) (device : Device) :
    parts.length device < 2 ^ 32 := by
  cases device with
  | slc => exact parts.slc.lbaLength.isLt
  | slccmpt => exact parts.slccmpt.lbaLength.isLt
  | mlc => exact parts.mlc.lbaLength.isLt
  | sd => exact Nat.two_pow_pos 32

theorem Transfer.addressable {parts : Partitions} (ok : parts.Ok) {write : Bool} {device : Device}
    {first count : Nat} {data : List α} (transfer : Transfer parts write device first count data) :
    parts.start device + (first + count) ≤ 2 ^ 32 := by
  by_cases card : device = .sd
  · subst card
    rw [show parts.start .sd = 0 from rfl, Nat.zero_add]
    exact transfer.below rfl
  · have short := transfer.short card
    have fits := ok.addressable device
    omega

theorem Transfer.within {parts : Partitions} {write : Bool} {device : Device} {first count : Nat}
    {data : List α} (transfer : Transfer parts write device first count data) :
    (requestOf write device first count data).Within parts.layout := by
  cases write with
  | false => exact transfer.inside
  | true =>
      intro k inside
      rw [transfer.data rfl] at inside
      exact transfer.inside k inside

/-- The command asks for `count` sectors of the card from `first` on. -/
structure Asks (cmd : SdCommand) (write : Bool) (first count : Nat) : Prop where
  type : cmd.type = if write then 0#32 else 3#32
  blockSize : cmd.blockSize = 0x200#32
  offsetHigh : cmd.offsetHigh = 0#32
  offsetLow : cmd.offsetLow.toNat = first
  cnt : cmd.cnt.toNat = count

/-- The card carries a command out as a request for the device. -/
theorem Driver.Sound.serve {driver : Driver α} {handle : Word} (sound : driver.Sound handle)
    {parts : Partitions} {cmd : SdCommand} {write : Bool} {device : Device} {first count : Nat}
    {data : List α} (asks : Asks cmd write (parts.start device + first) count)
    (length : write = true → data.length = count) (card : Disk α) :
    driver.doReadWriteCommand cmd card data =
      (requestOf write device first count data).serveShared parts.layout card := by
  obtain ⟨type, blockSize, offsetHigh, offsetLow, cnt⟩ := asks
  cases write with
  | false =>
      rw [sound.reads cmd card data type blockSize offsetHigh, offsetLow, cnt]
      rfl
  | true =>
      rw [sound.writes cmd card data type blockSize offsetHigh ((length rfl).trans cnt.symm),
        offsetLow]
      rfl

/-- Blocks of four sectors, counted from the start of the partition. -/
theorem asks_blocks (write : Bool) (dataPtr cnt block off : Word)
    (fits : 4 * (off.toNat / 4) + (4 * block.toNat + 4 * cnt.toNat) ≤ 2 ^ 32) (some : cnt.toNat ≠ 0)
    (small : 4 * cnt.toNat < 2 ^ 32) :
    Asks (command (if write then 0#32 else 1#32) dataPtr cnt 0x800#32 (block + off >>> 2) 0xDA#32)
      write (4 * (off.toNat / 4) + 4 * block.toNat) (4 * cnt.toNat) := by
  have adjusted := blockSizeAdjust_power 2 (by decide) 0x800#32 cnt (block + off >>> 2) rfl
  have quarter : (off >>> 2).toNat = off.toNat / 4 := by
    rw [BitVec.toNat_ushiftRight, Nat.shiftRight_eq_div_pow]
  have offset : ((block + off >>> 2) <<< 2).toNat = 4 * (off.toNat / 4) + 4 * block.toNat := by
    rw [BitVec.toNat_shiftLeft, Nat.shiftLeft_eq, BitVec.toNat_add, quarter,
      Nat.mod_eq_of_lt (show block.toNat + off.toNat / 4 < 2 ^ 32 by omega)]
    omega
  have count : (cnt <<< 2).toNat = 4 * cnt.toNat := by
    rw [BitVec.toNat_shiftLeft, Nat.shiftLeft_eq]
    omega
  refine ⟨?_, ?_, ?_, ?_, ?_⟩
  · simp only [command, adjusted]
    cases write <;> rfl
  · simp only [command, adjusted]
  · simp only [command, adjusted]
  · simp only [command, adjusted, offset]
  · simp only [command, adjusted, count]

theorem asks_sectors (write : Bool) (dataPtr cnt offset : Word) :
    Asks (command (if write then 0#32 else 1#32) dataPtr cnt 0x200#32 offset 0xDA#32) write
      offset.toNat cnt.toNat := by
  have adjusted := blockSizeAdjust_power 0 (by decide) 0x200#32 cnt offset rfl
  rw [BitVec.shiftLeft_zero, BitVec.shiftLeft_zero] at adjusted
  refine ⟨?_, ?_, ?_, ?_, ?_⟩
  · simp only [command, adjusted]
    cases write <;> rfl
  · simp only [command, adjusted]
  · simp only [command, adjusted]
  · simp only [command, adjusted]
  · simp only [command, adjusted]

theorem start_slcDevice {sym : Symbols} {parts : Partitions} {c : Cpu}
    (configured : Configured sym parts c.mem) :
    parts.start (slcDevice c) = 4 * ((start sym c).toNat / 4) := by
  unfold slcDevice start
  by_cases slc : read32 c.mem (c.regs 0#4 + 4#32) ≠ 0#32
  · rw [if_pos slc, if_pos slc, configured.slcOff]
    rfl
  · rw [if_neg slc, if_neg slc, configured.slccmptOff]
    rfl

theorem slcDevice_ne (c : Cpu) : slcDevice c ≠ .sd := by
  unfold slcDevice
  split <;> decide

theorem entryWrites_read (entry : Entry) :
    entry.read = if entryWrites entry then 0#32 else 1#32 := by
  cases entry <;> rfl

/-- The SLC driver: the command asks for the sectors of the transfer. -/
theorem slc_serve (returns : ios.Returns) {handle : Word} (sound : driver.Sound handle)
    (ok : parts.Ok) (entry : Entry) (c : Cpu) (data : List α) (card : Disk α)
    (valid : (Access.slc entry c data).Valid sym parts sdAttachArg) :
    serveCard sym ios driver parts sdAttachArg card (.slc entry c data) =
      some ((Access.slc entry c data).request.serveShared parts.layout card) := by
  obtain ⟨placed, configured, blocks, some, transfer⟩ := valid
  obtain ⟨d, issued, cmd⟩ := patch_command sym ios returns entry c placed some
  have fits := transfer.addressable ok
  have nonzero := transfer.some
  have short := transfer.short (slcDevice_ne c)
  have length := parts.length_lt (slcDevice c)
  have first := start_slcDevice configured
  rw [blocks, entryWrites_read] at cmd
  rw [first] at fits
  have asks := asks_blocks (entryWrites entry) (read32 c.mem (c.regs sp + entry.dataPtr))
    (c.regs 3#4) (c.regs 2#4) (start sym c) fits (by omega) (by omega)
  rw [← cmd, ← first] at asks
  have served := sound.serve asks transfer.data card
  simp only [serveCard, Access.issue, issued, Access.data, served, Access.request]

/-- The card, and the device that is registered as the MLC. -/
theorem sal_serve (returns : ios.Returns) (sound : driver.Sound sdAttachArg.serverHandle)
    (attaches : SdAttached sym ios redmlcSizeSectors driver sdAttachArg) (ok : parts.Ok)
    (mlc write : Bool) (args : SalArgs) (data : List α) (card : Disk α)
    (valid : (Access.sal mlc write args data).Valid sym parts sdAttachArg) :
    serveCard sym ios driver parts sdAttachArg card (.sal mlc write args data) =
      some ((Access.sal mlc write args data).request.serveShared parts.layout card) := by
  obtain ⟨handle, blockSize, transfer⟩ := valid
  have fits := transfer.addressable ok
  have nonzero := transfer.some
  -- what the routines of the card are called with
  have direct (write : Bool) (args : SalArgs) (sector : Nat)
      (handle : args.deviceHandle = sdAttachArg.serverHandle)
      (blockSize : args.blockSize = 0x200#32)
      (place : args.lbaLo.toNat = sector) :
      ∃ d, (if write then sdAttachArg.opWrite args else sdAttachArg.opRead args) =
        some (.command d) ∧ Asks (sdCommand d) write sector args.blkCount.toNat := by
    rw [attaches.opRead, attaches.opWrite]
    cases write with
    | false =>
        obtain ⟨d, issued, cmd⟩ := sdcardReadWritePatch_command sym ios returns redmlcSizeSectors
          1#32 (driver.readEntry args) args (sound.readEntry args handle)
        refine ⟨d, congrArg some issued, ?_⟩
        rw [cmd, blockSize, ← place]
        exact asks_sectors false args.buf args.blkCount args.lbaLo
    | true =>
        obtain ⟨d, issued, cmd⟩ := sdcardReadWritePatch_command sym ios returns redmlcSizeSectors
          0#32 (driver.writeEntry args) args (sound.writeEntry args handle)
        refine ⟨d, congrArg some issued, ?_⟩
        rw [cmd, blockSize, ← place]
        exact asks_sectors true args.buf args.blkCount args.lbaLo
  have issued : ∃ d, (Access.sal mlc write args data).issue sym ios parts sdAttachArg =
      some (.command d) ∧ Asks (sdCommand d) write
        (parts.start (salDevice mlc) + args.sector) args.blkCount.toNat := by
    cases mlc with
    | false =>
        have place := lbaLo_sector args.toBlocks (by
          have below := transfer.below rfl
          omega)
        rw [show parts.start (salDevice false) = 0 from rfl, Nat.zero_add]
        exact direct write args _ handle blockSize place
    | true =>
        have start : parts.start (salDevice true) = parts.mlc.lbaStart.toNat := rfl
        have moved := addOffset_sector args.toBlocks parts.mlc.lbaStart (by omega)
        have place := lbaLo_sector (args.toBlocks.addOffset parts.mlc.lbaStart) (by omega)
        rw [moved] at place
        rw [start, Nat.add_comm]
        exact direct write (args.addOffset parts.mlc.lbaStart) _ handle blockSize place
  obtain ⟨d, command, asks⟩ := issued
  have served := sound.serve asks transfer.data card
  simp only [serveCard, command, Access.data, served, Access.request]

/-- The card serves all of its devices as if each were a disk of its own, in any order. -/
theorem runCard_serves (returns : ios.Returns) (sound : driver.Sound sdAttachArg.serverHandle)
    (attaches : SdAttached sym ios redmlcSizeSectors driver sdAttachArg) (ok : parts.Ok)
    (accesses : List (Access α))
    (valid : ∀ access ∈ accesses, access.Valid sym parts sdAttachArg) (card : Disk α)
    (disks : Device → Disk α) (views : Views parts.layout card disks) :
    ∃ answers after,
      runCard sym ios driver parts sdAttachArg card accesses = some (answers, after) ∧
      answers = (run Request.serve disks (accesses.map Access.request)).1 ∧
      Views parts.layout after (run Request.serve disks (accesses.map Access.request)).2 := by
  have within : ∀ request ∈ accesses.map Access.request, request.Within parts.layout := by
    intro request member
    obtain ⟨access, listed, rfl⟩ := List.mem_map.mp member
    have valid := valid access listed
    cases access with
    | slc entry c data => exact valid.2.2.2.2.within
    | sal mlc write args data => exact valid.2.2.within
  obtain ⟨answers, last⟩ := views.run ok.disjoint (accesses.map Access.request) within
  refine ⟨_, _, ?_, answers, last⟩
  clear views within answers last
  induction accesses generalizing card with
  | nil => rfl
  | cons access rest ih =>
      have served : serveCard sym ios driver parts sdAttachArg card access =
          some (access.request.serveShared parts.layout card) := by
        have valid := valid access (List.mem_cons_self ..)
        cases access with
        | slc entry c data =>
            exact slc_serve sym ios driver parts sdAttachArg returns sound ok entry c data card
              valid
        | sal mlc write args data =>
            exact sal_serve sym ios redmlcSizeSectors driver parts sdAttachArg returns sound
              attaches ok mlc write args data card valid
      have later := ih (fun other member => valid other (List.mem_cons_of_mem _ member))
        (access.request.serveShared parts.layout card).2
      unfold runCard
      rw [served]
      simp only [Option.bind_eq_bind, Option.bind_some, later, List.map_cons, DiskWindow.run]
      rfl

end Card

section Sample

def sampleParts : Partitions := ⟨⟨0x1000#32, 0x100000#32⟩, ⟨0#32, 0#32⟩, ⟨0x200000#32, 0x100#32⟩⟩

theorem sampleParts_ok : sampleParts.Ok := by
  constructor
  · intro i j distinct a first b second
    have values : sampleParts.start .slc = 0x1000 ∧ sampleParts.start .mlc = 0x200000 ∧
        sampleParts.length .slc = 0x100000 ∧ sampleParts.length .slccmpt = 0 ∧
        sampleParts.length .mlc = 0x100 ∧ sampleParts.length .sd = 0 :=
      ⟨rfl, rfl, rfl, rfl, rfl, rfl⟩
    cases i <;> cases j <;> first | exact absurd rfl distinct | omega
  · intro i
    cases i <;> decide

/-- The state at the patched instruction of a driver that starts with `push {r4, lr}`. -/
def sampleEntry (args : SalArgs) : Cpu where
  regs r := if r = 0#4 then args.deviceHandle else if r = 1#4 then args.lbaHi
    else if r = 2#4 then args.lbaLo else if r = 3#4 then args.blkCount
    else if r = sp then 0x11F00000#32 else 0#32
  pc := 0#32
  thumb := false
  flags := ⟨false, false, false, false⟩
  mem := write32 (writeWords (fun _ => 0#8) 0x11F00008#32
    [args.blockSize, args.buf, args.cb, args.cbCtx]) (args.deviceHandle + 0x14#32) 6#32

def sampleDriver : Driver Nat where
  readEntry := sampleEntry
  writeEntry := sampleEntry
  doReadWriteCommand cmd card data :=
    if cmd.type = 3#32 then (readAt card cmd.offsetLow.toNat cmd.cnt.toNat, card)
    else ([], writeAt card cmd.offsetLow.toNat data)

def sampleHandle : Word := 0x10A00000#32

theorem sampleEntry_hook (args : SalArgs) (handle : args.deviceHandle = sampleHandle) :
    AtHook (sampleEntry args) args := by
  have words := writeWords_wordsAt (fun _ => 0#8) 0x11F00008#32
    [args.blockSize, args.buf, args.cb, args.cbCtx] (by simp)
  have above : Apart 0x11F00008#32 16 (sampleHandle + 0x14#32) 4 :=
    apart_of_distance (by decide) (by decide)
  have stack : WordsAt (sampleEntry args).mem 0x11F00008#32
      [args.blockSize, args.buf, args.cb, args.cbCtx] := by
    unfold sampleEntry
    rw [handle]
    exact (write32_apart _ _ _ _ _ above).wordsAt words
  refine ⟨rfl, rfl, rfl, rfl, ?_, ?_, ?_⟩
  · exact stack 0 (by simp)
  · exact stack 1 (by simp)
  · exact read32_write32 _ _ _

theorem sampleDriver_sound : sampleDriver.Sound sampleHandle where
  readEntry := sampleEntry_hook
  writeEntry := sampleEntry_hook
  reads cmd card data type _ _ := if_pos type
  writes cmd card data type _ _ _ := if_neg (by rw [type]; decide)

def sampleSdAttachArg : FSSALAttachDeviceArg Outcome where
  serverHandle := sampleHandle
  params := ⟨6#32, 0xFFFFFF#64, 0x1000000#64, 0x200#32⟩
  opRead args := some (sdcardReadPatch symbolsSample iosSample 0x10600200#32 (sampleEntry args))
  opRead2 _ := none
  opWrite args := some (sdcardWritePatch symbolsSample iosSample 0x10600200#32 (sampleEntry args))
  opWrite2 _ := none
  opsync _ := none

/-- Sector 5 of the MLC is written, a block of the SLC and the last sector of the card are read. -/
def sampleAccesses : List (Access Nat) :=
  [.sal true true ⟨⟨0#32, 5#32, 1#32, 0x200#32⟩, sampleHandle, 0#32, 0#32, 0#32⟩ [7],
    .slc .read1 (transferSample 0x1000#32) [],
    .sal false false ⟨⟨0#32, 0xFFFFFF#32, 1#32, 0x200#32⟩, sampleHandle, 0#32, 0#32, 0#32⟩ []]

theorem sampleAccesses_valid (access : Access Nat) (member : access ∈ sampleAccesses) :
    access.Valid symbolsSample sampleParts sampleSdAttachArg := by
  rcases List.mem_cons.mp member with rfl | member
  · refine ⟨rfl, rfl, by decide, ?_, by decide, fun _ => rfl⟩
    intro k inside
    exact Nat.lt_of_le_of_lt (Nat.add_le_add_left (Nat.le_of_lt inside) _) (by decide)
  rcases List.mem_cons.mp member with rfl | member
  · refine ⟨transferSample_placed _, ?_, by decide, by decide, by decide, ?_, by decide, nofun⟩
    · constructor <;> decide
    · intro k inside
      have slc : slcDevice (transferSample 0x1000#32) = .slc := by decide
      rw [slc]
      exact Nat.lt_of_le_of_lt (Nat.add_le_add_left (Nat.le_of_lt inside) _) (by decide)
  · obtain rfl := List.mem_singleton.mp member
    refine ⟨rfl, rfl, by decide, ?_, by decide, nofun⟩
    intro k inside other a bound same
    obtain rfl : k = 0 := Nat.lt_one_iff.mp inside
    have values : sampleParts.start .slc = 0x1000 ∧ sampleParts.start .mlc = 0x200000 ∧
        sampleParts.length .slc = 0x100000 ∧ sampleParts.length .slccmpt = 0 ∧
        sampleParts.length .mlc = 0x100 ∧ sampleParts.length .sd = 0 :=
      ⟨rfl, rfl, rfl, rfl, rfl, rfl⟩
    have sector : 0xFFFFFF = sampleParts.start other + a := same
    cases other <;> omega

theorem runCard_serves_sample :
    ∃ answers after, runCard symbolsSample iosSample sampleDriver sampleParts sampleSdAttachArg id
        sampleAccesses = some (answers, after) ∧
      answers = (run Request.serve (fun i b => sampleParts.start i + b)
        (sampleAccesses.map Access.request)).1 ∧
      Views sampleParts.layout after (run Request.serve (fun i b => sampleParts.start i + b)
        (sampleAccesses.map Access.request)).2 :=
  runCard_serves symbolsSample iosSample 0x10600200#32 sampleDriver sampleParts sampleSdAttachArg
    iosSample_returns sampleDriver_sound ⟨rfl, rfl⟩ sampleParts_ok sampleAccesses
    sampleAccesses_valid id (fun i b => sampleParts.start i + b) fun _ _ _ => rfl

end Sample

end Stroopwafel.RedNand
