import Stroopwafel.ClockedLine
import Stroopwafel.Gpio

set_option autoImplicit false

namespace Stroopwafel.Serial

open Memory Gpio ClockedLine

/-- After each store: whether interrupts were off, and the levels of the debug pins. -/
structure Sample where
  cpsr : Word
  pins : Byte

structure Port where
  regs : Regs
  cpsr : Word
  polls : Nat
  samples : List Sample

def gpDebugShift : Nat := 16
def gpDebugMask : Word := 0xFF0000#32
def gpDebugSerialMask : Word := 0xBF0000#32

/-- `LT_GPIO_IN` -/
def inPin : Nat := gpDebugShift + 6

section Pins

/- `pull` is what a pin shows that is not driven, and `input` what `LT_GPIO_IN` reads by poll. -/
variable (pull : Byte) (input : Nat → Word)

/-- A pin is driven when it is not owned by the other processor, enabled and an output. -/
def levels (r : Regs) : Byte :=
  let driven := ~~~ r gpio.owner &&& r gpio.enable &&& r gpio.dir
  let shown := driven &&& r gpio.out ||| ~~~ driven &&& (pull.setWidth 32 <<< gpDebugShift)
  (shown >>> gpDebugShift).setWidth 8

def Port.store (p : Port) (r : Regs) : Port :=
  { p with regs := r, samples := p.samples ++ [⟨p.cpsr, levels pull r⟩] }

def gpioDebugSerialSend (val : Byte) (p : Port) : Port :=
  let p := p.store pull (clear32 p.regs gpio.owner gpDebugMask)
  let p := p.store pull (set32 p.regs gpio.enable gpDebugMask)
  let p := p.store pull (set32 p.regs gpio.dir gpDebugSerialMask)
  p.store pull (mask32 p.regs gpio.out gpDebugSerialMask (val.setWidth 32 <<< gpDebugShift))

def gpioDebugSerialRead (p : Port) : Byte × Port :=
  let p := p.store pull (clear32 p.regs gpio.owner gpDebugMask)
  let p := p.store pull (set32 p.regs gpio.enable gpDebugMask)
  let p := p.store pull (set32 p.regs gpio.dir gpDebugSerialMask)
  ((input p.polls >>> inPin &&& 1#32).setWidth 8, { p with polls := p.polls + 1 })

end Pins

/-- The old interrupt bits, and the status with both of them set. -/
def irqKill (cpsr : Word) : Word × Word := (cpsr &&& 0xC0#32, cpsr ||| 0xC0#32)

def irqRestore (cookie cpsr : Word) : Word := cpsr &&& ~~~ 0xC0#32 ||| cookie

structure Console where
  port : Port
  serialBuffer : List Byte
  serialLen : Nat
  allowZeros : Byte
  serialLine : Word
  saved : Bool

def bufferSize : Nat := 256

def irqKilled (f : Console → Console) (c : Console) : Console :=
  let (cookie, cpsr) := irqKill c.port.cpsr
  let c := f { c with port := { c.port with cpsr := cpsr } }
  { c with port := { c.port with cpsr := irqRestore cookie c.port.cpsr } }

section Model

variable (pull : Byte) (input : Nat → Word)

def serialForceTerminate (p : Port) : Port :=
  let p := gpioDebugSerialSend pull 0x0F#8 p
  let p := gpioDebugSerialSend pull 0x8F#8 p
  let p := gpioDebugSerialSend pull 0x0F#8 p
  gpioDebugSerialSend pull 0x00#8 p

/-- The body of the loop, with what was read and whether it is valid. -/
def sendBit (val : Byte) (s : Port × Byte × Byte) (j : Nat) : Port × Byte × Byte :=
  let (p, readVal, readValValid) := s
  let bit := if val &&& (1#8 <<< j) ≠ 0#8 then 1#8 else 0#8
  let p := gpioDebugSerialSend pull bit p
  let (readValValid, p) :=
    if j = 7 then gpioDebugSerialRead pull input p else (readValValid, p)
  let p := gpioDebugSerialSend pull (0x80#8 ||| bit) p
  let (got, p) := gpioDebugSerialRead pull input p
  (p, readVal <<< 1 ||| got, readValValid)

def serialSend (val : Byte) : Console → Console :=
  irqKilled fun c =>
    let (p, readVal, readValValid) :=
      [7, 6, 5, 4, 3, 2, 1, 0].foldl (sendBit pull input val) (c.port, 0#8, 0#8)
    let c := { c with port := p }
    let c :=
      if ((readVal ≠ 0#8 ∨ c.allowZeros ≠ 0#8) ∧ readValValid ≠ 0#8) ∧
          c.serialLen < bufferSize - 1 then
        { c with
          serialBuffer := c.serialBuffer.set c.serialLen readVal, serialLen := c.serialLen + 1 }
      else c
    { c with port := serialForceTerminate pull c.port }

def serialPoll : Console → Console := serialSend pull input 0#8

def serialSendU32 (val : Word) (c : Console) : Console :=
  (bytes32 val).foldl (fun c b => serialSend pull input b c) c

def serialLineInc (c : Console) : Console := { c with serialLine := c.serialLine + 1#32 }

def serialLineNoscroll (c : Console) : Console := { c with serialLine := 0#32 }

/-- Up to the byte that ends the string. -/
def sendChars : List Byte → Console → Console
  | [], c => c
  | b :: rest, c =>
      if b = 0#8 then c
      else sendChars rest (serialSend pull input b (if b = 0x0A#8 then serialLineInc c else c))

def serialSendStr (str : List Byte) : Console → Console := irqKilled (sendChars pull input str)

/-- `str` is what the format comes to, and at most 0x7FF bytes of it fit. -/
def serialPrintf (str : List Byte) : Console → Console :=
  serialSendStr pull input (str.take 0x7FF)

def times (n : Nat) (f : Console → Console) (c : Console) : Console :=
  (List.range n).foldl (fun c _ => f c) c

def serialClear (c : Console) : Console :=
  -- the count is an `int`
  let getSerialLine := c.serialLine.toInt
  let c :=
    if c.saved then c
    else
      let c := times 256 (serialSend pull input 0x0A#8) c
      let c := serialPrintf pull input [0x1B#8, 0x5B#8, 0x73#8] c
      { c with saved := true }
  let c := serialPrintf pull input [0x1B#8, 0x5B#8, 0x75#8] c
  let c := times getSerialLine.toNat (serialPrintf pull input [0x0A#8]) c
  let c := serialPrintf pull input
    [0x1B#8, 0x5B#8, 0x48#8, 0x1B#8, 0x5B#8, 0x32#8, 0x4A#8] c
  { c with serialLine := 0#32 }

/-- The 256 bytes of `out`, and how many of them were read. -/
def serialInRead (c : Console) : (List Byte × Nat) × Console :=
  let out := List.replicate bufferSize 0#8
  let out := c.serialBuffer.take c.serialLen ++ out.drop c.serialLen
  let out := out.set 255 0#8
  ((out, c.serialLen), { c with serialLen := 0 })

def serialAllowZeros (c : Console) : Console := { c with allowZeros := 1#8 }

def serialDisallowZeros (c : Console) : Console := { c with allowZeros := 0#8 }

end Model

inductive Call where
  | send (val : Byte)
  | poll
  | sendU32 (val : Word)
  | sendStr (str : List Byte)
  | printf (str : List Byte)
  | clear
  | noscroll
  | allowZeros
  | disallowZeros
  | inRead

section Run

variable (pull : Byte) (input : Nat → Word)

/-- The console behind the call, with what it was that a read got. -/
def Call.perform (c : Console) : Call → Console × List (List Byte × Nat)
  | .send val => (serialSend pull input val c, [])
  | .poll => (serialPoll pull input c, [])
  | .sendU32 val => (serialSendU32 pull input val c, [])
  | .sendStr str => (serialSendStr pull input str c, [])
  | .printf str => (serialPrintf pull input str c, [])
  | .clear => (serialClear pull input c, [])
  | .noscroll => (serialLineNoscroll c, [])
  | .allowZeros => (serialAllowZeros c, [])
  | .disallowZeros => (serialDisallowZeros c, [])
  | .inRead => ((serialInRead c).2, [(serialInRead c).1])

def run (c : Console) : List Call → Console × List (List Byte × Nat)
  | [] => (c, [])
  | call :: rest =>
      let (c, first) := call.perform pull input c
      let (c, others) := run c rest
      (c, first ++ others)

end Run

end Stroopwafel.Serial
