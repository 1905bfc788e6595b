import Stroopwafel.Memory

set_option autoImplicit false

/- The part of the ARMv5TE instruction set, in both encodings, that straight-line
stack code and branches use. Every other ARM word is left to a parameter. -/
namespace Arm

open Memory

abbrev Reg := BitVec 4

abbrev sp : Reg := 13#4
abbrev lr : Reg := 14#4

structure Flags where
  n : Bool
  z : Bool
  c : Bool
  v : Bool
  deriving DecidableEq

/-- `regs 15` is not used: the program counter is `pc`, the address of the
instruction about to execute. -/
structure Cpu where
  regs : Reg → Word
  pc : Word
  thumb : Bool
  flags : Flags
  mem : Mem

inductive Cond where
  | al
  | ne
  deriving DecidableEq

inductive Insn where
  | push (list : BitVec 16)
  | pop (list : BitVec 16)
  | ldrPc (cond : Cond) (rt : Reg) (offset : Word)
  | ldrSp (rt : Reg) (offset : Word)
  | strSp (rt : Reg) (offset : Word)
  | mov (rd rm : Reg)
  | cmp (rn : Reg) (value : Word)
  | addSp (value : Word)
  | blx (rm : Reg)
  | bx (rm : Reg)
  | b (offset : Word)
  | bl (offset : Word)
  | blHigh (offset : Word)
  | blLow (offset : Word)
  deriving DecidableEq

/-- Registers of a load/store-multiple list, lowest first. -/
def regList (list : BitVec 16) : List Reg :=
  ((List.range 16).filter fun i => list.getLsbD i).map (BitVec.ofNat 4)

/-- The 24-bit word offset of `B` and `BL`, relative to the instruction. -/
def branchOffset (w : Word) : Word := ((w.extractLsb' 0 24).signExtend 32 <<< 2) + 8#32

/-- The literal offset of `LDR Rt, [PC, #±imm12]`, relative to the read `PC`. -/
def literalOffset (w : Word) : Word :=
  let imm := (w.extractLsb' 0 12).setWidth 32
  if w.getLsbD 23 then imm else -imm

/-- Base register and `PC` in a store list, and base register in a load list, are
unpredictable and not decoded. -/
def decodeArm (w : Word) : Option Insn :=
  if w &&& 0xFFFFA000#32 = 0xE92D0000#32 then some (.push (w.extractLsb' 0 16))
  else if w &&& 0xFFFF2000#32 = 0xE8BD0000#32 then some (.pop (w.extractLsb' 0 16))
  else if w = 0xE52DE004#32 then some (.push 0x4000#16)
  else if w &&& 0xFF7F0000#32 = 0xE51F0000#32 then
    some (.ldrPc .al (w.extractLsb' 12 4) (literalOffset w))
  else if w &&& 0xFF7F0000#32 = 0x151F0000#32 then
    some (.ldrPc .ne (w.extractLsb' 12 4) (literalOffset w))
  else if w &&& 0xFFFFFFF0#32 = 0xE12FFF30#32 ∧ w.extractLsb' 0 4 ≠ 15#4 then
    some (.blx (w.extractLsb' 0 4))
  else if w &&& 0xFFFFFFF0#32 = 0xE12FFF10#32 ∧ w.extractLsb' 0 4 ≠ 15#4 then
    some (.bx (w.extractLsb' 0 4))
  else if w &&& 0xFFFF0FF0#32 = 0xE1A00000#32 ∧ w.extractLsb' 12 4 ≠ 15#4 ∧
      w.extractLsb' 0 4 ≠ 15#4 then
    some (.mov (w.extractLsb' 12 4) (w.extractLsb' 0 4))
  else if w &&& 0xFFF0FF00#32 = 0xE3500000#32 ∧ w.extractLsb' 16 4 ≠ 15#4 then
    some (.cmp (w.extractLsb' 16 4) ((w.extractLsb' 0 8).setWidth 32))
  else if w &&& 0xFFFFFF00#32 = 0xE28DD000#32 then some (.addSp ((w.extractLsb' 0 8).setWidth 32))
  else if w &&& 0xFF000000#32 = 0xEA000000#32 then some (.b (branchOffset w))
  else if w &&& 0xFF000000#32 = 0xEB000000#32 then some (.bl (branchOffset w))
  else none

/-- Low registers of a Thumb `PUSH`/`POP`, with `extra` selected by bit 8. -/
def thumbList (h : Half) (extra : BitVec 16) : BitVec 16 :=
  (h.extractLsb' 0 8).setWidth 16 ||| (if h.getLsbD 8 then extra else 0#16)

def thumbMovTarget (h : Half) : Reg := h.extractLsb' 7 1 ++ h.extractLsb' 0 3

def thumbWordOffset (h : Half) (bits : Nat) : Word := (h.extractLsb' 0 bits).setWidth 32 <<< 2

def decodeThumb (h : Half) : Option Insn :=
  let low : Reg := (h.extractLsb' 8 3).setWidth 4
  if h &&& 0xFE00#16 = 0xB400#16 then some (.push (thumbList h 0x4000#16))
  else if h &&& 0xFE00#16 = 0xBC00#16 then some (.pop (thumbList h 0x8000#16))
  else if h &&& 0xF800#16 = 0x4800#16 then some (.ldrPc .al low (thumbWordOffset h 8))
  else if h &&& 0xF800#16 = 0x9000#16 then some (.strSp low (thumbWordOffset h 8))
  else if h &&& 0xF800#16 = 0x9800#16 then some (.ldrSp low (thumbWordOffset h 8))
  else if h &&& 0xFF87#16 = 0x4780#16 ∧ h.extractLsb' 3 4 ≠ 15#4 then
    some (.blx (h.extractLsb' 3 4))
  else if h &&& 0xFF87#16 = 0x4700#16 ∧ h.extractLsb' 3 4 ≠ 15#4 then
    some (.bx (h.extractLsb' 3 4))
  else if h &&& 0xFF00#16 = 0x4600#16 ∧ thumbMovTarget h ≠ 15#4 ∧ h.extractLsb' 3 4 ≠ 15#4 then
    some (.mov (thumbMovTarget h) (h.extractLsb' 3 4))
  else if h &&& 0xFF80#16 = 0xB000#16 then some (.addSp (thumbWordOffset h 7))
  else if h &&& 0xF800#16 = 0xF000#16 then
    some (.blHigh ((h.extractLsb' 0 11).signExtend 32 <<< 12))
  else if h &&& 0xF800#16 = 0xF800#16 then
    some (.blLow ((h.extractLsb' 0 11).setWidth 32 <<< 1))
  else none

def Cpu.set (c : Cpu) (r : Reg) (value : Word) : Cpu :=
  { c with regs := fun i => if i = r then value else c.regs i }

def Cpu.store (c : Cpu) (address value : Word) : Cpu :=
  { c with mem := write32 c.mem address value }

def Cpu.size (c : Cpu) : Word := if c.thumb then 2#32 else 4#32

def Cpu.next (c : Cpu) : Cpu := { c with pc := c.pc + c.size }

/-- A branch that also selects the instruction set, by bit 0 of the address. -/
def Cpu.interwork (c : Cpu) (target : Word) : Cpu :=
  { c with pc := target &&& ~~~1#32, thumb := target.getLsbD 0 }

/-- `PC` as an operand: two instructions ahead, and word-aligned for literals. -/
def Cpu.literalBase (c : Cpu) : Word := (c.pc + c.size + c.size) &&& ~~~3#32

/-- The return address a call leaves in `LR`, with the caller's instruction set. -/
def Cpu.returnAddress (c : Cpu) : Word :=
  if c.thumb then (c.pc + c.size) ||| 1#32 else c.pc + c.size

def Aligned (a : Word) : Prop := a &&& 3#32 = 0#32

instance (a : Word) : Decidable (Aligned a) := inferInstanceAs (Decidable (_ = _))

def loadRegs (m : Mem) : List Reg → Word → (Reg → Word) → Reg → Word
  | [], _, regs => regs
  | r :: rest, a, regs =>
      loadRegs m rest (a + 4#32) fun i => if i = r then read32 m a else regs i

def Cpu.push (c : Cpu) (rs : List Reg) : Cpu :=
  let base := c.regs sp - BitVec.ofNat 32 (4 * rs.length)
  { c with mem := writeWords c.mem base (rs.map c.regs) }.set sp base

def Cpu.pop (c : Cpu) (rs : List Reg) : Cpu :=
  { c with regs := loadRegs c.mem rs (c.regs sp) c.regs }.set sp
    (c.regs sp + BitVec.ofNat 32 (4 * rs.length))

def Flags.compare (a b : Word) : Flags :=
  { n := (a - b).msb, z := a == b, c := decide (b ≤ a), v := BitVec.ssubOverflow a b }

def Cpu.compare (c : Cpu) (a b : Word) : Cpu := { c with flags := Flags.compare a b }

def Cond.holds : Cond → Flags → Bool
  | .al, _ => true
  | .ne, flags => !flags.z

/-- Unaligned data accesses have no meaning in the model. -/
def exec (c : Cpu) : Insn → Option Cpu
  | .push list =>
      if Aligned (c.regs sp) then some (c.push (regList list)).next else none
  | .pop list =>
      if Aligned (c.regs sp) then
        let loaded := c.pop (regList (list &&& 0x7FFF#16))
        if list.getLsbD 15 then
          let target := read32 c.mem (loaded.regs sp)
          some ((loaded.set sp (loaded.regs sp + 4#32)).interwork target)
        else some loaded.next
      else none
  | .ldrPc cond rt offset =>
      let address := c.literalBase + offset
      if cond.holds c.flags then
        if Aligned address then
          if rt = 15#4 then some (c.interwork (read32 c.mem address))
          else some (c.set rt (read32 c.mem address)).next
        else none
      else some c.next
  | .ldrSp rt offset =>
      if Aligned (c.regs sp) then some (c.set rt (read32 c.mem (c.regs sp + offset))).next
      else none
  | .strSp rt offset =>
      if Aligned (c.regs sp) then
        some (c.store (c.regs sp + offset) (c.regs rt)).next
      else none
  | .mov rd rm => some (c.set rd (c.regs rm)).next
  | .cmp rn value => some (c.compare (c.regs rn) value).next
  | .addSp value => some (c.set sp (c.regs sp + value)).next
  | .blx rm => some ((c.set lr c.returnAddress).interwork (c.regs rm))
  | .bx rm => some (c.interwork (c.regs rm))
  | .b offset => some { c with pc := c.pc + offset }
  | .bl offset => some { c.set lr c.returnAddress with pc := c.pc + offset }
  | .blHigh offset => some (c.set lr (c.pc + 4#32 + offset)).next
  | .blLow offset => some { c.set lr c.returnAddress with pc := c.regs lr + offset }

section Execution

/- Meaning of the ARM words that `decodeArm` does not cover. -/
variable (other : Word → Cpu → Option Cpu)

def execWord (w : Word) (c : Cpu) : Option Cpu :=
  match decodeArm w with
  | some insn => exec c insn
  | none => other w c

def step (c : Cpu) : Option Cpu :=
  if c.thumb then (decodeThumb (read16 c.mem c.pc)).bind (exec c)
  else execWord other (read32 c.mem c.pc) c

def run : Nat → Cpu → Option Cpu
  | 0, c => some c
  | n + 1, c => (step other c).bind (run n)

end Execution

end Arm
