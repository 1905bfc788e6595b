import Stroopwafel.Memory

set_option autoImplicit false

namespace Stroopwafel.Gpio

open Memory

/-- The 32-bit registers, by their addresses. -/
abbrev Regs := Word → Word

section Access

variable (r : Regs) (addr : Word)

def write (data : Word) : Regs := fun x => if x = addr then data else r x

def set32 (set : Word) : Regs := write r addr (r addr ||| set)

def clear32 (clear : Word) : Regs := write r addr (r addr &&& ~~~clear)

def mask32 (clear set : Word) : Regs := write r addr ((r addr &&& ~~~clear) ||| set)

end Access

def bit (n : Half) : Word := 1#32 <<< n.toNat

/-- The registers of one bank. -/
structure Bank where
  owner : Word
  enable : Word
  out : Word
  eOut : Word
  dir : Word
  eDir : Word
  intlvl : Word
  eIntlvl : Word
  intmask : Word
  eIntmask : Word

namespace Bank

variable (b : Bank)

def registers : List Word :=
  [b.owner, b.enable, b.out, b.eOut, b.dir, b.eDir, b.intlvl, b.eIntlvl, b.intmask, b.eIntmask]

variable (r : Regs) (gpioId : Half)

def set (val : Byte) : Regs :=
  let r := clear32 r b.owner (bit gpioId)
  let r := mask32 r b.out (bit gpioId) (if val ≠ 0#8 then bit gpioId else 0#32)
  mask32 r b.eOut (bit gpioId) (if val ≠ 0#8 then bit gpioId else 0#32)

def enablePin (val : Byte) : Regs :=
  let r := clear32 r b.owner (bit gpioId)
  let r := clear32 r b.intlvl (bit gpioId)
  let r := clear32 r b.eIntlvl (bit gpioId)
  let r := clear32 r b.intmask (bit gpioId)
  let r := clear32 r b.eIntmask (bit gpioId)
  mask32 r b.enable (bit gpioId) (if val ≠ 0#8 then bit gpioId else 0#32)

/-- The bits are set, and never cleared. -/
def setDir (dir : Byte) : Regs :=
  let r := clear32 r b.owner (bit gpioId)
  let r := set32 r b.eDir (if dir ≠ 0#8 then bit gpioId else 0#32)
  set32 r b.dir (if dir ≠ 0#8 then bit gpioId else 0#32)

end Bank

/-- `LT_GPIO_OWNER` and the others, and `LT_GPIO2_OWNER` and the others -/
def gpio : Bank where
  owner := 0x0D8000FC#32
  enable := 0x0D8000DC#32
  out := 0x0D8000E0#32
  eOut := 0x0D8000C0#32
  dir := 0x0D8000E4#32
  eDir := 0x0D8000C4#32
  intlvl := 0x0D8000EC#32
  eIntlvl := 0x0D8000CC#32
  intmask := 0x0D8000F4#32
  eIntmask := 0x0D8000D4#32

def gpio2 : Bank where
  owner := 0x0D80055C#32
  enable := 0x0D80053C#32
  out := 0x0D800540#32
  eOut := 0x0D800520#32
  dir := 0x0D800544#32
  eDir := 0x0D800524#32
  intlvl := 0x0D80054C#32
  eIntlvl := 0x0D80052C#32
  intmask := 0x0D800554#32
  eIntmask := 0x0D800534#32

def gpioSet (r : Regs) (gpioId : Half) (val : Byte) : Regs := gpio.set r gpioId val
def gpioEnable (r : Regs) (gpioId : Half) (val : Byte) : Regs := gpio.enablePin r gpioId val
def gpioSetDir (r : Regs) (gpioId : Half) (dir : Byte) : Regs := gpio.setDir r gpioId dir
def gpio2Set (r : Regs) (gpioId : Half) (val : Byte) : Regs := gpio2.set r gpioId val
def gpio2Enable (r : Regs) (gpioId : Half) (val : Byte) : Regs := gpio2.enablePin r gpioId val
def gpio2SetDir (r : Regs) (gpioId : Half) (dir : Byte) : Regs := gpio2.setDir r gpioId dir

inductive Action where
  | set
  | enable
  | setDir
  deriving DecidableEq

/-- A call of one of the six functions. -/
structure Call where
  second : Bool
  action : Action
  gpioId : Half
  val : Byte

namespace Call

def perform (c : Call) (r : Regs) : Regs :=
  match c.second, c.action with
  | false, .set => gpioSet r c.gpioId c.val
  | false, .enable => gpioEnable r c.gpioId c.val
  | false, .setDir => gpioSetDir r c.gpioId c.val
  | true, .set => gpio2Set r c.gpioId c.val
  | true, .enable => gpio2Enable r c.gpioId c.val
  | true, .setDir => gpio2SetDir r c.gpioId c.val

variable (c : Call)

def bank : Bank := if c.second then gpio2 else gpio

/-- The registers with the bit that the call is for. -/
def addressed : List Word :=
  match c.action with
  | .set => [c.bank.out, c.bank.eOut]
  | .enable => [c.bank.enable]
  | .setDir => [c.bank.dir, c.bank.eDir]

/-- The addressed bits are as requested, and the bits of the other pins and all registers that are
not of the bank are as before. -/
def Correct (r : Regs) : Prop :=
  (∀ x ∈ c.addressed, (c.perform r x).getLsbD c.gpioId.toNat = decide (c.val ≠ 0#8)) ∧
    ∀ x i, x ∉ c.bank.registers ∨ i ≠ c.gpioId.toNat →
      (c.perform r x).getLsbD i = (r x).getLsbD i

/-- A direction bit that is to be cleared is clear already. -/
def Clear (r : Regs) : Prop :=
  c.action = .setDir → c.val = 0#8 → ∀ x ∈ c.addressed, (r x).getLsbD c.gpioId.toNat = false

end Call

def run (r : Regs) (calls : List Call) : Regs := calls.foldl (fun r c => c.perform r) r

section Bits

variable (r : Regs) (addr : Word)

theorem bit_getLsbD (n : Half) (i : Nat) (inside : i < 32) :
    (bit n).getLsbD i = decide (i = n.toNat) := by
  unfold bit
  rw [BitVec.getLsbD_shiftLeft, BitVec.getLsbD_one]
  by_cases here : i = n.toNat
  · simp [here]
    omega
  · simp [here]
    omega

theorem set32_eq (set : Word) : set32 r addr set = mask32 r addr 0#32 set := by
  rw [set32, mask32, BitVec.not_zero, BitVec.and_allOnes]

theorem clear32_eq (clear : Word) : clear32 r addr clear = mask32 r addr clear 0#32 := by
  rw [clear32, mask32, BitVec.or_zero]

theorem mask32_getLsbD (clear set x : Word) (i : Nat) (inside : i < 32) :
    (mask32 r addr clear set x).getLsbD i =
      if x = addr then (r x).getLsbD i && !clear.getLsbD i || set.getLsbD i
      else (r x).getLsbD i := by
  unfold mask32 write
  by_cases here : x = addr
  · subst here
    simp [inside]
  · simp [here]

/-- The value that a pin is set to. -/
def chosen (n : Half) (val : Byte) : Word := if val ≠ 0#8 then bit n else 0#32

theorem chosen_getLsbD (n : Half) (val : Byte) (i : Nat) (inside : i < 32) :
    (chosen n val).getLsbD i = (decide (i = n.toNat) && decide (val ≠ 0#8)) := by
  unfold chosen
  by_cases zero : val = 0#8
  · simp [zero]
  · simp [zero, bit_getLsbD n i inside]

theorem mask32_pin (n : Half) (pin : n.toNat < 32) (val : Byte) (x : Word) :
    (mask32 r addr (bit n) (chosen n val) x).getLsbD n.toNat =
      if x = addr then decide (val ≠ 0#8) else (r x).getLsbD n.toNat := by
  rw [mask32_getLsbD r addr _ _ x _ pin, chosen_getLsbD n val _ pin, bit_getLsbD n _ pin]
  simp

theorem set32_pin (n : Half) (pin : n.toNat < 32) (val : Byte) (x : Word) :
    (set32 r addr (chosen n val) x).getLsbD n.toNat =
      if x = addr then (r x).getLsbD n.toNat || decide (val ≠ 0#8)
      else (r x).getLsbD n.toNat := by
  rw [set32_eq, mask32_getLsbD r addr _ _ x _ pin, chosen_getLsbD n val _ pin]
  simp

end Bits

/-- Only the bit `pin` of the registers `regs` may differ. -/
def Touches (regs : List Word) (pin : Nat) (r r' : Regs) : Prop :=
  ∀ x i, x ∉ regs ∨ i ≠ pin → (r' x).getLsbD i = (r x).getLsbD i

section Frame

variable {regs : List Word} {n : Half} {r r' : Regs}

theorem Touches.trans {pin : Nat} {r'' : Regs} (first : Touches regs pin r r')
    (second : Touches regs pin r' r'') : Touches regs pin r r'' :=
  fun x i other => (second x i other).trans (first x i other)

theorem mask32_touches (addr clear set : Word) (listed : addr ∈ regs)
    (clears : ∀ i < 32, i ≠ n.toNat → clear.getLsbD i = false)
    (sets : ∀ i < 32, i ≠ n.toNat → set.getLsbD i = false) :
    Touches regs n.toNat r (mask32 r addr clear set) := by
  intro x i other
  by_cases inside : i < 32
  · rw [mask32_getLsbD r addr clear set x i inside]
    by_cases here : x = addr
    · have different : i ≠ n.toNat := other.resolve_left fun absent => absent (here ▸ listed)
      rw [if_pos here, clears i inside different, sets i inside different]
      simp
    · rw [if_neg here]
  · rw [BitVec.getLsbD_of_ge _ i (Nat.le_of_not_lt inside),
      BitVec.getLsbD_of_ge _ i (Nat.le_of_not_lt inside)]

theorem bit_elsewhere (i : Nat) (inside : i < 32) (other : i ≠ n.toNat) :
    (bit n).getLsbD i = false := by
  rw [bit_getLsbD n i inside, decide_eq_false other]

theorem chosen_elsewhere (val : Byte) (i : Nat) (inside : i < 32) (other : i ≠ n.toNat) :
    (chosen n val).getLsbD i = false := by
  rw [chosen_getLsbD n val i inside, decide_eq_false other, Bool.false_and]

theorem zero_elsewhere (i : Nat) (_ : i < 32) (_ : i ≠ n.toNat) : (0#32).getLsbD i = false :=
  BitVec.getLsbD_zero

theorem choose_touches (addr : Word) (val : Byte) (listed : addr ∈ regs) :
    Touches regs n.toNat r (mask32 r addr (bit n) (chosen n val)) :=
  mask32_touches addr _ _ listed bit_elsewhere (chosen_elsewhere val)

theorem clear_touches (addr : Word) (listed : addr ∈ regs) :
    Touches regs n.toNat r (clear32 r addr (bit n)) := by
  rw [clear32_eq]
  exact mask32_touches addr _ _ listed bit_elsewhere zero_elsewhere

theorem set_touches (addr : Word) (val : Byte) (listed : addr ∈ regs) :
    Touches regs n.toNat r (set32 r addr (chosen n val)) := by
  rw [set32_eq]
  exact mask32_touches addr _ _ listed zero_elsewhere (chosen_elsewhere val)

end Frame

namespace Bank

variable (b : Bank) (r : Regs) (n : Half) (val : Byte)

theorem set_frame : Touches b.registers n.toNat r (b.set r n val) :=
  ((clear_touches b.owner (by simp [registers])).trans
    (choose_touches b.out val (by simp [registers]))).trans
    (choose_touches b.eOut val (by simp [registers]))

theorem enablePin_frame : Touches b.registers n.toNat r (b.enablePin r n val) :=
  (((((clear_touches b.owner (by simp [registers])).trans
    (clear_touches b.intlvl (by simp [registers]))).trans
    (clear_touches b.eIntlvl (by simp [registers]))).trans
    (clear_touches b.intmask (by simp [registers]))).trans
    (clear_touches b.eIntmask (by simp [registers]))).trans
    (choose_touches b.enable val (by simp [registers]))

theorem setDir_frame : Touches b.registers n.toNat r (b.setDir r n val) :=
  ((clear_touches b.owner (by simp [registers])).trans
    (set_touches b.eDir val (by simp [registers]))).trans
    (set_touches b.dir val (by simp [registers]))

/-- No register is in the place of another one. -/
def Distinct : Prop := b.registers.Nodup

instance : Decidable b.Distinct := inferInstanceAs (Decidable (List.Nodup _))

variable (pin : n.toNat < 32)
include pin

theorem set_pin (x : Word) (addressed : x ∈ [b.out, b.eOut]) :
    (b.set r n val x).getLsbD n.toNat = decide (val ≠ 0#8) := by
  unfold set
  rw [← chosen]
  simp only [mask32_pin _ _ n pin]
  simp only [List.mem_cons, List.not_mem_nil, or_false] at addressed
  by_cases here : x = b.eOut
  · rw [if_pos here]
  · rw [if_neg here, if_pos (addressed.resolve_right here)]

theorem enablePin_pin :
    (b.enablePin r n val b.enable).getLsbD n.toNat = decide (val ≠ 0#8) := by
  unfold enablePin
  rw [← chosen]
  simp only [mask32_pin _ _ n pin, if_true]

/-- A direction bit is the old one, or set. -/
theorem setDir_pin (distinct : b.Distinct) (x : Word) (addressed : x ∈ [b.dir, b.eDir]) :
    (b.setDir r n val x).getLsbD n.toNat =
      ((r x).getLsbD n.toNat || decide (val ≠ 0#8)) := by
  unfold Distinct registers at distinct
  simp only [List.nodup_cons, List.mem_cons, List.not_mem_nil, or_false, not_or] at distinct
  simp only [List.mem_cons, List.not_mem_nil, or_false] at addressed
  have owner : clear32 r b.owner (bit n) x = r x := by
    apply if_neg
    rcases addressed with rfl | rfl
    · exact fun same => distinct.1.2.2.2.1 same.symm
    · exact fun same => distinct.1.2.2.2.2.1 same.symm
  have views : b.dir ≠ b.eDir := distinct.2.2.2.2.1.1
  unfold setDir
  rw [← chosen]
  simp only [set32_pin _ _ n pin, owner]
  rcases addressed with rfl | rfl
  · rw [if_pos rfl, if_neg views]
  · rw [if_neg views.symm, if_pos rfl]

end Bank

namespace Call

variable (c : Call) (r : Regs)

theorem perform_eq :
    c.perform r = match c.action with
      | .set => c.bank.set r c.gpioId c.val
      | .enable => c.bank.enablePin r c.gpioId c.val
      | .setDir => c.bank.setDir r c.gpioId c.val := by
  obtain ⟨second, action, gpioId, val⟩ := c
  cases second <;> cases action <;> rfl

theorem bank_distinct : c.bank.Distinct := by
  unfold bank
  cases c.second
  · decide
  · decide

theorem frame : Touches c.bank.registers c.gpioId.toNat r (c.perform r) := by
  rw [perform_eq]
  cases c.action with
  | set => exact c.bank.set_frame r c.gpioId c.val
  | enable => exact c.bank.enablePin_frame r c.gpioId c.val
  | setDir => exact c.bank.setDir_frame r c.gpioId c.val

/-- One call does what is asked exactly when no direction bit is to be cleared. -/
theorem correct_iff (pin : c.gpioId.toNat < 32) : c.Correct r ↔ c.Clear r := by
  have framed := c.frame r
  unfold Touches at framed
  unfold Correct
  rw [and_iff_left framed]
  unfold Clear addressed
  rw [perform_eq]
  cases c.action with
  | set =>
      have requested := c.bank.set_pin r c.gpioId c.val pin
      exact ⟨fun _ => nofun, fun _ => requested⟩
  | enable =>
      have requested := c.bank.enablePin_pin r c.gpioId c.val pin
      refine ⟨fun _ => nofun, fun _ x member => ?_⟩
      rw [List.mem_singleton.mp member]
      exact requested
  | setDir =>
      have direction := c.bank.setDir_pin r c.gpioId c.val pin c.bank_distinct
      constructor
      · intro requested _ zero x member
        have bits := (direction x member).symm.trans (requested x member)
        simpa [zero] using bits
      · intro clear x member
        rw [direction x member]
        by_cases zero : c.val = 0#8
        · rw [clear rfl zero x member]
          rfl
        · simp [zero]

end Call

/-- After each call of a run the pin has what was asked for and the other pins have what they had,
if and only if no call has to clear a direction bit that is set. -/
theorem run_correct_iff (r : Regs) (calls : List Call)
    (pins : ∀ c ∈ calls, c.gpioId.toNat < 32) :
    (∀ front c back, calls = front ++ c :: back → c.Correct (run r front)) ↔
      ∀ front c back, calls = front ++ c :: back → c.Clear (run r front) := by
  have each : ∀ front c back, calls = front ++ c :: back →
      (c.Correct (run r front) ↔ c.Clear (run r front)) := by
    intro front c back split
    apply c.correct_iff
    apply pins
    rw [split]
    exact List.mem_append_right _ List.mem_cons_self
  constructor
  · intro correct front c back split
    exact (each front c back split).mp (correct front c back split)
  · intro clear front c back split
    exact (each front c back split).mpr (clear front c back split)

/-- A pin of either bank becomes an output that is driven high. -/
def driven : List Call :=
  [⟨false, .enable, 2#16, 1#8⟩, ⟨false, .setDir, 2#16, 1#8⟩, ⟨true, .setDir, 5#16, 1#8⟩,
    ⟨false, .set, 2#16, 1#8⟩, ⟨true, .set, 5#16, 1#8⟩]

theorem run_correct_iff_driven :
    (∀ c ∈ driven, c.gpioId.toNat < 32) ∧
      ∀ front c back, driven = front ++ c :: back → c.Correct (run (fun _ => 0#32) front) := by
  refine ⟨by decide, (run_correct_iff (fun _ => 0#32) driven (by decide)).mpr ?_⟩
  intro front c back split direction zero
  have nonzero : ∀ c ∈ driven, c.val ≠ 0#8 := by decide
  exact absurd zero (nonzero c (split ▸ List.mem_append_right _ List.mem_cons_self))

/-- An output becomes an input: the direction is set to 1 and to 0 again. -/
def turned : List Call := [⟨false, .setDir, 2#16, 1#8⟩, ⟨false, .setDir, 2#16, 0#8⟩]

/-- The pin is still an output. -/
theorem turned_still_output :
    ¬ ∀ front c back, turned = front ++ c :: back → c.Correct (run (fun _ => 0#32) front) := by
  intro correct
  have last := (correct [⟨false, .setDir, 2#16, 1#8⟩] ⟨false, .setDir, 2#16, 0#8⟩ [] rfl).1
    gpio.dir (by decide)
  exact absurd last (by decide)

end Stroopwafel.Gpio
