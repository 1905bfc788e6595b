import Stroopwafel.SerialWire

set_option autoImplicit false

namespace Stroopwafel.Serial

open Memory Gpio ClockedLine

/-- A bit on the data pin, with the clock low. -/
def dataPin (bit : Bool) : Byte := (BitVec.ofBool bit).setWidth 8

/-- The bytes that a call has put on the line reach the receiver. What came before them is not a
byte of the console, and there is nothing of that kind when the receiver was in step. -/
structure Says (rx : Receiver 8) (p p' : Port) (bytes : List Byte) : Prop where
  exact : ∀ line, InStep rx p line →
    (∃ line', InStep rx p' line') ∧ (hear rx p').2 = (hear rx p).2 ++ bytes
  start : ∃ stale, (hear rx p').2 = (hear rx p).2 ++ stale ++ bytes
  inStep : bytes ≠ [] → ∃ line, InStep rx p' line

/-- More stores with interrupts off; in the end the status is the one from before. -/
structure Masked (p p' : Port) : Prop where
  cpsr : p'.cpsr = p.cpsr
  samples : ∃ more, p'.samples = p.samples ++ more ∧ ∀ s ∈ more, s.cpsr &&& 0xC0#32 = 0xC0#32
  frame : ∀ x i, ¬ Written x i → (p'.regs x).getLsbD i = (p.regs x).getLsbD i

section Composition

variable {rx : Receiver 8} {p p' p'' : Port}

theorem Says.refl (rx : Receiver 8) (p : Port) : Says rx p p [] where
  exact line inStep := ⟨⟨line, inStep⟩, by rw [List.append_nil]⟩
  start := ⟨[], by rw [List.append_nil, List.append_nil]⟩
  inStep absurdity := absurd rfl absurdity

theorem Says.trans {first second : List Byte} (one : Says rx p p' first)
    (two : Says rx p' p'' second) : Says rx p p'' (first ++ second) where
  exact line inStep := by
    obtain ⟨⟨line', inStep'⟩, heard⟩ := one.exact line inStep
    obtain ⟨inStep'', heard'⟩ := two.exact line' inStep'
    exact ⟨inStep'', by rw [heard', heard, List.append_assoc]⟩
  start := by
    obtain ⟨stale, heard⟩ := one.start
    by_cases silent : first = []
    · obtain ⟨stale', heard'⟩ := two.start
      refine ⟨stale ++ stale', ?_⟩
      rw [heard', heard, silent, List.append_nil, List.nil_append, List.append_assoc _ stale]
    · obtain ⟨line, inStep⟩ := one.inStep silent
      refine ⟨stale, ?_⟩
      rw [(two.exact line inStep).2, heard, List.append_assoc _ first]
  inStep spoke := by
    by_cases silent : second = []
    · have said : first ≠ [] := fun quiet => spoke (by rw [quiet, silent]; rfl)
      obtain ⟨line, inStep⟩ := one.inStep said
      exact (two.exact line inStep).1
    · exact two.inStep silent

theorem Masked.refl (p : Port) : Masked p p where
  cpsr := rfl
  samples := ⟨[], by rw [List.append_nil], fun _ absent => absurd absent List.not_mem_nil⟩
  frame _ _ _ := rfl

theorem Masked.trans (one : Masked p p') (two : Masked p' p'') : Masked p p'' where
  cpsr := two.cpsr.trans one.cpsr
  samples := by
    obtain ⟨more, samples, masked⟩ := one.samples
    obtain ⟨more', samples', masked'⟩ := two.samples
    refine ⟨more ++ more', by rw [samples', samples, List.append_assoc], fun s member => ?_⟩
    exact (List.mem_append.mp member).elim (masked s) (masked' s)
  frame x i other := (two.frame x i other).trans (one.frame x i other)

end Composition

section Bits

theorem chosen_bit (val : Byte) (j : Nat) :
    (if val &&& (1#8 <<< j) ≠ 0#8 then 1#8 else 0#8) = dataPin (val.getLsbD j) := by
  rw [show 1#8 <<< j = BitVec.twoPow 8 j from rfl, BitVec.and_twoPow]
  cases bit : val.getLsbD j with
  | false => rfl
  | true =>
      have nonzero : BitVec.twoPow 8 j ≠ 0#8 := by
        intro zero
        have inside := BitVec.lt_of_getLsbD bit
        have high : (BitVec.twoPow 8 j).getLsbD j = true := by simp [inside]
        rw [zero, BitVec.getLsbD_zero] at high
        exact absurd high Bool.false_ne_true
      rw [if_pos rfl, if_pos nonzero]
      rfl

theorem bitsOf_byte (val : Byte) :
    bitsOf val = val.getLsbD 7 :: [6, 5, 4, 3, 2, 1, 0].map val.getLsbD := rfl

theorem lineOf_low (bit : Bool) : lineOf (dataPin bit) = ⟨false, false, bit⟩ := by
  cases bit <;> rfl

theorem lineOf_high (bit : Bool) : lineOf (0x80#8 ||| dataPin bit) = ⟨true, false, bit⟩ := by
  cases bit <;> rfl

theorem low_unset (bit : Bool) : (dataPin bit).getLsbD 6 = false := by cases bit <;> rfl

theorem high_unset (bit : Bool) : (0x80#8 ||| dataPin bit).getLsbD 6 = false := by
  cases bit <;> rfl

theorem got_bit (w : Word) : (w >>> inPin &&& 1#32).setWidth 8 = dataPin (w.getLsbD inPin) := by
  apply BitVec.eq_of_getLsbD_eq
  intro i inside
  unfold dataPin
  simp only [BitVec.getLsbD_setWidth, BitVec.getLsbD_and, BitVec.getLsbD_ushiftRight,
    BitVec.getLsbD_ofBool, BitVec.getLsbD_one, inside]
  by_cases low : i = 0
  · simp [low]
  · simp [low]

end Bits

section Loop

variable (pull : Byte) (input : Nat → Word)

/-- The rest of the body behind the first poll. -/
def clockHigh (bit : Bool) (p : Port) : Port :=
  (gpioDebugSerialRead pull input (gpioDebugSerialSend pull (0x80#8 ||| dataPin bit) p)).2

theorem sendBit_first (val : Byte) (p : Port) (readVal valid : Byte) :
    sendBit pull input val (p, readVal, valid) 7 =
      (clockHigh pull input (val.getLsbD 7)
          (gpioDebugSerialRead pull input (gpioDebugSerialSend pull (dataPin (val.getLsbD 7)) p)).2,
        pushBit readVal ((input (p.polls + 1)).getLsbD inPin),
        dataPin ((input p.polls).getLsbD inPin)) := by
  unfold sendBit
  rw [chosen_bit]
  exact Prod.ext rfl (Prod.ext (congrArg (readVal <<< 1 ||| ·) (got_bit _)) (got_bit _))

theorem sendBit_next (val : Byte) (p : Port) (readVal valid : Byte) (j : Nat) (next : j ≠ 7) :
    sendBit pull input val (p, readVal, valid) j =
      (clockHigh pull input (val.getLsbD j)
          (gpioDebugSerialSend pull (dataPin (val.getLsbD j)) p),
        pushBit readVal ((input p.polls).getLsbD inPin), valid) := by
  unfold sendBit
  rw [chosen_bit]
  simp only [if_neg next]
  exact Prod.ext rfl (Prod.ext (congrArg (readVal <<< 1 ||| ·) (got_bit _)) rfl)

theorem calm_clockHigh (bit : Bool) (p : Port) : Calm p (clockHigh pull input bit p) :=
  (calm_send pull p _ (high_unset bit)).trans (calm_read pull input _)

variable {rx : Receiver 8} {p : Port} {line : Line}

theorem InStep.clockHigh {bit : Bool} (inStep : InStep rx p ⟨false, false, bit⟩) :
    InStep rx (clockHigh pull input bit p) ⟨true, false, bit⟩ ∧
      hear rx (clockHigh pull input bit p) =
        (⟨true, pushBit (hear rx p).1.shift bit⟩, (hear rx p).2) := by
  have risen := inStep_send pull rx p (0x80#8 ||| dataPin bit)
  have heard := inStep.send pull (0x80#8 ||| dataPin bit)
  rw [lineOf_high] at risen heard
  obtain ⟨read, same⟩ := risen.read pull input
  refine ⟨read, same.trans (heard.trans ?_)⟩
  rw [oneMore, sample_bit _ _ rfl inStep.clock rfl, List.append_nil]

theorem InStep.clockLow (inStep : InStep rx p line) (val : Byte)
    (low : (lineOf val).clock = false) :
    hear rx (gpioDebugSerialSend pull val p) =
      (⟨false, (hear rx p).1.shift⟩, (hear rx p).2) := by
  rw [inStep.send, oneMore, sample_low _ _ low, List.append_nil]

/-- All but the first pass of the loop, by induction on the bits that are left. -/
theorem foldl_sendBit (val readVal valid : Byte) (js : List Nat) (next : ∀ j ∈ js, j ≠ 7)
    (p : Port) :
    ∃ p', js.foldl (sendBit pull input val) (p, readVal, valid) =
        (p', ((List.range' p.polls js.length).map fun k => (input k).getLsbD inPin).foldl
          pushBit readVal, valid) ∧
      Calm p p' ∧ p'.polls = p.polls + js.length ∧
      ∀ rx line, InStep rx p line → (∃ line', InStep rx p' line') ∧
        (hear rx p').1.shift = (js.map val.getLsbD).foldl pushBit (hear rx p).1.shift ∧
        (hear rx p').2 = (hear rx p).2 := by
  induction js generalizing p readVal with
  | nil => exact ⟨p, rfl, Calm.refl p, rfl, fun _ line inStep => ⟨⟨line, inStep⟩, rfl, rfl⟩⟩
  | cons j rest ih =>
      rw [List.foldl_cons, sendBit_next pull input val p readVal valid j
        (next j List.mem_cons_self)]
      obtain ⟨p', loop, calm, polls, hears⟩ := ih (pushBit readVal ((input p.polls).getLsbD inPin))
        (fun j' member => next j' (List.mem_cons_of_mem _ member))
        (clockHigh pull input (val.getLsbD j)
          (gpioDebugSerialSend pull (dataPin (val.getLsbD j)) p))
      have one : (clockHigh pull input (val.getLsbD j)
          (gpioDebugSerialSend pull (dataPin (val.getLsbD j)) p)).polls = p.polls + 1 := rfl
      rw [one] at loop polls
      refine ⟨p', ?_, ?_, ?_, fun rx line inStep => ?_⟩
      · rw [loop, List.length_cons, List.range'_succ, List.map_cons, List.foldl_cons]
      · exact ((calm_send pull p _ (low_unset _)).trans (calm_clockHigh pull input _ _)).trans calm
      · rw [polls, List.length_cons]
        omega
      · have low := inStep_send pull rx p (dataPin (val.getLsbD j))
        rw [lineOf_low] at low
        have fallen := inStep.clockLow pull (dataPin (val.getLsbD j)) (by rw [lineOf_low])
        obtain ⟨high, risen⟩ := low.clockHigh pull input
        obtain ⟨last, shift, bytes⟩ := hears rx _ high
        refine ⟨last, ?_, ?_⟩
        · rw [shift, risen, fallen, List.map_cons, List.foldl_cons]
        · rw [bytes, risen, fallen]

/-- Whether the other end has a byte from the poll `k` on, and the byte. -/
def offer (k : Nat) : Bool × Byte :=
  ((input k).getLsbD inPin,
    ((List.range' (k + 1) 8).map fun k => (input k).getLsbD inPin).foldl pushBit 0#8)

theorem exchange (val : Byte) (p : Port) :
    ∃ p', [7, 6, 5, 4, 3, 2, 1, 0].foldl (sendBit pull input val) (p, 0#8, 0#8) =
        (p', (offer input p.polls).2, dataPin (offer input p.polls).1) ∧
      Calm p p' ∧ p'.polls = p.polls + 9 ∧
      ∀ rx, (∃ line, InStep rx p' line) ∧ (hear rx p').1.shift = val ∧
        (∃ stale, (hear rx p').2 = (hear rx p).2 ++ stale) ∧
        ∀ line, InStep rx p line → (hear rx p').2 = (hear rx p).2 := by
  rw [List.foldl_cons, sendBit_first]
  obtain ⟨p', loop, calm, polls, hears⟩ := foldl_sendBit pull input val
    (pushBit 0#8 ((input (p.polls + 1)).getLsbD inPin)) (dataPin ((input p.polls).getLsbD inPin))
    [6, 5, 4, 3, 2, 1, 0] (by decide)
    (clockHigh pull input (val.getLsbD 7)
      (gpioDebugSerialRead pull input (gpioDebugSerialSend pull (dataPin (val.getLsbD 7)) p)).2)
  have two : (clockHigh pull input (val.getLsbD 7) (gpioDebugSerialRead pull input
      (gpioDebugSerialSend pull (dataPin (val.getLsbD 7)) p)).2).polls = p.polls + 2 := rfl
  rw [two] at loop polls
  refine ⟨p', loop, ?_, polls, fun rx => ?_⟩
  · exact (((calm_send pull p _ (low_unset _)).trans (calm_read pull input _)).trans
      (calm_clockHigh pull input _ _)).trans calm
  · have low := inStep_send pull rx p (dataPin (val.getLsbD 7))
    rw [lineOf_low] at low
    obtain ⟨read, same⟩ := low.read pull input
    obtain ⟨high, risen⟩ := read.clockHigh pull input
    obtain ⟨last, shift, bytes⟩ := hears rx _ high
    rw [risen, same] at shift bytes
    refine ⟨last, ?_, ?_, fun line inStep => ?_⟩
    · rw [shift, ← List.foldl_cons, ← bitsOf_byte]
      exact foldl_bitsOf val _
    · obtain ⟨stale, heard⟩ := heard_send pull rx p (dataPin (val.getLsbD 7))
      exact ⟨stale, bytes.trans heard⟩
    · rw [bytes, inStep.clockLow pull (dataPin (val.getLsbD 7)) (by rw [lineOf_low])]

/-- The second of the four edges is the terminator. -/
theorem InStep.terminate (inStep : InStep rx p line) :
    (∃ line', InStep rx (serialForceTerminate pull p) line') ∧
      (hear rx (serialForceTerminate pull p)).2 = (hear rx p).2 ++ [(hear rx p).1.shift] := by
  have first := inStep_send pull rx p 0x0F#8
  have second := inStep_send pull rx (gpioDebugSerialSend pull 0x0F#8 p) 0x8F#8
  have third := inStep_send pull rx
    (gpioDebugSerialSend pull 0x8F#8 (gpioDebugSerialSend pull 0x0F#8 p)) 0x0F#8
  refine ⟨⟨_, inStep_send pull _ _ _⟩, ?_⟩
  unfold serialForceTerminate
  have mark := first.send pull 0x8F#8
  rw [oneMore, sample_mark _ (lineOf 0x8F#8) rfl first.clock rfl] at mark
  simp only []
  rw [third.clockLow pull _ rfl, second.clockLow pull _ rfl, mark, inStep.clockLow pull _ rfl]

theorem calm_terminate (p : Port) : Calm p (serialForceTerminate pull p) :=
  (((calm_send pull p _ (by decide)).trans (calm_send pull _ _ (by decide))).trans
    (calm_send pull _ _ (by decide))).trans (calm_send pull _ _ (by decide))

end Loop

section Interrupts

theorem irqRestore_irqKill (cpsr : Word) :
    irqRestore (irqKill cpsr).1 (irqKill cpsr).2 = cpsr := by
  unfold irqRestore irqKill
  apply BitVec.eq_of_getLsbD_eq
  intro i inside
  simp only [BitVec.getLsbD_or, BitVec.getLsbD_and, BitVec.getLsbD_not]
  grind

theorem irqKill_masked (cpsr : Word) : (irqKill cpsr).2 &&& 0xC0#32 = 0xC0#32 := by
  unfold irqKill
  apply BitVec.eq_of_getLsbD_eq
  intro i inside
  simp only [BitVec.getLsbD_or, BitVec.getLsbD_and]
  grind

/-- What runs with interrupts off runs masked, and the status comes back. -/
theorem irqKilled_masked (f : Console → Console) (c : Console)
    (inner : Masked { c.port with cpsr := (irqKill c.port.cpsr).2 }
      (f { c with port := { c.port with cpsr := (irqKill c.port.cpsr).2 } }).port) :
    Masked c.port (irqKilled f c).port where
  cpsr := (congrArg (irqRestore (irqKill c.port.cpsr).1) inner.cpsr).trans
    (irqRestore_irqKill c.port.cpsr)
  samples := inner.samples
  frame := inner.frame

theorem Calm.masked {p p' : Port} (calm : Calm p p') (off : p.cpsr &&& 0xC0#32 = 0xC0#32) :
    Masked p p' where
  cpsr := calm.cpsr
  samples := by
    obtain ⟨more, samples, status⟩ := calm.samples
    exact ⟨more, samples, fun s member => by rw [status s member, off]⟩
  frame := calm.frame

end Interrupts

end Stroopwafel.Serial
