import Stroopwafel.Serial

set_option autoImplicit false

namespace Stroopwafel.Serial

open Memory Gpio ClockedLine

/-- The clock is on the highest pin, the data on the lowest; only a terminator sets the mark. -/
def lineOf (pins : Byte) : Line := ⟨pins.getLsbD 7, pins.getLsbD 3, pins.getLsbD 0⟩

/-- What a receiver at the other end has made of all the levels up to now. -/
def hear (rx : Receiver 8) (p : Port) : Receiver 8 × List Byte :=
  receive rx (p.samples.map fun s => lineOf s.pins)

/-- All pins but the sixth are driven. -/
structure Driven (r : Regs) : Prop where
  owner : ∀ i < 8, i ≠ 6 → (r gpio.owner).getLsbD (16 + i) = false
  enable : ∀ i < 8, i ≠ 6 → (r gpio.enable).getLsbD (16 + i) = true
  dir : ∀ i < 8, i ≠ 6 → (r gpio.dir).getLsbD (16 + i) = true

/-- The line that driven pins show. -/
def shown (r : Regs) : Line :=
  ⟨(r gpio.out).getLsbD 23, (r gpio.out).getLsbD 19, (r gpio.out).getLsbD 16⟩

/-- A bit that the console may write. -/
def Written (x : Word) (i : Nat) : Prop :=
  x ∈ [gpio.owner, gpio.enable, gpio.dir, gpio.out] ∧ 16 ≤ i ∧ i < 24 ∧
    (x = gpio.dir ∨ x = gpio.out → i ≠ 22)

section Registers

theorem gpDebugMask_getLsbD : ∀ i < 8, gpDebugMask.getLsbD (16 + i) = true := by decide

theorem gpDebugSerialMask_getLsbD :
    ∀ i < 8, i ≠ 6 → gpDebugSerialMask.getLsbD (16 + i) = true := by decide

theorem gpDebugMask_elsewhere :
    ∀ i < 32, gpDebugMask.getLsbD i = true → 16 ≤ i ∧ i < 24 := by decide

theorem gpDebugSerialMask_elsewhere :
    ∀ i < 32, gpDebugSerialMask.getLsbD i = true → 16 ≤ i ∧ i < 24 ∧ i ≠ 22 := by decide

theorem mask32_other (r : Regs) (addr clear set x : Word) (other : x ≠ addr) :
    mask32 r addr clear set x = r x := if_neg other

theorem clear32_other (r : Regs) (addr clear x : Word) (other : x ≠ addr) :
    clear32 r addr clear x = r x := if_neg other

theorem set32_other (r : Regs) (addr set x : Word) (other : x ≠ addr) :
    set32 r addr set x = r x := if_neg other

theorem placed_getLsbD (val : Byte) (i : Nat) (inside : i < 32) :
    (val.setWidth 32 <<< gpDebugShift).getLsbD i =
      (decide (16 ≤ i) && val.getLsbD (i - 16)) := by
  unfold gpDebugShift
  rw [BitVec.getLsbD_shiftLeft, BitVec.getLsbD_setWidth]
  by_cases low : i < 16
  · have early : ¬ 16 ≤ i := Nat.not_le.mpr low
    simp [low, early]
  · have near : i - 16 < 32 := by omega
    simp [low, inside, near, Nat.le_of_not_lt low]

variable (r : Regs)

theorem owned_bit (i : Nat) (inside : i < 8) :
    (clear32 r gpio.owner gpDebugMask gpio.owner).getLsbD (16 + i) = false := by
  rw [clear32_eq, mask32_getLsbD r _ _ _ _ _ (by omega), if_pos rfl, gpDebugMask_getLsbD i inside,
    Bool.not_true, Bool.and_false, BitVec.getLsbD_zero, Bool.or_false]

theorem enabled_bit (i : Nat) (inside : i < 8) :
    (set32 r gpio.enable gpDebugMask gpio.enable).getLsbD (16 + i) = true := by
  rw [set32_eq, mask32_getLsbD r _ _ _ _ _ (by omega), if_pos rfl, gpDebugMask_getLsbD i inside,
    Bool.or_true]

theorem directed_bit (i : Nat) (inside : i < 8) (output : i ≠ 6) :
    (set32 r gpio.dir gpDebugSerialMask gpio.dir).getLsbD (16 + i) = true := by
  rw [set32_eq, mask32_getLsbD r _ _ _ _ _ (by omega), if_pos rfl,
    gpDebugSerialMask_getLsbD i inside output, Bool.or_true]

variable {r}

theorem Driven.owned (driven : Driven r) : Driven (clear32 r gpio.owner gpDebugMask) where
  owner i inside _ := owned_bit r i inside
  enable i inside output := by
    rw [clear32_other r _ _ _ (by decide)]
    exact driven.enable i inside output
  dir i inside output := by
    rw [clear32_other r _ _ _ (by decide)]
    exact driven.dir i inside output

theorem Driven.enabled (driven : Driven r) : Driven (set32 r gpio.enable gpDebugMask) where
  owner i inside output := by
    rw [set32_other r _ _ _ (by decide)]
    exact driven.owner i inside output
  enable i inside _ := enabled_bit r i inside
  dir i inside output := by
    rw [set32_other r _ _ _ (by decide)]
    exact driven.dir i inside output

theorem Driven.directed (driven : Driven r) : Driven (set32 r gpio.dir gpDebugSerialMask) where
  owner i inside output := by
    rw [set32_other r _ _ _ (by decide)]
    exact driven.owner i inside output
  enable i inside output := by
    rw [set32_other r _ _ _ (by decide)]
    exact driven.enable i inside output
  dir i inside output := directed_bit r i inside output

theorem Driven.out (driven : Driven r) (clear set : Word) :
    Driven (mask32 r gpio.out clear set) where
  owner i inside output := by
    rw [mask32_other r _ _ _ _ (by decide)]
    exact driven.owner i inside output
  enable i inside output := by
    rw [mask32_other r _ _ _ _ (by decide)]
    exact driven.enable i inside output
  dir i inside output := by
    rw [mask32_other r _ _ _ _ (by decide)]
    exact driven.dir i inside output

/-- Whatever the registers held, three stores drive the pins. -/
theorem driven_prepared (r : Regs) :
    Driven (set32 (set32 (clear32 r gpio.owner gpDebugMask) gpio.enable gpDebugMask)
      gpio.dir gpDebugSerialMask) where
  owner i inside _ := by
    rw [set32_other _ _ _ _ (by decide), set32_other _ _ _ _ (by decide)]
    exact owned_bit r i inside
  enable i inside _ := by
    rw [set32_other _ _ _ _ (by decide)]
    exact enabled_bit _ i inside
  dir i inside output := directed_bit _ i inside output

theorem levels_getLsbD (pull : Byte) (driven : Driven r) (i : Nat) (inside : i < 8)
    (output : i ≠ 6) : (levels pull r).getLsbD i = (r gpio.out).getLsbD (16 + i) := by
  have within : 16 + i < 32 := by omega
  unfold levels gpDebugShift
  simp only [BitVec.getLsbD_setWidth, BitVec.getLsbD_ushiftRight, BitVec.getLsbD_or,
    BitVec.getLsbD_and, BitVec.getLsbD_not, driven.owner i inside output,
    driven.enable i inside output, driven.dir i inside output, inside, within]
  simp

theorem lineOf_levels (pull : Byte) (driven : Driven r) : lineOf (levels pull r) = shown r := by
  unfold lineOf shown
  rw [levels_getLsbD pull driven 7 (by decide) (by decide),
    levels_getLsbD pull driven 3 (by decide) (by decide),
    levels_getLsbD pull driven 0 (by decide) (by decide)]

theorem shown_of_out {r' : Regs} (same : r' gpio.out = r gpio.out) : shown r' = shown r := by
  unfold shown
  rw [same]

theorem out_bit (r : Regs) (val : Byte) (i : Nat) (inside : i < 8) (output : i ≠ 6) :
    (mask32 r gpio.out gpDebugSerialMask (val.setWidth 32 <<< gpDebugShift)
      gpio.out).getLsbD (16 + i) = val.getLsbD i := by
  rw [mask32_getLsbD r _ _ _ _ _ (by omega), if_pos rfl,
    gpDebugSerialMask_getLsbD i inside output, placed_getLsbD val _ (by omega), Bool.not_true,
    Bool.and_false, Bool.false_or, decide_eq_true (Nat.le_add_right 16 i), Bool.true_and,
    Nat.add_sub_cancel_left]

theorem shown_out (r : Regs) (val : Byte) :
    shown (mask32 r gpio.out gpDebugSerialMask (val.setWidth 32 <<< gpDebugShift)) =
      lineOf val := by
  unfold shown lineOf
  rw [out_bit r val 7 (by decide) (by decide), out_bit r val 3 (by decide) (by decide),
    out_bit r val 0 (by decide) (by decide)]

end Registers

section Frame

/-- More stores, under the same status and into the bits that the console may write. -/
structure Calm (p p' : Port) : Prop where
  cpsr : p'.cpsr = p.cpsr
  samples : ∃ more, p'.samples = p.samples ++ more ∧ ∀ s ∈ more, s.cpsr = p.cpsr
  frame : ∀ x i, ¬ Written x i → (p'.regs x).getLsbD i = (p.regs x).getLsbD i

theorem Calm.refl (p : Port) : Calm p p where
  cpsr := rfl
  samples := ⟨[], by simp, fun _ absent => absurd absent List.not_mem_nil⟩
  frame _ _ _ := rfl

theorem Calm.trans {p p' p'' : Port} (first : Calm p p') (second : Calm p' p'') : Calm p p'' where
  cpsr := second.cpsr.trans first.cpsr
  samples := by
    obtain ⟨more, samples, calm⟩ := first.samples
    obtain ⟨more', samples', calm'⟩ := second.samples
    refine ⟨more ++ more', by rw [samples', samples, List.append_assoc], fun s member => ?_⟩
    rcases List.mem_append.mp member with early | late
    · exact calm s early
    · exact (calm' s late).trans first.cpsr
  frame x i other := (second.frame x i other).trans (first.frame x i other)

theorem mask32_frame (r : Regs) (addr clear set : Word)
    (written : ∀ i < 32, clear.getLsbD i = true ∨ set.getLsbD i = true → Written addr i)
    (x : Word) (i : Nat) (other : ¬ Written x i) :
    (mask32 r addr clear set x).getLsbD i = (r x).getLsbD i := by
  by_cases inside : i < 32
  · rw [mask32_getLsbD r addr clear set x i inside]
    by_cases here : x = addr
    · have neither := mt (written i inside) (here ▸ other)
      rw [not_or, Bool.not_eq_true, Bool.not_eq_true] at neither
      rw [if_pos here, neither.1, neither.2, Bool.not_false, Bool.and_true, Bool.or_false]
    · rw [if_neg here]
  · rw [BitVec.getLsbD_of_ge _ i (Nat.le_of_not_lt inside),
      BitVec.getLsbD_of_ge _ i (Nat.le_of_not_lt inside)]

theorem owned_frame (r : Regs) (x : Word) (i : Nat) (other : ¬ Written x i) :
    (clear32 r gpio.owner gpDebugMask x).getLsbD i = (r x).getLsbD i := by
  rw [clear32_eq]
  refine mask32_frame r _ _ _ (fun i inside bit => ?_) x i other
  have placed := gpDebugMask_elsewhere i inside (by simpa using bit)
  exact ⟨by decide, placed.1, placed.2, fun shared => absurd shared (by decide)⟩

theorem enabled_frame (r : Regs) (x : Word) (i : Nat) (other : ¬ Written x i) :
    (set32 r gpio.enable gpDebugMask x).getLsbD i = (r x).getLsbD i := by
  rw [set32_eq]
  refine mask32_frame r _ _ _ (fun i inside bit => ?_) x i other
  have placed := gpDebugMask_elsewhere i inside (by simpa using bit)
  exact ⟨by decide, placed.1, placed.2, fun shared => absurd shared (by decide)⟩

theorem directed_frame (r : Regs) (x : Word) (i : Nat) (other : ¬ Written x i) :
    (set32 r gpio.dir gpDebugSerialMask x).getLsbD i = (r x).getLsbD i := by
  rw [set32_eq]
  refine mask32_frame r _ _ _ (fun i inside bit => ?_) x i other
  have placed := gpDebugSerialMask_elsewhere i inside (by simpa using bit)
  exact ⟨by decide, placed.1, placed.2.1, fun _ => placed.2.2⟩

/-- The pin that is read is not written when its bit is clear. -/
theorem out_frame (r : Regs) (val : Byte) (unset : val.getLsbD 6 = false) (x : Word) (i : Nat)
    (other : ¬ Written x i) :
    (mask32 r gpio.out gpDebugSerialMask (val.setWidth 32 <<< gpDebugShift) x).getLsbD i =
      (r x).getLsbD i := by
  refine mask32_frame r _ _ _ (fun i inside bit => ?_) x i other
  rcases bit with masked | placed
  · have placed := gpDebugSerialMask_elsewhere i inside masked
    exact ⟨by decide, placed.1, placed.2.1, fun _ => placed.2.2⟩
  · rw [placed_getLsbD val i inside, Bool.and_eq_true, decide_eq_true_eq] at placed
    obtain ⟨above, bit⟩ := placed
    have below : i - 16 < 8 := BitVec.lt_of_getLsbD bit
    refine ⟨by decide, above, by omega, fun _ input => ?_⟩
    subst input
    exact absurd (bit.symm.trans unset) (by decide)

variable (pull : Byte) (input : Nat → Word) (p : Port)

theorem Port.store_regs (r : Regs) : (p.store pull r).regs = r := rfl

theorem calm_store (r : Regs)
    (frame : ∀ x i, ¬ Written x i → (r x).getLsbD i = (p.regs x).getLsbD i) :
    Calm p (p.store pull r) where
  cpsr := rfl
  samples := ⟨[⟨p.cpsr, levels pull r⟩], rfl, fun s member => by rw [List.mem_singleton.mp member]⟩
  frame := frame

/-- What both accesses do first. -/
def prepared : Port :=
  let p := p.store pull (clear32 p.regs gpio.owner gpDebugMask)
  let p := p.store pull (set32 p.regs gpio.enable gpDebugMask)
  p.store pull (set32 p.regs gpio.dir gpDebugSerialMask)

theorem gpioDebugSerialSend_eq (val : Byte) :
    gpioDebugSerialSend pull val p = (prepared pull p).store pull
      (mask32 (prepared pull p).regs gpio.out gpDebugSerialMask
        (val.setWidth 32 <<< gpDebugShift)) := rfl

theorem driven_send (val : Byte) : Driven (gpioDebugSerialSend pull val p).regs :=
  (driven_prepared p.regs).out _ _

theorem calm_prepared : Calm p (prepared pull p) :=
  ((calm_store pull p _ (owned_frame _)).trans (calm_store pull _ _ (enabled_frame _))).trans
    (calm_store pull _ _ (directed_frame _))

theorem calm_send (val : Byte) (unset : val.getLsbD 6 = false) :
    Calm p (gpioDebugSerialSend pull val p) :=
  (calm_prepared pull p).trans (calm_store pull _ _ (out_frame _ val unset))

theorem calm_read : Calm p (gpioDebugSerialRead pull input p).2 :=
  (calm_prepared pull p).trans
    { cpsr := rfl
      samples := ⟨[], by simp [gpioDebugSerialRead, prepared],
        fun _ absent => absurd absent List.not_mem_nil⟩
      frame := fun _ _ _ => rfl }

end Frame

section Hear

variable (pull : Byte) (input : Nat → Word) (rx : Receiver 8)

/-- What is heard with one more line. -/
def oneMore (h : Receiver 8 × List Byte) (line : Line) : Receiver 8 × List Byte :=
  ((sample h.1 line).1, h.2 ++ (sample h.1 line).2)

theorem hear_store (p : Port) (r : Regs) :
    hear rx (p.store pull r) = oneMore (hear rx p) (lineOf (levels pull r)) := by
  unfold hear Port.store oneMore
  rw [List.map_append, receive_append]
  simp only [List.map_cons, List.map_nil, receive, List.append_nil]

/-- The pins are driven and show a line whose clock the receiver has seen. -/
structure InStep (p : Port) (line : Line) : Prop where
  driven : Driven p.regs
  shown : shown p.regs = line
  clock : (hear rx p).1.clock = line.clock

variable {rx} {p : Port} {line : Line}

theorem InStep.store (inStep : InStep rx p line) (r : Regs) (driven : Driven r)
    (out : r gpio.out = p.regs gpio.out) :
    InStep rx (p.store pull r) line ∧ hear rx (p.store pull r) = hear rx p := by
  have same : lineOf (levels pull r) = line := by
    rw [lineOf_levels pull driven, shown_of_out out, inStep.shown]
  have heard : hear rx (p.store pull r) = hear rx p := by
    rw [hear_store, oneMore, same, sample_level _ _ inStep.clock.symm, List.append_nil]
  refine ⟨⟨driven, ?_, ?_⟩, heard⟩
  · exact (shown_of_out out).trans inStep.shown
  · rw [heard]
    exact inStep.clock

theorem InStep.prepare (inStep : InStep rx p line) :
    InStep rx (prepared pull p) line ∧ hear rx (prepared pull p) = hear rx p := by
  obtain ⟨inStep, first⟩ :=
    inStep.store pull _ inStep.driven.owned (clear32_other _ _ _ _ (by decide))
  obtain ⟨inStep, second⟩ :=
    inStep.store pull _ inStep.driven.enabled (set32_other _ _ _ _ (by decide))
  obtain ⟨inStep, third⟩ :=
    inStep.store pull _ inStep.driven.directed (set32_other _ _ _ _ (by decide))
  exact ⟨inStep, third.trans (second.trans first)⟩

/-- Nothing that was heard is taken back. -/
theorem heard_store (rx : Receiver 8) (p : Port) (r : Regs) :
    ∃ more, (hear rx (p.store pull r)).2 = (hear rx p).2 ++ more := by
  rw [hear_store]
  exact ⟨_, rfl⟩

theorem heard_prepared (rx : Receiver 8) (p : Port) :
    ∃ more, (hear rx (prepared pull p)).2 = (hear rx p).2 ++ more := by
  obtain ⟨first, heard⟩ := heard_store pull rx p (clear32 p.regs gpio.owner gpDebugMask)
  obtain ⟨second, heard'⟩ := heard_store pull rx
    (p.store pull (clear32 p.regs gpio.owner gpDebugMask))
    (set32 (clear32 p.regs gpio.owner gpDebugMask) gpio.enable gpDebugMask)
  obtain ⟨third, heard''⟩ := heard_store pull rx
    ((p.store pull (clear32 p.regs gpio.owner gpDebugMask)).store pull
      (set32 (clear32 p.regs gpio.owner gpDebugMask) gpio.enable gpDebugMask))
    (set32 (set32 (clear32 p.regs gpio.owner gpDebugMask) gpio.enable gpDebugMask)
      gpio.dir gpDebugSerialMask)
  refine ⟨first ++ second ++ third, heard''.trans ?_⟩
  rw [heard', heard, List.append_assoc, List.append_assoc, List.append_assoc]

/-- From any start the receiver is in step after one send. -/
theorem inStep_send (rx : Receiver 8) (p : Port) (val : Byte) :
    InStep rx (gpioDebugSerialSend pull val p) (lineOf val) := by
  have driven := driven_send pull p val
  refine ⟨driven, shown_out _ val, ?_⟩
  rw [gpioDebugSerialSend_eq, Port.store_regs] at driven
  rw [gpioDebugSerialSend_eq, hear_store, oneMore, sample_clock, lineOf_levels pull driven]
  exact congrArg Line.clock (shown_out _ val)

theorem InStep.send (inStep : InStep rx p line) (val : Byte) :
    hear rx (gpioDebugSerialSend pull val p) = oneMore (hear rx p) (lineOf val) := by
  have driven := driven_send pull p val
  rw [gpioDebugSerialSend_eq, Port.store_regs] at driven
  rw [gpioDebugSerialSend_eq, hear_store, (inStep.prepare pull).2, lineOf_levels pull driven]
  exact congrArg (oneMore (hear rx p)) (shown_out _ val)

theorem heard_send (rx : Receiver 8) (p : Port) (val : Byte) :
    ∃ more, (hear rx (gpioDebugSerialSend pull val p)).2 = (hear rx p).2 ++ more := by
  obtain ⟨first, heard⟩ := heard_prepared pull rx p
  obtain ⟨second, heard'⟩ := heard_store pull rx (prepared pull p)
    (mask32 (prepared pull p).regs gpio.out gpDebugSerialMask (val.setWidth 32 <<< gpDebugShift))
  refine ⟨first ++ second, heard'.trans ?_⟩
  rw [heard, List.append_assoc]

theorem InStep.read (inStep : InStep rx p line) :
    InStep rx (gpioDebugSerialRead pull input p).2 line ∧
      hear rx (gpioDebugSerialRead pull input p).2 = hear rx p := by
  obtain ⟨⟨driven, shown, clock⟩, heard⟩ := inStep.prepare pull
  exact ⟨⟨driven, shown, clock⟩, heard⟩

end Hear

end Stroopwafel.Serial
