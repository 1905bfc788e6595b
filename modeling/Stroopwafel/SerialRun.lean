import Stroopwafel.SerialByte

set_option autoImplicit false

namespace Stroopwafel.Serial

open Memory Gpio ClockedLine

/-- The console as its users see it: a queue that drops what does not fit. -/
structure Link where
  queue : List Byte
  zeros : Bool
  polls : Nat
  lines : Word
  saved : Bool

namespace Link

variable (input : Nat → Word)

/-- What is taken of the offer of the next exchange. -/
def taken (s : Link) : List Byte :=
  if (offer input s.polls).1 && (decide ((offer input s.polls).2 ≠ 0#8) || s.zeros) &&
      decide (s.queue.length < 255) then [(offer input s.polls).2]
  else []

/-- Each byte is exchanged for an offer. -/
def exchange (s : Link) : Link := { s with queue := s.queue ++ s.taken input, polls := s.polls + 9 }

end Link

/-- A string ends before the first zero. -/
def text (str : List Byte) : List Byte := str.takeWhile fun b => b ≠ 0#8

def newlines (bytes : List Byte) : Nat := bytes.count 0x0A#8

namespace Call

/-- The bytes of a call, in the order in which they go out. -/
def bytes (s : Link) : Call → List Byte
  | .send val => [val]
  | .poll => [0#8]
  | .sendU32 val => bytes32 val
  | .sendStr str => text str
  | .printf str => text (str.take 0x7FF)
  | .clear =>
      (if s.saved then [] else List.replicate 256 0x0A#8 ++ [0x1B#8, 0x5B#8, 0x73#8]) ++
        [0x1B#8, 0x5B#8, 0x75#8] ++ List.replicate s.lines.toInt.toNat 0x0A#8 ++
        [0x1B#8, 0x5B#8, 0x48#8, 0x1B#8, 0x5B#8, 0x32#8, 0x4A#8]
  | _ => []

/-- What else a call changes. -/
def settle (before after : Link) : Call → Link
  | .sendStr str => { after with lines := before.lines + BitVec.ofNat 32 (newlines (text str)) }
  | .printf str =>
      { after with lines := before.lines + BitVec.ofNat 32 (newlines (text (str.take 0x7FF))) }
  | .clear => { after with lines := 0#32, saved := true }
  | .noscroll => { after with lines := 0#32 }
  | .allowZeros => { after with zeros := true }
  | .disallowZeros => { after with zeros := false }
  | .inRead => { after with queue := [] }
  | _ => after

/-- What a read gets. -/
def reads (s : Link) : Call → List (List Byte)
  | .inRead => [s.queue]
  | _ => []

end Call

section Spec

variable (input : Nat → Word)

def exchanges (bytes : List Byte) (s : Link) : Link := bytes.foldl (fun s _ => s.exchange input) s

def after (s : Link) (call : Call) : Link := call.settle s (exchanges input (call.bytes s) s)

/-- The bytes that a run puts on the line, and those that it reads. -/
def runBytes : Link → List Call → List Byte
  | _, [] => []
  | s, call :: rest => call.bytes s ++ runBytes (after input s call) rest

def runReads : Link → List Call → List (List Byte)
  | _, [] => []
  | s, call :: rest => call.reads s ++ runReads (after input s call) rest

/-- The bytes that a run takes. -/
def takenBy : List Byte → Link → List Byte
  | [], _ => []
  | _ :: rest, s => s.taken input ++ takenBy rest (s.exchange input)

def runTaken : Link → List Call → List Byte
  | _, [] => []
  | s, call :: rest => takenBy input (call.bytes s) s ++ runTaken (after input s call) rest

end Spec

/-- A read fills its 256 bytes with zeros behind what it gets. -/
def padded (bytes : List Byte) : List Byte × Nat :=
  (bytes ++ List.replicate (256 - bytes.length) 0#8, bytes.length)

/-- The console has the queue at the front of its buffer. -/
structure Stands (c : Console) (s : Link) : Prop where
  size : c.serialBuffer.length = bufferSize
  len : c.serialLen = s.queue.length
  front : c.serialBuffer.take c.serialLen = s.queue
  bounded : s.queue.length ≤ 255
  zeros : c.allowZeros ≠ 0#8 ↔ s.zeros = true
  polls : c.port.polls = s.polls
  lines : c.serialLine = s.lines
  saved : c.saved = s.saved

section Exchange

variable (pull : Byte) (input : Nat → Word)

/-- What becomes of the buffer. -/
def accept (readVal readValValid : Byte) (c : Console) : Console :=
  if ((readVal ≠ 0#8 ∨ c.allowZeros ≠ 0#8) ∧ readValValid ≠ 0#8) ∧
      c.serialLen < bufferSize - 1 then
    { c with serialBuffer := c.serialBuffer.set c.serialLen readVal, serialLen := c.serialLen + 1 }
  else c

theorem accept_port (readVal readValValid : Byte) (c : Console) (p : Port) :
    accept readVal readValValid { c with port := p } =
      { accept readVal readValValid c with port := p } := by
  unfold accept
  split <;> rfl

/-- What `serial_send` does with interrupts off. -/
def sendMasked (val : Byte) (c : Console) : Console :=
  let (p, readVal, readValValid) :=
    [7, 6, 5, 4, 3, 2, 1, 0].foldl (sendBit pull input val) (c.port, 0#8, 0#8)
  let c := accept readVal readValValid { c with port := p }
  { c with port := serialForceTerminate pull c.port }

theorem serialSend_eq_irqKilled (val : Byte) :
    serialSend pull input val = irqKilled (sendMasked pull input val) := rfl

theorem sendMasked_eq (val : Byte) (c : Console) :
    ∃ p', sendMasked pull input val c =
        { accept (offer input c.port.polls).2 (dataPin (offer input c.port.polls).1) c with
          port := p' } ∧
      p'.polls = c.port.polls + 9 ∧ Calm c.port p' ∧ ∀ rx, Says rx c.port p' [val] := by
  obtain ⟨p, loop, calm, polls, hears⟩ := exchange pull input val c.port
  refine ⟨serialForceTerminate pull p, ?_, polls, calm.trans (calm_terminate pull p), fun rx => ?_⟩
  · unfold sendMasked
    rw [loop]
    simp only [accept_port]
  · obtain ⟨⟨line, inStep⟩, shift, ⟨stale, heard⟩, quiet⟩ := hears rx
    obtain ⟨inStep', said⟩ := inStep.terminate pull
    rw [shift] at said
    exact
      { exact := fun line before => ⟨inStep', by rw [said, quiet line before]⟩
        start := ⟨stale, by rw [said, heard]⟩
        inStep := fun _ => inStep' }

theorem InStep.status {rx : Receiver 8} {p : Port} {line : Line} (inStep : InStep rx p line)
    (cpsr : Word) : InStep rx { p with cpsr := cpsr } line :=
  ⟨inStep.driven, inStep.shown, inStep.clock⟩

/-- A receiver does not hear the status. -/
theorem Says.status {rx : Receiver 8} {p p' : Port} {bytes : List Byte} {cpsr : Word}
    (tells : Says rx { p with cpsr := cpsr } p' bytes) (cpsr' : Word) :
    Says rx p { p' with cpsr := cpsr' } bytes where
  exact line inStep := by
    obtain ⟨⟨line', inStep'⟩, heard⟩ := tells.exact line (inStep.status cpsr)
    exact ⟨⟨line', inStep'.status cpsr'⟩, heard⟩
  start := tells.start
  inStep spoke := by
    obtain ⟨line, inStep⟩ := tells.inStep spoke
    exact ⟨line, inStep.status cpsr'⟩

theorem serialSend_eq (val : Byte) (c : Console) :
    ∃ p', serialSend pull input val c =
        { accept (offer input c.port.polls).2 (dataPin (offer input c.port.polls).1) c with
          port := p' } ∧
      p'.polls = c.port.polls + 9 ∧ Masked c.port p' ∧ ∀ rx, Says rx c.port p' [val] := by
  obtain ⟨p', sent, polls, calm, tells⟩ := sendMasked_eq pull input val
    { c with port := { c.port with cpsr := (irqKill c.port.cpsr).2 } }
  have masked := irqKilled_masked (sendMasked pull input val) c
    (by rw [sent]; exact calm.masked (irqKill_masked _))
  rw [← serialSend_eq_irqKilled] at masked
  have whole : serialSend pull input val c =
      { accept (offer input c.port.polls).2 (dataPin (offer input c.port.polls).1) c with
        port := { p' with cpsr := irqRestore (irqKill c.port.cpsr).1 p'.cpsr } } := by
    rw [serialSend_eq_irqKilled]
    unfold irqKilled
    simp only [sent, accept_port]
  rw [whole] at masked
  exact ⟨_, whole, polls, masked, fun rx => (tells rx).status _⟩

end Exchange

section Refine

variable (pull : Byte) (input : Nat → Word) {c : Console} {s : Link}

theorem dataPin_nonzero (bit : Bool) : dataPin bit ≠ 0#8 ↔ bit = true := by
  cases bit <;> decide

/-- The buffer takes what the queue takes. -/
theorem Stands.accept_iff (stands : Stands c s) (valid : Bool) (byte : Byte) :
    (((byte ≠ 0#8 ∨ c.allowZeros ≠ 0#8) ∧ dataPin valid ≠ 0#8) ∧ c.serialLen < bufferSize - 1) ↔
      (valid && (decide (byte ≠ 0#8) || s.zeros) && decide (s.queue.length < 255)) = true := by
  rw [dataPin_nonzero, stands.zeros, stands.len, Bool.and_eq_true, Bool.and_eq_true,
    Bool.or_eq_true, decide_eq_true_eq, decide_eq_true_eq, and_comm (b := valid = true)]
  rfl

/-- One byte. -/
theorem Stands.send (stands : Stands c s) (val : Byte) :
    Stands (serialSend pull input val c) (s.exchange input) ∧
      Masked c.port (serialSend pull input val c).port ∧
      ∀ rx, Says rx c.port (serialSend pull input val c).port [val] := by
  obtain ⟨p', sent, polls, masked, tells⟩ := serialSend_eq pull input val c
  rw [sent]
  refine ⟨?_, masked, tells⟩
  have alike := stands.accept_iff (offer input s.polls).1 (offer input s.polls).2
  rw [stands.polls]
  unfold Link.exchange Link.taken accept
  split
  · rename_i takes
    have room : s.queue.length < 255 := stands.len ▸ takes.2
    rw [if_pos (alike.mp takes)]
    exact
      { size := by rw [List.length_set, stands.size]
        len := by rw [List.length_append, stands.len]; rfl
        front := by
          have inside : c.serialLen < c.serialBuffer.length := by
            rw [stands.size, stands.len]
            exact Nat.lt_trans room (by decide)
          rw [List.take_succ_eq_append_getElem (by rw [List.length_set]; exact inside),
            List.getElem_set_self, List.take_set_of_le (Nat.le_refl _), stands.front]
        bounded := by
          rw [List.length_append]
          exact room
        zeros := stands.zeros
        polls := by rw [polls, stands.polls]
        lines := stands.lines
        saved := stands.saved }
  · rename_i drops
    rw [if_neg (mt alike.mpr drops), List.append_nil]
    exact
      { size := stands.size
        len := stands.len
        front := stands.front
        bounded := stands.bounded
        zeros := stands.zeros
        polls := by rw [polls, stands.polls]
        lines := stands.lines
        saved := stands.saved }

end Refine

section Bytes

variable (pull : Byte) (input : Nat → Word)

/-- After some bytes, with the rest of the console as given. -/
def Link.over (s : Link) (bytes : List Byte) (lines : Word) (saved : Bool) : Link :=
  { exchanges input bytes s with lines := lines, saved := saved }

theorem exchanges_rest (bytes : List Byte) (s : Link) (lines : Word) (saved : Bool) :
    exchanges input bytes { s with lines := lines, saved := saved } =
      { exchanges input bytes s with lines := lines, saved := saved } := by
  induction bytes generalizing s with
  | nil => rfl
  | cons b rest ih => exact ih (s.exchange input)

theorem Link.over_over (s : Link) (first second : List Byte) (lines lines' : Word)
    (saved saved' : Bool) :
    (s.over input first lines saved).over input second lines' saved' =
      s.over input (first ++ second) lines' saved' := by
  unfold Link.over
  rw [exchanges_rest]
  unfold exchanges
  rw [List.foldl_append]

theorem Link.over_lines (s : Link) (bytes : List Byte) (lines : Word) (saved : Bool) :
    (s.over input bytes lines saved).lines = lines := rfl

theorem Link.over_saved (s : Link) (bytes : List Byte) (lines : Word) (saved : Bool) :
    (s.over input bytes lines saved).saved = saved := rfl

theorem exchanges_kept (bytes : List Byte) (s : Link) :
    (exchanges input bytes s).lines = s.lines ∧ (exchanges input bytes s).saved = s.saved ∧
      (exchanges input bytes s).zeros = s.zeros := by
  induction bytes generalizing s with
  | nil => exact ⟨rfl, rfl, rfl⟩
  | cons b rest ih => exact ih (s.exchange input)

/-- The same bytes went through the queue and over the line. -/
structure Follows (c c' : Console) (s s' : Link) (bytes : List Byte) : Prop where
  stands : Stands c' s'
  masked : Masked c.port c'.port
  tells : ∀ rx, Says rx c.port c'.port bytes

variable {c c' c'' : Console} {s s' s'' : Link} {bytes bytes' : List Byte}

theorem Follows.trans (one : Follows c c' s s' bytes) (two : Follows c' c'' s' s'' bytes') :
    Follows c c'' s s'' (bytes ++ bytes') where
  stands := two.stands
  masked := one.masked.trans two.masked
  tells rx := (one.tells rx).trans (two.tells rx)

/-- A change that does not reach the port. -/
theorem Follows.silent (stands : Stands c' s') (port : c'.port = c.port) :
    Follows c c' s s' [] where
  stands := stands
  masked := port ▸ Masked.refl c.port
  tells rx := port ▸ Says.refl rx c.port

theorem Follows.silently (one : Follows c c' s s' bytes) (stands : Stands c'' s'')
    (port : c''.port = c'.port) : Follows c c'' s s'' bytes := by
  have whole := one.trans (Follows.silent (s := s') stands port)
  rw [List.append_nil] at whole
  exact whole

theorem Stands.send_follows (stands : Stands c s) (val : Byte) :
    Follows c (serialSend pull input val c) s (s.over input [val] s.lines s.saved) [val] := by
  obtain ⟨stands', masked, tells⟩ := stands.send pull input val
  exact ⟨stands', masked, tells⟩

theorem Stands.withStatus (stands : Stands c s) (cpsr : Word) :
    Stands { c with port := { c.port with cpsr := cpsr } } s :=
  { stands with }

theorem Link.over_rest (s : Link) (bytes : List Byte) (lines lines' : Word) (saved saved' : Bool) :
    ({ s with lines := lines', saved := saved' } : Link).over input bytes lines saved =
      s.over input bytes lines saved := by
  unfold Link.over
  rw [exchanges_rest]

/-- By induction on the string, from the byte that comes next. -/
theorem Stands.sendChars (str : List Byte) (stands : Stands c s) :
    Follows c (sendChars pull input str c) s
      (s.over input (text str) (s.lines + BitVec.ofNat 32 (newlines (text str))) s.saved)
      (text str) := by
  induction str generalizing c s with
  | nil =>
      refine Follows.silent ?_ rfl
      rw [show s.lines + BitVec.ofNat 32 (newlines (text [])) = s.lines from BitVec.add_zero _]
      exact stands
  | cons b rest ih =>
      unfold Serial.sendChars
      by_cases last : b = 0#8
      · have empty : text (b :: rest) = [] := by simp [text, last]
        rw [if_pos last, empty]
        refine Follows.silent ?_ rfl
        rw [show s.lines + BitVec.ofNat 32 (newlines []) = s.lines from BitVec.add_zero _]
        exact stands
      · have more : text (b :: rest) = [b] ++ text rest := by simp [text, last]
        rw [if_neg last, more]
        let counted := s.lines + if b = 0x0A#8 then 1#32 else 0#32
        have begun : Follows c (if b = 0x0A#8 then serialLineInc c else c) s
            { s with lines := counted } [] := by
          by_cases newline : b = 0x0A#8
          · simp only [counted, if_pos newline]
            refine Follows.silent ?_ rfl
            rw [← stands.lines]
            exact { stands with lines := rfl }
          · simp only [counted, if_neg newline, BitVec.add_zero]
            exact Follows.silent stands rfl
        have one := begun.stands.send_follows pull input b
        have whole := begun.trans (one.trans (ih one.stands))
        rw [Link.over_over, Link.over_rest] at whole
        have lines : counted + BitVec.ofNat 32 (newlines (text rest)) =
            s.lines + BitVec.ofNat 32 (newlines ([b] ++ text rest)) := by
          unfold newlines
          rw [List.count_append, BitVec.ofNat_add, ← BitVec.add_assoc]
          by_cases newline : b = 0x0A#8
          · simp only [counted, newline, if_true, List.count_singleton_self]
          · simp only [counted, if_neg newline, List.count_singleton, beq_iff_eq]
        rw [← lines]
        exact whole

theorem Stands.sendStr (str : List Byte) (stands : Stands c s) :
    Follows c (serialSendStr pull input str c) s
      (s.over input (text str) (s.lines + BitVec.ofNat 32 (newlines (text str))) s.saved)
      (text str) := by
  have inner := (stands.withStatus (irqKill c.port.cpsr).2).sendChars pull input str
  exact
    { stands := inner.stands.withStatus _
      masked := irqKilled_masked _ c inner.masked
      tells := fun rx => (inner.tells rx).status _ }

theorem Stands.printf (str : List Byte) (short : str.length ≤ 0x7FF) (stands : Stands c s) :
    Follows c (serialPrintf pull input str c) s
      (s.over input (text str) (s.lines + BitVec.ofNat 32 (newlines (text str))) s.saved)
      (text str) := by
  unfold serialPrintf
  rw [List.take_of_length_le short]
  exact stands.sendStr pull input str

theorem times_succ (n : Nat) (f : Console → Console) (c : Console) :
    times (n + 1) f c = f (times n f c) := by
  unfold times
  rw [List.range_succ, List.foldl_append]
  rfl

theorem Stands.newlines (n : Nat) (stands : Stands c s) :
    ∃ lines, Follows c (times n (serialPrintf pull input [0x0A#8]) c) s
      (s.over input (List.replicate n 0x0A#8) lines s.saved) (List.replicate n 0x0A#8) := by
  induction n with
  | zero => exact ⟨s.lines, Follows.silent stands rfl⟩
  | succ n ih =>
      obtain ⟨lines, follows⟩ := ih
      have one := follows.stands.printf pull input [0x0A#8] (by decide)
      have whole := follows.trans one
      rw [Link.over_over, show text [0x0A#8] = [0x0A#8] from rfl,
        ← List.replicate_succ'] at whole
      rw [times_succ]
      exact ⟨_, whole⟩

theorem Stands.push (n : Nat) (stands : Stands c s) :
    Follows c (times n (serialSend pull input 0x0A#8) c) s
      (s.over input (List.replicate n 0x0A#8) s.lines s.saved) (List.replicate n 0x0A#8) := by
  induction n with
  | zero => exact Follows.silent stands rfl
  | succ n ih =>
      have one := ih.stands.send_follows pull input 0x0A#8
      have whole := ih.trans one
      rw [Link.over_over, ← List.replicate_succ'] at whole
      rw [times_succ]
      exact whole

/-- The first time, the cursor's place is saved at the bottom. -/
def savePlace (pull : Byte) (input : Nat → Word) (c : Console) : Console :=
  if c.saved then c
  else
    { serialPrintf pull input [0x1B#8, 0x5B#8, 0x73#8]
        (times 256 (serialSend pull input 0x0A#8) c) with saved := true }

def placeBytes (saved : Bool) : List Byte :=
  if saved then [] else List.replicate 256 0x0A#8 ++ [0x1B#8, 0x5B#8, 0x73#8]

theorem Stands.savePlace (stands : Stands c s) :
    ∃ lines, Follows c (savePlace pull input c) s (s.over input (placeBytes s.saved) lines true)
      (placeBytes s.saved) := by
  unfold Serial.savePlace placeBytes
  rw [stands.saved]
  cases saved : s.saved with
  | true =>
      refine ⟨s.lines, ?_⟩
      rw [if_pos rfl, if_pos rfl]
      refine Follows.silent ?_ rfl
      unfold Link.over exchanges
      rw [List.foldl_nil, ← saved]
      exact stands
  | false =>
      have pushed := stands.push pull input 256
      have marked := pushed.stands.printf pull input [0x1B#8, 0x5B#8, 0x73#8]
        (by decide)
      have whole := pushed.trans marked
      rw [Link.over_over, show text [0x1B#8, 0x5B#8, 0x73#8] = [0x1B#8, 0x5B#8, 0x73#8] from rfl]
        at whole
      rw [if_neg Bool.false_ne_true, if_neg Bool.false_ne_true]
      exact ⟨_, whole.silently { whole.stands with saved := rfl } rfl⟩

theorem Stands.clear (stands : Stands c s) :
    Follows c (serialClear pull input c) s (s.over input (Call.bytes s .clear) 0#32 true)
      (Call.bytes s .clear) := by
  obtain ⟨lines, placed⟩ := stands.savePlace pull input
  have restored := placed.stands.printf pull input [0x1B#8, 0x5B#8, 0x75#8]
    (by decide)
  obtain ⟨lines', scrolled⟩ := restored.stands.newlines pull input
    s.lines.toInt.toNat
  have cleared := scrolled.stands.printf pull input
    [0x1B#8, 0x5B#8, 0x48#8, 0x1B#8, 0x5B#8, 0x32#8, 0x4A#8] (by decide)
  have whole := ((placed.trans restored).trans scrolled).trans cleared
  simp only [Link.over_over, show text [0x1B#8, 0x5B#8, 0x75#8] = [0x1B#8, 0x5B#8, 0x75#8] from rfl,
    show text [0x1B#8, 0x5B#8, 0x48#8, 0x1B#8, 0x5B#8, 0x32#8, 0x4A#8] =
      [0x1B#8, 0x5B#8, 0x48#8, 0x1B#8, 0x5B#8, 0x32#8, 0x4A#8] from rfl, List.append_assoc] at whole
  have ended : serialClear pull input c =
      { serialPrintf pull input [0x1B#8, 0x5B#8, 0x48#8, 0x1B#8, 0x5B#8, 0x32#8, 0x4A#8]
          (times s.lines.toInt.toNat (serialPrintf pull input [0x0A#8])
            (serialPrintf pull input [0x1B#8, 0x5B#8, 0x75#8] (Serial.savePlace pull input c))) with
        serialLine := 0#32 } := by
    rw [← stands.lines]
    rfl
  have bytes : Call.bytes s .clear = placeBytes s.saved ++ ([0x1B#8, 0x5B#8, 0x75#8] ++
      (List.replicate s.lines.toInt.toNat 0x0A#8 ++
        [0x1B#8, 0x5B#8, 0x48#8, 0x1B#8, 0x5B#8, 0x32#8, 0x4A#8])) := by
    simp only [Call.bytes, placeBytes, List.append_assoc]
  rw [ended, bytes]
  exact whole.silently { whole.stands with lines := rfl } rfl

end Bytes

section Calls

variable (pull : Byte) (input : Nat → Word) {c : Console} {s : Link}

theorem Stands.sendU32 (val : Word) (stands : Stands c s) :
    Follows c (serialSendU32 pull input val c) s (s.over input (bytes32 val) s.lines s.saved)
      (bytes32 val) := by
  have first := stands.send_follows pull input (val.extractLsb' 24 8)
  have second := first.stands.send_follows pull input (val.extractLsb' 16 8)
  have third := second.stands.send_follows pull input (val.extractLsb' 8 8)
  have fourth := third.stands.send_follows pull input (val.extractLsb' 0 8)
  have whole := first.trans (second.trans (third.trans fourth))
  simp only [Link.over_over, Link.over_lines, Link.over_saved, List.cons_append,
    List.nil_append] at whole
  unfold serialSendU32 bytes32
  simp only [List.foldl_cons, List.foldl_nil]
  exact whole

theorem over_after (bytes : List Byte) (s : Link) :
    s.over input bytes s.lines s.saved = exchanges input bytes s := by
  obtain ⟨lines, saved, -⟩ := exchanges_kept input bytes s
  unfold Link.over
  rw [← lines, ← saved]

theorem over_counted (bytes : List Byte) (s : Link) (lines : Word) :
    s.over input bytes lines s.saved = { exchanges input bytes s with lines := lines } := by
  obtain ⟨-, saved, -⟩ := exchanges_kept input bytes s
  unfold Link.over
  rw [← saved]

/-- A read gets the queue. -/
theorem serialInRead_fst (stands : Stands c s) : (serialInRead c).1 = padded s.queue := by
  have short : s.queue.length < 256 := Nat.lt_succ_of_le stands.bounded
  let out := s.queue ++ List.replicate (256 - s.queue.length) 0#8
  have filled : out.length = 256 := by simp [out]; omega
  have inside : 255 < out.length := by rw [filled]; decide
  have last : out[255] = 0#8 := by
    simp only [out]
    rw [List.getElem_append_right (by omega), List.getElem_replicate]
  have kept : out.set 255 0#8 = out := by
    rw [← last]
    exact List.set_getElem_self inside
  refine Prod.ext ?_ stands.len
  simp only [serialInRead, padded, bufferSize, stands.front, List.drop_replicate]
  rw [stands.len]
  exact kept

theorem Stands.step (stands : Stands c s) (call : Call) :
    Follows c (call.perform pull input c).1 s (after input s call) (call.bytes s) ∧
      (call.perform pull input c).2 = (call.reads s).map padded := by
  cases call with
  | send val =>
      have one := stands.send_follows pull input val
      rw [over_after] at one
      exact ⟨one, rfl⟩
  | poll =>
      have one := stands.send_follows pull input 0#8
      rw [over_after] at one
      exact ⟨one, rfl⟩
  | sendU32 val =>
      have all := stands.sendU32 pull input val
      rw [over_after] at all
      exact ⟨all, rfl⟩
  | sendStr str =>
      have all := stands.sendStr pull input str
      rw [over_counted] at all
      exact ⟨all, rfl⟩
  | printf str =>
      have all := stands.sendStr pull input (str.take 0x7FF)
      rw [over_counted] at all
      exact ⟨all, rfl⟩
  | clear => exact ⟨stands.clear pull input, rfl⟩
  | noscroll => exact ⟨Follows.silent { stands with lines := rfl } rfl, rfl⟩
  | allowZeros =>
      refine ⟨Follows.silent { stands with zeros := ?_ } rfl, rfl⟩
      exact ⟨fun _ => rfl, fun _ => show 1#8 ≠ 0#8 by decide⟩
  | disallowZeros =>
      refine ⟨Follows.silent { stands with zeros := ?_ } rfl, rfl⟩
      exact ⟨fun zero => absurd rfl zero, fun absurdity => absurd absurdity Bool.false_ne_true⟩
  | inRead =>
      refine ⟨Follows.silent ?_ rfl, congrArg (fun got => [got]) (serialInRead_fst stands)⟩
      exact { stands with len := rfl, front := rfl, bounded := Nat.zero_le _ }

/-- By induction on the calls: the console follows the queue from call to call. -/
theorem Stands.run (stands : Stands c s) (calls : List Call) :
    Follows c (run pull input c calls).1 s (calls.foldl (after input) s)
        (runBytes input s calls) ∧
      (run pull input c calls).2 = (runReads input s calls).map padded := by
  induction calls generalizing c s with
  | nil => exact ⟨Follows.silent stands rfl, rfl⟩
  | cons call rest ih =>
      obtain ⟨first, got⟩ := stands.step pull input call
      obtain ⟨others, gets⟩ := ih first.stands
      refine ⟨first.trans others, ?_⟩
      simp only [Serial.run, runReads, got, gets, List.map_append]

end Calls

section Queue

variable (input : Nat → Word)

/-- What the other end offers in the exchanges for some bytes. -/
def offeredTo : List Byte → Link → List Byte
  | [], _ => []
  | _ :: rest, s =>
      (if (offer input s.polls).1 && (decide ((offer input s.polls).2 ≠ 0#8) || s.zeros) then
        [(offer input s.polls).2] else []) ++ offeredTo rest (s.exchange input)

def runOffered : Link → List Call → List Byte
  | _, [] => []
  | s, call :: rest => offeredTo input (call.bytes s) s ++ runOffered (after input s call) rest

/-- Every call finds room for as many bytes as it sends. -/
def Roomy : Link → List Call → Prop
  | _, [] => True
  | s, call :: rest =>
      s.queue.length + (call.bytes s).length ≤ 255 ∧ Roomy (after input s call) rest

theorem exchanges_queue (bytes : List Byte) (s : Link) :
    (exchanges input bytes s).queue = s.queue ++ takenBy input bytes s := by
  induction bytes generalizing s with
  | nil => exact (List.append_nil _).symm
  | cons b rest ih =>
      rw [takenBy, ← List.append_assoc]
      exact ih (s.exchange input)

/-- What was in the queue and what came in is read or still in the queue. -/
theorem after_queue (s : Link) (call : Call) :
    (call.reads s).flatten ++ (after input s call).queue =
      s.queue ++ takenBy input (call.bytes s) s := by
  cases call with
  | inRead => simp [Call.reads, after, Call.settle, Call.bytes, takenBy]
  | _ => exact exchanges_queue input _ s

theorem run_queue (s : Link) (calls : List Call) :
    (runReads input s calls).flatten ++ (calls.foldl (after input) s).queue =
      s.queue ++ runTaken input s calls := by
  induction calls generalizing s with
  | nil => exact (List.append_nil _).symm
  | cons call rest ih =>
      rw [runReads, runTaken, List.flatten_append, List.append_assoc, List.foldl_cons, ih,
        ← List.append_assoc, after_queue, List.append_assoc]

theorem taken_length (s : Link) : (s.taken input).length ≤ 1 := by
  unfold Link.taken
  split
  · exact Nat.le_refl 1
  · exact Nat.zero_le 1

/-- Nothing that is taken was not offered, and with room all of it is taken. -/
theorem takenBy_offered (bytes : List Byte) (s : Link) :
    (takenBy input bytes s).Sublist (offeredTo input bytes s) ∧
      (s.queue.length + bytes.length ≤ 255 → takenBy input bytes s = offeredTo input bytes s) := by
  induction bytes generalizing s with
  | nil => exact ⟨List.Sublist.refl _, fun _ => rfl⟩
  | cons b rest ih =>
      obtain ⟨sub, same⟩ := ih (s.exchange input)
      have one : (s.exchange input).queue.length ≤ s.queue.length + 1 := by
        have short := taken_length input s
        simp only [Link.exchange, List.length_append]
        omega
      rw [takenBy, offeredTo]
      constructor
      · refine List.Sublist.append ?_ sub
        unfold Link.taken
        split <;> split <;> simp_all
      · intro room
        rw [List.length_cons] at room
        rw [same (by omega)]
        unfold Link.taken
        rw [decide_eq_true (show s.queue.length < 255 by omega), Bool.and_true]

theorem runTaken_offered (s : Link) (calls : List Call) :
    (runTaken input s calls).Sublist (runOffered input s calls) ∧
      (Roomy input s calls → runTaken input s calls = runOffered input s calls) := by
  induction calls generalizing s with
  | nil => exact ⟨List.Sublist.refl _, fun _ => rfl⟩
  | cons call rest ih =>
      obtain ⟨sub, same⟩ := takenBy_offered input (call.bytes s) s
      obtain ⟨subs, sames⟩ := ih (after input s call)
      refine ⟨sub.append subs, fun roomy => ?_⟩
      rw [runTaken, runOffered, same roomy.1, sames roomy.2]

end Queue

/-- A console whose buffer is not overrun. -/
structure Console.Sound (c : Console) : Prop where
  size : c.serialBuffer.length = bufferSize
  len : c.serialLen ≤ 255

/-- The queue in a console. -/
def Console.link (c : Console) : Link where
  queue := c.serialBuffer.take c.serialLen
  zeros := decide (c.allowZeros ≠ 0#8)
  polls := c.port.polls
  lines := c.serialLine
  saved := c.saved

theorem Console.Sound.stands {c : Console} (sound : c.Sound) : Stands c c.link := by
  have inside : c.serialLen ≤ c.serialBuffer.length := by
    rw [sound.size]
    exact Nat.le_trans sound.len (by decide)
  have length : (c.serialBuffer.take c.serialLen).length = c.serialLen :=
    List.length_take_of_le inside
  exact
    { size := sound.size
      len := length.symm
      front := rfl
      bounded := Nat.le_trans (Nat.le_of_eq length) sound.len
      zeros := decide_eq_true_iff.symm
      polls := rfl
      lines := rfl
      saved := rfl }

/-- A receiver at the other end decodes the bytes of all the calls, in order, from whatever state
the pins were left in. All stores come with interrupts off, which are back in the end as they were,
and no other pin is touched. -/
theorem run_heard (pull : Byte) (input : Nat → Word) (c : Console) (sound : c.Sound)
    (calls : List Call) (rx : Receiver 8) :
    let p' := (run pull input c calls).1.port
    (∃ stale, (hear rx p').2 = (hear rx c.port).2 ++ stale ++ runBytes input c.link calls ∧
        ∀ line, InStep rx c.port line → stale = []) ∧
      Masked c.port p' := by
  obtain ⟨follows, -⟩ := sound.stands.run pull input calls
  have tells := follows.tells rx
  refine ⟨?_, follows.masked⟩
  by_cases before : ∃ line, InStep rx c.port line
  · obtain ⟨line, inStep⟩ := before
    refine ⟨[], ?_, fun _ _ => rfl⟩
    rw [List.append_nil]
    exact (tells.exact line inStep).2
  · obtain ⟨stale, heard⟩ := tells.start
    exact ⟨stale, heard, fun line inStep => absurd ⟨line, inStep⟩ before⟩

/-- The reads of a run get the bytes that were taken, once each and in order; none is lost as long
as the calls leave room for what comes in. -/
theorem run_reads (pull : Byte) (input : Nat → Word) (c : Console) (sound : c.Sound)
    (calls : List Call) :
    let c' := (run pull input c calls).1
    c'.Sound ∧
      ∃ got : List (List Byte), (run pull input c calls).2 = got.map padded ∧
        got.flatten ++ c'.link.queue = c.link.queue ++ runTaken input c.link calls ∧
        (runTaken input c.link calls).Sublist (runOffered input c.link calls) ∧
        (Roomy input c.link calls →
          runTaken input c.link calls = runOffered input c.link calls) := by
  obtain ⟨follows, reads⟩ := sound.stands.run pull input calls
  obtain ⟨sub, same⟩ := runTaken_offered input c.link calls
  have stands := follows.stands
  refine ⟨⟨stands.size, stands.len ▸ stands.bounded⟩, _, reads, ?_, sub, same⟩
  have queue : (run pull input c calls).1.link.queue =
      (calls.foldl (after input) c.link).queue := stands.front
  rw [queue]
  exact run_queue input c.link calls

section Sample

/-- Nothing was sent yet, and the pins float. -/
def consoleSample : Console where
  port := { regs := fun _ => 0#32, cpsr := 0x1F#32, polls := 0, samples := [] }
  serialBuffer := List.replicate 256 0#8
  serialLen := 0
  allowZeros := 0#8
  serialLine := 0#32
  saved := false

theorem consoleSample_sound : consoleSample.Sound := ⟨List.length_replicate, Nat.zero_le _⟩

/-- The other end answers every bit with a one. -/
theorem run_heard_sample :
    let calls := [.sendStr [0x41#8, 0x0A#8], .inRead]
    let p' := (run 0#8 (fun _ => 0xFFFFFFFF#32) consoleSample calls).1.port
    (∃ stale, (hear ⟨false, 0#8⟩ p').2 = (hear ⟨false, 0#8⟩ consoleSample.port).2 ++ stale ++
          runBytes (fun _ => 0xFFFFFFFF#32) consoleSample.link calls ∧
        ∀ line, InStep ⟨false, 0#8⟩ consoleSample.port line → stale = []) ∧
      Masked consoleSample.port p' :=
  run_heard 0#8 (fun _ => 0xFFFFFFFF#32) consoleSample consoleSample_sound
    [.sendStr [0x41#8, 0x0A#8], .inRead] ⟨false, 0#8⟩

theorem run_reads_sample :
    let calls := [.sendStr [0x41#8, 0x0A#8], .inRead]
    let c' := (run 0#8 (fun _ => 0xFFFFFFFF#32) consoleSample calls).1
    c'.Sound ∧
      ∃ got : List (List Byte),
        (run 0#8 (fun _ => 0xFFFFFFFF#32) consoleSample calls).2 = got.map padded ∧
        got.flatten ++ c'.link.queue = consoleSample.link.queue ++
          runTaken (fun _ => 0xFFFFFFFF#32) consoleSample.link calls ∧
        (runTaken (fun _ => 0xFFFFFFFF#32) consoleSample.link calls).Sublist
          (runOffered (fun _ => 0xFFFFFFFF#32) consoleSample.link calls) ∧
        (Roomy (fun _ => 0xFFFFFFFF#32) consoleSample.link calls →
          runTaken (fun _ => 0xFFFFFFFF#32) consoleSample.link calls =
            runOffered (fun _ => 0xFFFFFFFF#32) consoleSample.link calls) :=
  run_reads 0#8 (fun _ => 0xFFFFFFFF#32) consoleSample consoleSample_sound
    [.sendStr [0x41#8, 0x0A#8], .inRead]

end Sample

end Stroopwafel.Serial
