import Mathlib.Data.List.Forall2
import Mathlib.Logic.Function.Basic
import Stroopwafel.Memory

set_option autoImplicit false

/- The SEEPROM in memory that stands in for the one of the console. -/
namespace Stroopwafel.RedSeeprom

open Memory

abbrev iosErrorOk : Int := 0
abbrev iosErrorInvalid : Int := -4
abbrev iosErrorNotReady : Int := -10

/-- `SEEPROM_SIZE` -/
abbrev seepromSize : Nat := 512

structure State where
  mem : Mem
  writeEnabled : Bool
  dirty : Bool

inductive Call where
  | read (handle index outData : Word)
  | write (handle index : Word) (data : Half)
  | control (handle cmd : Word)

section Model

/- `orig` is the routine of the firmware: its status, and the word if it stores one. -/
variable (seepromBuffer : Word) (orig : Word → Word → Int × Option Half)

/-- `&seeprom_buffer[index & 0xff]` -/
def wordAddress (index : Word) : Word := seepromBuffer + 2#32 * (index &&& 0xFF#32)

def redseepromReadWord (handle index outData : Word) (s : State) : Int × State :=
  if 0x40#32 ≤ index &&& 0xFF#32 ∧ index &&& 0xFF#32 < 0x48#32 then
    let (ret, word) := orig handle (index &&& 0xFF#32)
    (ret, { s with mem := (word.map (write16 s.mem outData)).getD s.mem })
  else
    (iosErrorOk,
      { s with mem := write16 s.mem outData (read16 s.mem (wordAddress seepromBuffer index)) })

def redseepromWriteWord (index : Word) (data : Half) (s : State) : Int × State :=
  if s.writeEnabled = false then (iosErrorNotReady, s)
  else
    (iosErrorOk,
      { s with mem := write16 s.mem (wordAddress seepromBuffer index) data, dirty := true })

def redseepromWriteControl (cmd : Word) (s : State) : Int × State :=
  if cmd = 1#32 then (iosErrorOk, { s with writeEnabled := false })
  else if cmd = 2#32 then (iosErrorOk, { s with writeEnabled := true })
  else (iosErrorInvalid, s)

def Call.perform (s : State) : Call → Int × State
  | .read handle index outData => redseepromReadWord seepromBuffer orig handle index outData s
  | .write _ index data => redseepromWriteWord seepromBuffer index data s
  | .control _ cmd => redseepromWriteControl cmd s

/-- A call that was made, with what it returned and the memory that it left. -/
structure Made where
  call : Call
  ret : Int
  after : Mem

def run (s : State) : List Call → State × List Made
  | [] => (s, [])
  | call :: rest =>
      let (ret, s) := call.perform seepromBuffer orig s
      let (s', others) := run s rest
      (s', ⟨call, ret, s.mem⟩ :: others)

end Model

/-- What the buffer stands for. -/
structure Seeprom where
  words : Fin 256 → Half
  enabled : Bool
  dirty : Bool

def place (index : Word) : Fin 256 := ⟨index.toNat % 256, Nat.mod_lt _ (by decide)⟩

/-- The words of the drive key, which belongs to the drive of the console. -/
def DriveKey (i : Fin 256) : Prop := 0x40 ≤ i.val ∧ i.val < 0x48

instance (i : Fin 256) : Decidable (DriveKey i) := inferInstanceAs (Decidable (_ ∧ _))

def Seeprom.step (x : Seeprom) : Call → Seeprom
  | .read _ _ _ => x
  | .write _ index data =>
      if x.enabled then ⟨Function.update x.words (place index) data, x.enabled, true⟩ else x
  | .control _ cmd =>
      if cmd = 1#32 then { x with enabled := false }
      else if cmd = 2#32 then { x with enabled := true }
      else x

/-- The status, and the word that is read. -/
def Seeprom.reply (orig : Word → Word → Int × Option Half) (x : Seeprom) :
    Call → Int × Option Half
  | .read handle index _ =>
      if DriveKey (place index) then orig handle (index &&& 0xFF#32)
      else (iosErrorOk, some (x.words (place index)))
  | .write _ _ _ => (if x.enabled then iosErrorOk else iosErrorNotReady, none)
  | .control _ cmd => (if cmd = 1#32 ∨ cmd = 2#32 then iosErrorOk else iosErrorInvalid, none)

def Seeprom.replies (orig : Word → Word → Int × Option Half) (x : Seeprom) :
    List Call → List (Int × Option Half)
  | [] => []
  | call :: rest => x.reply orig call :: replies orig (x.step call) rest

/-- The call returned the status, and the word stands where it was asked for. -/
structure Made.Answered (made : Made) (reply : Int × Option Half) : Prop where
  ret : made.ret = reply.1
  word : ∀ handle index outData word, made.call = .read handle index outData →
    reply.2 = some word → read16 made.after outData = word

section Overlay

variable (seepromBuffer : Word) (orig : Word → Word → Int × Option Half)

/-- A word is read to a place off the buffer. -/
def Call.Off : Call → Prop
  | .read _ _ outData => Apart seepromBuffer seepromSize outData 2
  | _ => True

/-- The address is neither in the buffer nor where the call has a word stored. -/
def Call.Beside (y : Word) : Call → Prop
  | .read _ _ outData => Apart y 1 outData 2
  | _ => Apart y 1 seepromBuffer seepromSize

structure Stands (s : State) (x : Seeprom) : Prop where
  words : ∀ i : Fin 256, read16 s.mem (seepromBuffer + BitVec.ofNat 32 (2 * i.val)) = x.words i
  enabled : s.writeEnabled = x.enabled
  dirty : s.dirty = x.dirty

/-- A call that no word is read by is answered by its status. -/
theorem Made.answered_status {made : Made} {ret : Int} (same : made.ret = ret) :
    made.Answered (ret, none) where
  ret := same
  word _ _ _ _ _ absent := by cases absent

theorem word_inside (i : Fin 256) : 2 * i.val + 2 ≤ seepromSize := by
  have bound := i.isLt
  simp only [seepromSize]
  omega

theorem masked_toNat (index : Word) : (index &&& 0xFF#32).toNat = (place index).val := by
  rw [BitVec.toNat_and]
  exact Nat.and_two_pow_sub_one_eq_mod index.toNat 8

theorem wordAddress_place (index : Word) :
    wordAddress seepromBuffer index =
      seepromBuffer + BitVec.ofNat 32 (2 * (place index).val) := by
  have masked := masked_toNat index
  have bound := (place index).isLt
  unfold wordAddress
  congr 1
  apply BitVec.eq_of_toNat_eq
  rw [BitVec.toNat_mul, masked, BitVec.toNat_ofNat, BitVec.toNat_ofNat]

theorem driveKey_iff (index : Word) :
    (0x40#32 ≤ index &&& 0xFF#32 ∧ index &&& 0xFF#32 < 0x48#32) ↔ DriveKey (place index) := by
  rw [BitVec.le_def, BitVec.lt_def, masked_toNat]
  rfl

variable {seepromBuffer orig} {s : State} {x : Seeprom}

/-- The buffer alone decides what it stands for. -/
theorem Stands.congr (stands : Stands seepromBuffer s x) {m : Mem}
    (same : Same s.mem m seepromBuffer seepromSize) :
    Stands seepromBuffer { s with mem := m } x where
  words i := (same.sub (2 * i.val) (word_inside i)).read16.trans (stands.words i)
  enabled := stands.enabled
  dirty := stands.dirty

theorem Stands.read (stands : Stands seepromBuffer s x) (handle index outData : Word)
    (off : Apart seepromBuffer seepromSize outData 2) :
    Stands seepromBuffer (redseepromReadWord seepromBuffer orig handle index outData s).2 x ∧
      Made.Answered ⟨.read handle index outData,
        (redseepromReadWord seepromBuffer orig handle index outData s).1,
        (redseepromReadWord seepromBuffer orig handle index outData s).2.mem⟩
        (x.reply orig (.read handle index outData)) := by
  have kept : ∀ word, Stands seepromBuffer { s with mem := write16 s.mem outData word } x :=
    fun word => stands.congr (write16_apart s.mem seepromBuffer outData seepromSize word off)
  have stored : ∀ word handle' index' outData' word',
      Call.read handle index outData = .read handle' index' outData' → some word = some word' →
      read16 (write16 s.mem outData word) outData' = word' := by
    intro word handle' index' outData' word' same words
    obtain ⟨-, -, rfl⟩ := Call.read.inj same
    obtain rfl := Option.some.inj words
    exact read16_write16 s.mem outData word
  simp only [redseepromReadWord, Seeprom.reply, driveKey_iff]
  by_cases key : DriveKey (place index)
  · simp only [if_pos key]
    generalize orig handle (index &&& 0xFF#32) = result
    obtain ⟨ret, word⟩ := result
    cases word with
    | none => exact ⟨stands, Made.answered_status rfl⟩
    | some word => exact ⟨kept word, rfl, stored word⟩
  · simp only [if_neg key, wordAddress_place, stands.words]
    exact ⟨kept _, rfl, stored _⟩

/-- A write changes one word. -/
theorem Stands.written (stands : Stands seepromBuffer s x) (i : Fin 256) (data : Half) :
    Stands seepromBuffer
      ⟨write16 s.mem (seepromBuffer + BitVec.ofNat 32 (2 * i.val)) data, s.writeEnabled, true⟩
      ⟨Function.update x.words i data, x.enabled, true⟩ where
  words j := by
    show read16 (write16 s.mem _ data) _ = Function.update x.words i data j
    by_cases same : j = i
    · subst same
      rw [Function.update_self, read16_write16]
    · have apart : Apart (seepromBuffer + BitVec.ofNat 32 (2 * j.val)) 2
          (seepromBuffer + BitVec.ofNat 32 (2 * i.val)) 2 := by
        have other : j.val ≠ i.val := fun same' => same (Fin.ext same')
        have boundI := i.isLt
        have boundJ := j.isLt
        apply apart_offsets seepromBuffer _ _ 2 2 (by omega) (by omega)
        omega
      rw [Function.update_of_ne same, (write16_apart s.mem _ _ 2 data apart).read16]
      exact stands.words j
  enabled := stands.enabled
  dirty := rfl

/-- One call does what the SEEPROM that the buffer stands for does. -/
theorem Stands.perform (stands : Stands seepromBuffer s x) (call : Call)
    (off : call.Off seepromBuffer) :
    Stands seepromBuffer (call.perform seepromBuffer orig s).2 (x.step call) ∧
      Made.Answered ⟨call, (call.perform seepromBuffer orig s).1,
        (call.perform seepromBuffer orig s).2.mem⟩ (x.reply orig call) := by
  cases call with
  | read handle index outData => exact stands.read handle index outData off
  | write handle index data =>
      simp only [Call.perform, redseepromWriteWord, Seeprom.step, Seeprom.reply, stands.enabled]
      cases enabled : x.enabled with
      | false => exact ⟨stands, Made.answered_status rfl⟩
      | true =>
          simp only [Bool.true_eq_false, if_false, if_true, wordAddress_place]
          have written := stands.written (place index) data
          rw [stands.enabled, enabled] at written
          exact ⟨written, Made.answered_status rfl⟩
  | control handle cmd =>
      simp only [Call.perform, redseepromWriteControl, Seeprom.step, Seeprom.reply]
      by_cases disable : cmd = 1#32
      · simp only [if_pos disable, if_pos (Or.inl disable)]
        exact ⟨⟨stands.words, rfl, stands.dirty⟩, Made.answered_status rfl⟩
      · by_cases enable : cmd = 2#32
        · simp only [if_neg disable, if_pos enable, if_pos (Or.inr enable)]
          exact ⟨⟨stands.words, rfl, stands.dirty⟩, Made.answered_status rfl⟩
        · simp only [if_neg disable, if_neg enable, if_neg (not_or.mpr ⟨disable, enable⟩)]
          exact ⟨stands, Made.answered_status rfl⟩

/-- A call stores to the buffer and where it has a word stored, and nowhere else. -/
theorem perform_beside (orig : Word → Word → Int × Option Half) (s : State) (call : Call)
    (y : Word) (beside : call.Beside seepromBuffer y) :
    (call.perform seepromBuffer orig s).2.mem y = s.mem y := by
  have stored : ∀ a data, Apart y 1 a 2 → write16 s.mem a data y = s.mem y := by
    intro a data apart
    have same := write16_apart s.mem y a 1 data apart 0 Nat.one_pos
    rwa [BitVec.add_zero] at same
  cases call with
  | read handle index outData =>
      simp only [Call.perform, redseepromReadWord]
      split
      · generalize orig handle (index &&& 0xFF#32) = result
        obtain ⟨ret, word⟩ := result
        cases word with
        | none => rfl
        | some word => exact stored outData word beside
      · exact stored outData _ beside
  | write handle index data =>
      simp only [Call.perform, redseepromWriteWord, wordAddress_place]
      have inside := word_inside (place index)
      split
      · rfl
      · exact stored _ data (beside.comm.sub (2 * (place index).val) inside).comm
  | control handle cmd =>
      simp only [Call.perform, redseepromWriteControl]
      split
      · rfl
      · split
        · rfl
        · rfl

/-- In every run the calls are answered as by a SEEPROM of its own, with the words of the drive key
from the console; and only the buffer, and where words are read to, is stored to. -/
theorem run_overlays (stands : Stands seepromBuffer s x) (calls : List Call)
    (off : ∀ call ∈ calls, call.Off seepromBuffer) :
    let out := run seepromBuffer orig s calls
    Stands seepromBuffer out.1 (calls.foldl Seeprom.step x) ∧
      List.Forall₂ Made.Answered out.2 (x.replies orig calls) ∧
      ∀ y, (∀ call ∈ calls, call.Beside seepromBuffer y) → out.1.mem y = s.mem y := by
  induction calls generalizing s x with
  | nil => exact ⟨stands, .nil, fun _ _ => rfl⟩
  | cons call rest ih =>
      obtain ⟨next, answered⟩ := stands.perform call (off call List.mem_cons_self)
      obtain ⟨last, others, kept⟩ := ih next fun call' member =>
        off call' (List.mem_cons_of_mem call member)
      refine ⟨last, .cons answered others, ?_⟩
      intro y beside
      have first := perform_beside orig s call y (beside call List.mem_cons_self)
      have later := kept y fun call' member => beside call' (List.mem_cons_of_mem call member)
      exact later.trans first

end Overlay

section Sample

/-- An erased SEEPROM, with writes off. -/
def stateSample : State := ⟨fun _ => 0xFF#8, false, false⟩

def seepromSample : Seeprom := ⟨fun _ => 0xFFFF#16, false, false⟩

theorem stateSample_stands : Stands 0x10000000#32 stateSample seepromSample where
  words _ := show (0xFF#8 ++ 0xFF#8 : Half) = 0xFFFF#16 by decide
  enabled := rfl
  dirty := rfl

/-- Writes are turned on, a word is written, and it is read back together with one of the drive
key. -/
def callsSample : List Call :=
  [.control 0#32 2#32, .write 0#32 0x12#32 0x1234#16, .read 0#32 0x12#32 0x0D000000#32,
    .read 0#32 0x40#32 0x0D000002#32]

def origSample (_ _ : Word) : Int × Option Half := (0, some 0xABCD#16)

theorem callsSample_off : ∀ call ∈ callsSample, call.Off 0x10000000#32 := by
  have apart : ∀ a : Word, seepromSize ≤ (a - 0x10000000#32).toNat →
      2 ≤ (0x10000000#32 - a).toNat → Apart 0x10000000#32 seepromSize a 2 :=
    fun a up down => apart_of_distance up down
  intro call member
  simp only [callsSample, List.mem_cons, List.not_mem_nil, or_false] at member
  rcases member with rfl | rfl | rfl | rfl
  · trivial
  · trivial
  · exact apart _ (by decide) (by decide)
  · exact apart _ (by decide) (by decide)

theorem run_overlays_sample :
    let out := run 0x10000000#32 origSample stateSample callsSample
    Stands 0x10000000#32 out.1 (callsSample.foldl Seeprom.step seepromSample) ∧
      List.Forall₂ Made.Answered out.2 (seepromSample.replies origSample callsSample) ∧
      ∀ y, (∀ call ∈ callsSample, call.Beside 0x10000000#32 y) →
        out.1.mem y = stateSample.mem y :=
  run_overlays stateSample_stands callsSample callsSample_off

end Sample

end Stroopwafel.RedSeeprom
