import Stroopwafel.ByteFile
import Stroopwafel.Memory

set_option autoImplicit false

namespace Stroopwafel.RemoteFile

open Memory ByteFile

/-- How the server answers a read or a write: it moves so many bytes fewer than it could, or it
returns a status with the top bit set. -/
inductive Answer where
  | moved (short : Nat)
  | failed (status : Word) (top : 2 ^ 31 ≤ status.toNat)

/-- The bytes that a read moves when it could move `available`: none at the end of the file only. -/
def Answer.count (available : Nat) : Answer → Nat
  | .moved short => if available = 0 then 0 else max 1 (available - short)
  | .failed _ _ => 0

def Answer.Served : Answer → Prop
  | .moved _ => True
  | .failed _ _ => False

def Answer.Full (n : Nat) : Answer → Prop
  | .moved short => short = 0 ∨ n = 0
  | .failed _ _ => False

/-- What is sent, with the word that comes back. `fetch` reads the buffer over the network. -/
inductive Transfer where
  | read (ret : Nat)
  | write (cnt ret : Nat)
  | fetch (length : Nat)

def Transfer.Failed : Transfer → Prop
  | .read ret => 2 ^ 31 ≤ ret
  | .write _ ret => 2 ^ 31 ≤ ret
  | .fetch _ => False

/-- Nothing is transferred behind an operation that failed. -/
def StopsOnErrors : List Transfer → Prop
  | [] => True
  | t :: rest => (t.Failed → rest = []) ∧ StopsOnErrors rest

/-- The source from its position on, the buffer on the console with the memory behind it, and what
was written to the destination. -/
structure Session where
  source : File Byte
  buffer : Nat → Byte
  dest : List Byte

structure Copied where
  dest : List Byte
  log : List Transfer

def Copied.after (c : Copied) (log : List Transfer) : Copied := { c with log := log ++ c.log }

def bufferBytes (buffer : Nat → Byte) (length : Nat) : List Byte := (List.range length).map buffer

/-- `FSA_ReadFilePtr`, with elements of one byte -/
def fsaReadFilePtr (answer : Answer) (s : Session) (cnt : Nat) : Nat × Session :=
  match answer with
  | .failed status _ => (status.toNat, s)
  | .moved _ =>
      let read := s.source.read (answer.count (min cnt s.source.rest.length))
      (read.1.length,
        { s with source := read.2, buffer := fun j => (read.1[j]?).getD (s.buffer j) })

/-- `FSA_WriteFilePtr` -/
def fsaWriteFilePtr (answer : Answer) (s : Session) (cnt : Nat) : Nat × Session :=
  match answer with
  | .failed status _ => (status.toNat, s)
  | .moved short =>
      (cnt - short, { s with dest := s.dest ++ bufferBytes s.buffer (cnt - short) })

section Functions

variable (reads writes : Nat → Answer)

/-- The loop of `cp` from the `i`-th round on, or nothing when it still runs. -/
def cpLoop : Nat → Nat → Session → Option Copied
  | 0, _, _ => none
  | fuel + 1, i, s =>
      let (cnt, s) := fsaReadFilePtr (reads i) s 0x100000
      let (ret, s) := fsaWriteFilePtr (writes i) s cnt
      let log := [.read cnt, .write cnt ret]
      if ret < 1 then some ⟨s.dest, log⟩
      else (cpLoop fuel (i + 1) s).map fun c => c.after log

def dlLoop : Nat → Nat → Session → Option Copied
  | 0, _, _ => none
  | fuel + 1, i, s =>
      let (ret, s) := fsaReadFilePtr (reads i) s 0x40000
      if ret < 1 then some ⟨s.dest, [.read ret]⟩
      else
        (dlLoop fuel (i + 1) { s with dest := s.dest ++ bufferBytes s.buffer ret }).map fun c =>
          c.after [.read ret, .fetch ret]

/-- `cp`, with the files open and the buffer allocated -/
def cp (content : List Byte) (buffer : Nat → Byte) (fuel : Nat) : Option Copied :=
  cpLoop reads writes fuel 0 ⟨⟨content, 0⟩, buffer, []⟩

/-- `dl`, with the files open and the buffer allocated -/
def dl (content : List Byte) (buffer : Nat → Byte) (fuel : Nat) : Option Copied :=
  dlLoop reads fuel 0 ⟨⟨content, 0⟩, buffer, []⟩

/-- The copy ends, stops on errors, and is a copy of the source if there are none. -/
def Correct (content : List Byte) (copy : Nat → Option Copied) : Prop :=
  ∃ fuel c, copy fuel = some c ∧ StopsOnErrors c.log ∧
    ((∀ t ∈ c.log, ¬ t.Failed) → c.dest = content)

/-- The position in a file of `length` bytes before the `i`-th read of blocks of `block` bytes. -/
def position (block length : Nat) : Nat → Nat
  | 0 => 0
  | i + 1 =>
      position block length i + (reads i).count (min block (length - position block length i))

/-- The bytes that the `i`-th read moves. -/
def moves (block length i : Nat) : Nat :=
  (reads i).count (min block (length - position reads block length i))

/-- The `j`-th read is issued when those from the `i`-th on were not at the end of the file. -/
def Issued (block length i j : Nat) : Prop :=
  i ≤ j ∧ ∀ k, i ≤ k → k < j → position reads block length k < length

end Functions

theorem stopsOnErrors_of_none (log : List Transfer) (none : ∀ t ∈ log, ¬ t.Failed) :
    StopsOnErrors log := by
  induction log with
  | nil => trivial
  | cons t rest ih =>
      refine ⟨fun failed => absurd failed (none t List.mem_cons_self), ?_⟩
      exact ih fun t member => none t (List.mem_cons_of_mem _ member)

theorem bufferBytes_eq (data : List Byte) (buffer : Nat → Byte) :
    bufferBytes (fun j => (data[j]?).getD (buffer j)) data.length = data := by
  unfold bufferBytes
  apply List.ext_getElem?
  intro j
  rw [List.getElem?_map]
  by_cases inside : j < data.length
  · rw [List.getElem?_range inside, Option.map_some, List.getElem?_eq_getElem inside,
      Option.getD_some]
  · rw [List.getElem?_eq_none (by rw [List.length_range]; omega), Option.map_none,
      List.getElem?_eq_none (by omega)]

section Rounds

variable (reads : Nat → Answer) (block : Nat) (content : List Byte)

theorem count_le (available : Nat) (a : Answer) : a.count available ≤ available := by
  unfold Answer.count
  cases a with
  | moved short =>
      dsimp only
      split <;> omega
  | failed status top => exact Nat.zero_le _

theorem position_succ (i : Nat) :
    position reads block content.length (i + 1) =
      position reads block content.length i + moves reads block content.length i := rfl

theorem moves_le (i : Nat) : moves reads block content.length i ≤
    content.length - position reads block content.length i :=
  Nat.le_trans (count_le _ _) (Nat.min_le_right _ _)

theorem position_le (i : Nat) : position reads block content.length i ≤ content.length := by
  induction i with
  | zero => exact Nat.zero_le _
  | succ i ih =>
      have moved := moves_le reads block content i
      rw [position_succ]
      omega

/-- A read that is served moves something before the end of the file. -/
theorem moves_pos (positive : 0 < block) (i : Nat) (served : (reads i).Served)
    (before : position reads block content.length i < content.length) :
    1 ≤ moves reads block content.length i := by
  unfold moves
  cases answer : reads i with
  | moved short =>
      unfold Answer.count
      dsimp only
      rw [if_neg (by omega)]
      exact Nat.le_max_left _ _
  | failed status top =>
      rw [answer] at served
      cases served

/-- The session before the `i`-th read -/
def sessionAt (i : Nat) (buffer : Nat → Byte) (dest : List Byte) : Session :=
  ⟨⟨content, position reads block content.length i⟩, buffer, dest⟩

/-- The bytes that the `i`-th read moves. -/
def piece (i : Nat) : List Byte :=
  (content.drop (position reads block content.length i)).take (moves reads block content.length i)

def filled (i : Nat) (buffer : Nat → Byte) : Nat → Byte :=
  fun j => ((piece reads block content i)[j]?).getD (buffer j)

theorem piece_length (i : Nat) :
    (piece reads block content i).length = moves reads block content.length i := by
  have bound := moves_le reads block content i
  unfold piece
  rw [List.length_take, List.length_drop]
  omega

theorem piece_append (i : Nat) :
    piece reads block content i ++ content.drop (position reads block content.length (i + 1)) =
      content.drop (position reads block content.length i) := by
  rw [position_succ, ← List.drop_drop]
  exact List.take_append_drop _ _

theorem filled_bytes (i : Nat) (buffer : Nat → Byte) :
    bufferBytes (filled reads block content i buffer) (moves reads block content.length i) =
      piece reads block content i := by
  rw [← piece_length]
  exact bufferBytes_eq _ _

/-- A read that is served brings the next bytes of the source to the start of the buffer. -/
theorem fsaReadFilePtr_served (i : Nat) (buffer : Nat → Byte) (dest : List Byte)
    (served : (reads i).Served) :
    fsaReadFilePtr (reads i) (sessionAt reads block content i buffer dest) block =
      (moves reads block content.length i,
        sessionAt reads block content (i + 1) (filled reads block content i buffer) dest) := by
  have length := piece_length reads block content i
  cases answer : reads i with
  | failed status top =>
      rw [answer] at served
      cases served
  | moved short =>
      have same : (Answer.moved short).count (min block
          (sessionAt reads block content i buffer dest).source.rest.length) =
            moves reads block content.length i := by
        unfold moves sessionAt File.rest
        rw [answer, List.length_drop]
      have data : (sessionAt reads block content i buffer dest).source.read
          (moves reads block content.length i) = (piece reads block content i,
            ⟨content, position reads block content.length (i + 1)⟩) := by
        change (piece reads block content i, File.mk content
          (position reads block content.length i + (piece reads block content i).length)) = _
        rw [length, position_succ]
      unfold fsaReadFilePtr
      simp only [same, data, length]
      rfl

end Rounds

section Issued

variable {reads : Nat → Answer} {block : Nat} {content : List Byte} {i j : Nat}

/-- A read that is issued from the next round on is issued from this one on, which is not at the end
of the file. -/
theorem Issued.back (issued : Issued reads block content.length (i + 1) j)
    (before : position reads block content.length i < content.length) :
    Issued reads block content.length i j := by
  obtain ⟨order, passed⟩ := issued
  refine ⟨by omega, ?_⟩
  intro k lower upper
  rcases Nat.lt_or_eq_of_le lower with less | rfl
  · exact passed k less upper
  · exact before

/-- Behind a read that moves nothing there is no other. -/
theorem Issued.last (issued : Issued reads block content.length i j)
    (at_end : content.length ≤ position reads block content.length i) : j = i := by
  obtain ⟨order, passed⟩ := issued
  rcases Nat.lt_or_eq_of_le order with less | rfl
  · exact absurd (passed i (Nat.le_refl i) less) (Nat.not_lt_of_le at_end)
  · rfl

/-- A read that is issued is this one, or is issued from the next round on. -/
theorem Issued.forth (issued : Issued reads block content.length i j) :
    j = i ∨ Issued reads block content.length (i + 1) j := by
  obtain ⟨order, passed⟩ := issued
  rcases Nat.lt_or_eq_of_le order with less | rfl
  · exact .inr ⟨less, fun k lower upper => passed k (by omega) upper⟩
  · exact .inl rfl

end Issued

section Cp

variable (reads writes : Nat → Answer) (content : List Byte)

/-- The reads and writes of `cp` from the `i`-th round on are served, the writes in full. -/
def CpServed (i : Nat) : Prop :=
  ∀ j, Issued reads 0x100000 content.length i j →
    (reads j).Served ∧ (writes j).Full (moves reads 0x100000 content.length j)

theorem cpLoop_served (i : Nat) (buffer : Nat → Byte) (dest : List Byte) (fuel short : Nat)
    (served : (reads i).Served) (answer : writes i = .moved short) :
    cpLoop reads writes (fuel + 1) i (sessionAt reads 0x100000 content i buffer dest) =
      let cnt := moves reads 0x100000 content.length i
      let buffer := filled reads 0x100000 content i buffer
      let dest := dest ++ bufferBytes buffer (cnt - short)
      let log := [.read cnt, .write cnt (cnt - short)]
      if cnt - short < 1 then some ⟨dest, log⟩
      else (cpLoop reads writes fuel (i + 1)
        (sessionAt reads 0x100000 content (i + 1) buffer dest)).map fun c => c.after log := by
  rw [cpLoop, fsaReadFilePtr_served reads 0x100000 content i buffer dest served, answer]
  rfl

theorem cp_small (i : Nat) : moves reads 0x100000 content.length i < 2 ^ 31 :=
  Nat.lt_of_le_of_lt (Nat.le_trans (count_le _ _) (Nat.min_le_left _ _)) (by decide)

theorem round_clean (n w : Nat) (small : n < 2 ^ 31) (written : w ≤ n) :
    ∀ t ∈ [Transfer.read n, .write n w], ¬ t.Failed := by
  rw [List.forall_mem_cons, List.forall_mem_singleton]
  exact ⟨Nat.not_le_of_lt small, Nat.not_le_of_lt (Nat.lt_of_le_of_lt written small)⟩

/-- When all is served the rest of the source is copied. -/
theorem cpLoop_copies (i : Nat) (buffer : Nat → Byte) (dest : List Byte)
    (served : CpServed reads writes content i) :
    ∃ fuel c, cpLoop reads writes fuel i (sessionAt reads 0x100000 content i buffer dest) = some c ∧
      c.dest = dest ++ content.drop (position reads 0x100000 content.length i) ∧
      ∀ t ∈ c.log, ¬ t.Failed := by
  have bound := position_le reads 0x100000 content i
  have moved := moves_le reads 0x100000 content i
  have small := cp_small reads content i
  obtain ⟨read, write⟩ := served i ⟨Nat.le_refl i, fun k lower upper => absurd upper (by omega)⟩
  cases answer : writes i with
  | failed status top =>
      rw [answer] at write
      cases write
  | moved short =>
      rw [answer] at write
      have all : moves reads 0x100000 content.length i - short =
          moves reads 0x100000 content.length i := by
        rcases write with rfl | none
        · rfl
        · rw [none, Nat.zero_sub]
      by_cases before : position reads 0x100000 content.length i < content.length
      · have some_ := moves_pos reads 0x100000 content (by decide) i read before
        have next := position_succ reads 0x100000 content i
        obtain ⟨fuel, c, rest, copied, none⟩ := cpLoop_copies (i + 1)
          (filled reads 0x100000 content i buffer) (dest ++ piece reads 0x100000 content i)
          fun j issued => served j (issued.back before)
        refine ⟨fuel + 1, c.after [.read (moves reads 0x100000 content.length i),
          .write (moves reads 0x100000 content.length i) (moves reads 0x100000 content.length i)],
          ?_, ?_, ?_⟩
        · rw [cpLoop_served reads writes content i buffer dest fuel short read answer]
          dsimp only
          rw [all, if_neg (by omega), filled_bytes, rest, Option.map_some]
        · change c.dest = _
          rw [copied, List.append_assoc, piece_append]
        · exact List.forall_mem_append.mpr ⟨round_clean _ _ small (Nat.le_refl _), none⟩
      · have none : moves reads 0x100000 content.length i = 0 := by omega
        refine ⟨1, ⟨dest, [.read 0, .write 0 0]⟩, ?_, ?_, ?_⟩
        · rw [cpLoop_served reads writes content i buffer dest 0 short read answer]
          dsimp only
          rw [all, none, if_pos (by decide)]
          exact congrArg (fun bytes => some (Copied.mk bytes _)) (List.append_nil dest)
        · rw [List.drop_of_length_le (by omega), List.append_nil]
        · exact round_clean 0 0 (by decide) (Nat.le_refl 0)
termination_by content.length - position reads 0x100000 content.length i

theorem cpLoop_log (fuel i : Nat) (s : Session) (c : Copied)
    (ends : cpLoop reads writes fuel i s = some c) : c.log ≠ [] := by
  cases fuel with
  | zero => cases ends
  | succ fuel =>
      rw [cpLoop] at ends
      dsimp only at ends
      split at ends
      · cases ends
        exact List.cons_ne_nil _ _
      · obtain ⟨rest, _, rfl⟩ := Option.map_eq_some_iff.mp ends
        exact List.cons_ne_nil _ _

/-- No answer of the round is an error when the copy stops on errors: behind a read there is a
write, and behind a status of a write there is another round. -/
theorem cpLoop_round (fuel i : Nat) (s : Session) (c : Copied)
    (ends : cpLoop reads writes fuel i s = some c) (stops : StopsOnErrors c.log) :
    (reads i).Served ∧ ∃ short, writes i = .moved short := by
  cases fuel with
  | zero => cases ends
  | succ fuel =>
      rw [cpLoop] at ends
      dsimp only at ends
      constructor
      · cases answered : reads i with
        | moved short => trivial
        | failed status top =>
            rw [answered] at ends
            split at ends
            · cases ends
              exact absurd (stops.1 top) (List.cons_ne_nil _ _)
            · obtain ⟨rest, _, rfl⟩ := Option.map_eq_some_iff.mp ends
              exact absurd (stops.1 top) (List.cons_ne_nil _ _)
      · cases written : writes i with
        | moved short => exact ⟨short, rfl⟩
        | failed status top =>
            rw [written] at ends
            split at ends
            · have low : status.toNat < 1 := by assumption
              omega
            · obtain ⟨rest, again, rfl⟩ := Option.map_eq_some_iff.mp ends
              exact absurd (stops.2.1 top) (cpLoop_log reads writes fuel (i + 1) _ rest again)

/-- A copy that stops on errors had none, and if it is as long as the rest of the source it had no
write in part. -/
theorem cpLoop_stops (fuel i : Nat) (buffer : Nat → Byte) (dest : List Byte) (c : Copied)
    (ends : cpLoop reads writes fuel i (sessionAt reads 0x100000 content i buffer dest) = some c)
    (stops : StopsOnErrors c.log) :
    (∀ t ∈ c.log, ¬ t.Failed) ∧
      c.dest.length + position reads 0x100000 content.length i ≤ dest.length + content.length ∧
      (dest.length + content.length ≤
          c.dest.length + position reads 0x100000 content.length i →
        CpServed reads writes content i) := by
  induction fuel generalizing i buffer dest c with
  | zero => cases ends
  | succ fuel ih =>
      obtain ⟨read, short, written⟩ := cpLoop_round reads writes (fuel + 1) i _ c ends stops
      have bound := position_le reads 0x100000 content i
      have moved := moves_le reads 0x100000 content i
      have small := cp_small reads content i
      have next := position_succ reads 0x100000 content i
      have bytes : ∀ buffer n, (bufferBytes buffer n).length = n := by
        intro buffer n
        rw [bufferBytes, List.length_map, List.length_range]
      rw [cpLoop_served reads writes content i buffer dest fuel short read written] at ends
      dsimp only at ends
      split at ends
      · -- nothing is written, so either the file was at its end or its last bytes are missing
        cases ends
        rw [List.length_append, bytes]
        refine ⟨round_clean _ _ small (by omega), by omega, ?_⟩
        intro all j issued
        rw [issued.last (by omega), written]
        exact ⟨read, .inr (by omega)⟩
      · obtain ⟨rest, again, rfl⟩ := Option.map_eq_some_iff.mp ends
        obtain ⟨none, longest, full⟩ := ih (i + 1) _ _ rest again stops.2.2
        rw [List.length_append, bytes] at longest full
        refine ⟨List.forall_mem_append.mpr ⟨round_clean _ _ small (by omega), none⟩, ?_, ?_⟩
        · change rest.dest.length + _ ≤ _
          omega
        · intro all
          change _ ≤ rest.dest.length + _ at all
          have served := full (by omega)
          intro j issued
          rcases issued.forth with rfl | later
          · rw [written]
            exact ⟨read, by
              unfold Answer.Full
              omega⟩
          · exact served j later

theorem cp_correct_iff (buffer : Nat → Byte) :
    Correct content (cp reads writes content buffer) ↔ CpServed reads writes content 0 := by
  constructor
  · rintro ⟨fuel, c, ends, stops, same⟩
    obtain ⟨none, _, full⟩ := cpLoop_stops reads writes content fuel 0 buffer [] c ends stops
    apply full
    rw [same none, List.length_nil, Nat.zero_add]
    exact Nat.le_add_right _ _
  · intro served
    obtain ⟨fuel, c, ends, copied, none⟩ := cpLoop_copies reads writes content 0 buffer [] served
    exact ⟨fuel, c, ends, stopsOnErrors_of_none c.log none, fun _ => copied⟩

end Cp

section Dl

variable (reads : Nat → Answer) (content : List Byte)

def DlServed (i : Nat) : Prop := ∀ j, Issued reads 0x40000 content.length i j → (reads j).Served

theorem dlLoop_served (i : Nat) (buffer : Nat → Byte) (dest : List Byte) (fuel : Nat)
    (served : (reads i).Served) :
    dlLoop reads (fuel + 1) i (sessionAt reads 0x40000 content i buffer dest) =
      let ret := moves reads 0x40000 content.length i
      if ret < 1 then some ⟨dest, [.read ret]⟩
      else
        (dlLoop reads fuel (i + 1) (sessionAt reads 0x40000 content (i + 1)
          (filled reads 0x40000 content i buffer) (dest ++ piece reads 0x40000 content i))).map
            fun c => c.after [.read ret, .fetch ret] := by
  rw [dlLoop, fsaReadFilePtr_served reads 0x40000 content i buffer dest served,
    ← filled_bytes reads 0x40000 content i buffer]
  rfl

theorem dl_small (i : Nat) : moves reads 0x40000 content.length i < 2 ^ 31 :=
  Nat.lt_of_le_of_lt (Nat.le_trans (count_le _ _) (Nat.min_le_left _ _)) (by decide)

theorem fetch_clean (n : Nat) (small : n < 2 ^ 31) :
    ∀ t ∈ [Transfer.read n, .fetch n], ¬ t.Failed := by
  rw [List.forall_mem_cons, List.forall_mem_singleton]
  exact ⟨Nat.not_le_of_lt small, id⟩

/-- When all is served the rest of the source is copied. -/
theorem dlLoop_copies (i : Nat) (buffer : Nat → Byte) (dest : List Byte)
    (served : DlServed reads content i) :
    ∃ fuel c, dlLoop reads fuel i (sessionAt reads 0x40000 content i buffer dest) = some c ∧
      c.dest = dest ++ content.drop (position reads 0x40000 content.length i) ∧
      ∀ t ∈ c.log, ¬ t.Failed := by
  have bound := position_le reads 0x40000 content i
  have moved := moves_le reads 0x40000 content i
  have small := dl_small reads content i
  have read := served i ⟨Nat.le_refl i, fun k lower upper => absurd upper (by omega)⟩
  by_cases before : position reads 0x40000 content.length i < content.length
  · have some_ := moves_pos reads 0x40000 content (by decide) i read before
    have next := position_succ reads 0x40000 content i
    obtain ⟨fuel, c, rest, copied, none⟩ := dlLoop_copies (i + 1)
      (filled reads 0x40000 content i buffer) (dest ++ piece reads 0x40000 content i)
      fun j issued => served j (issued.back before)
    refine ⟨fuel + 1, c.after [.read (moves reads 0x40000 content.length i),
      .fetch (moves reads 0x40000 content.length i)], ?_, ?_, ?_⟩
    · rw [dlLoop_served reads content i buffer dest fuel read]
      dsimp only
      rw [if_neg (by omega), rest, Option.map_some]
    · change c.dest = _
      rw [copied, List.append_assoc, piece_append]
    · exact List.forall_mem_append.mpr ⟨fetch_clean _ small, none⟩
  · have none : moves reads 0x40000 content.length i = 0 := by omega
    refine ⟨1, ⟨dest, [.read 0]⟩, ?_, ?_, ?_⟩
    · rw [dlLoop_served reads content i buffer dest 0 read]
      dsimp only
      rw [none, if_pos (by decide)]
    · rw [List.drop_of_length_le (by omega), List.append_nil]
    · rw [List.forall_mem_singleton]
      exact Nat.not_le_of_lt (by decide : 0 < 2 ^ 31)
termination_by content.length - position reads 0x40000 content.length i

/-- A copy that stops on errors had none: a status is taken for the size of the data. -/
theorem dlLoop_stops (fuel i : Nat) (buffer : Nat → Byte) (dest : List Byte) (c : Copied)
    (ends : dlLoop reads fuel i (sessionAt reads 0x40000 content i buffer dest) = some c)
    (stops : StopsOnErrors c.log) : DlServed reads content i := by
  induction fuel generalizing i buffer dest c with
  | zero => cases ends
  | succ fuel ih =>
      cases answer : reads i with
      | failed status top =>
          rw [dlLoop, answer] at ends
          dsimp only [fsaReadFilePtr] at ends
          split at ends
          · have low : status.toNat < 1 := by assumption
            omega
          · obtain ⟨rest, _, rfl⟩ := Option.map_eq_some_iff.mp ends
            exact absurd (stops.1 top) (List.cons_ne_nil _ _)
      | moved short =>
          have read : (reads i).Served := by
            rw [answer]
            trivial
          have bound := position_le reads 0x40000 content i
          rw [dlLoop_served reads content i buffer dest fuel read] at ends
          dsimp only at ends
          intro j issued
          split at ends
          · have past : content.length ≤ position reads 0x40000 content.length i := by
              apply Nat.le_of_not_lt
              intro before
              have some_ := moves_pos reads 0x40000 content (by decide) i read before
              omega
            rw [issued.last past]
            exact read
          · obtain ⟨rest, again, rfl⟩ := Option.map_eq_some_iff.mp ends
            rcases issued.forth with rfl | later
            · exact read
            · exact ih (i + 1) _ _ rest again stops.2.2 j later

theorem dl_correct_iff (buffer : Nat → Byte) :
    Correct content (dl reads content buffer) ↔ DlServed reads content 0 := by
  constructor
  · rintro ⟨fuel, c, ends, stops, _⟩
    exact dlLoop_stops reads content fuel 0 buffer [] c ends stops
  · intro served
    obtain ⟨fuel, c, ends, copied, none⟩ := dlLoop_copies reads content 0 buffer [] served
    exact ⟨fuel, c, ends, stopsOnErrors_of_none c.log none, fun _ => copied⟩

end Dl

/-- The copies stop on errors and are complete without one if and only if there is none: each read
that is issued is served, and `cp` gets each of its writes done in full. -/
theorem copies_correct_iff (reads writes : Nat → Answer) (content : List Byte)
    (buffer : Nat → Byte) :
    (Correct content (cp reads writes content buffer) ↔ CpServed reads writes content 0) ∧
      (Correct content (dl reads content buffer) ↔ DlServed reads content 0) :=
  ⟨cp_correct_iff reads writes content buffer, dl_correct_iff reads content buffer⟩

/-- The first read returns a status, which is taken for the size of a write. -/
theorem status_taken_for_size :
    ¬ Correct [1#8] (cp (fun _ => .failed 0xFFFCFFE9#32 (by decide)) (fun _ => .moved 0) [1#8]
      fun _ => 0#8) := by
  rw [cp_correct_iff]
  intro served
  exact (served 0 ⟨Nat.le_refl 0, fun k _ upper => absurd upper (Nat.not_lt_zero k)⟩).1

end Stroopwafel.RemoteFile
