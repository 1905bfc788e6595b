import Stroopwafel.ByteFile
import Stroopwafel.Memory

set_option autoImplicit false

namespace Stroopwafel.RemoteFile

open Memory ByteFile

section Functions

-- What the output buffer of a read has behind the bytes that were read.
variable (behind : File Byte → Nat → List Byte)

/-- What `FSA_ReadFile` returns, with elements of one byte, and the file behind the read -/
structure ReadResult where
  ret : Nat
  data : List Byte
  file : File Byte

def fsaReadFile (file : File Byte) (cnt : Nat) : ReadResult :=
  let data := (file.read cnt).1
  ⟨data.length, data ++ (behind file cnt).take (cnt - data.length), (file.read cnt).2⟩

/-- The loop of `fr`, or nothing when it still runs. -/
def frLoop (size : Nat) : Nat → File Byte → List Byte → Option (List Byte)
  | 0, _, _ => none
  | fuel + 1, file, buffer =>
      let blockSize := 0x400
      let read := fsaReadFile behind file (if blockSize < size then blockSize else size)
      let buffer := buffer ++ read.data.take read.ret
      if buffer.length ≥ size then some buffer else frLoop size fuel read.file buffer

/-- `fr`, on a file that can be opened. The offset is not used. -/
def fr (content : List Byte) (_offset size fuel : Nat) : Option (List Byte) :=
  frLoop behind size fuel ⟨content, 0⟩ []

def fsaWriteFile (file : File Byte) (data : List Byte) : File Byte := file.write 0#8 data

def fwLoop (buffer : List Byte) (file : File Byte) (k : Nat) : File Byte :=
  let curSize := min (buffer.length - k) 0x400
  if curSize = 0 then file
  else fwLoop buffer (fsaWriteFile file ((buffer.drop k).take curSize)) (k + curSize)
termination_by buffer.length - k

/-- What `fw` leaves of a file that can be opened. The offset is not used. -/
def fw (content : List Byte) (_offset : Nat) (buffer : List Byte) : List Byte :=
  (fwLoop buffer ⟨content, 0⟩ 0).content

def window (content : List Byte) (offset size : Nat) : List Byte :=
  (content.drop offset).take size

/-- Both functions work on the window at the offset, and `fr` returns what `fw` wrote. -/
structure Windows (content : List Byte) (offset size : Nat) (buffer : List Byte) : Prop where
  read : ∃ fuel, fr behind content offset size fuel = some (window content offset size)
  written : fw content offset buffer = overwrite 0#8 content offset buffer
  again : ∃ fuel, fr behind (fw content offset buffer) offset buffer.length fuel = some buffer

end Functions

section Read

variable (behind : File Byte → Nat → List Byte) (content : List Byte) (size : Nat)

/-- How far `fr` reads when its loop ends before the end of the file. -/
def fetched (size : Nat) : Nat :=
  if size ≤ 0x400 then size else 0x400 * ((size + 0x3FF) / 0x400)

def frFrom (p fuel : Nat) : Option (List Byte) :=
  frLoop behind size fuel ⟨content, min p content.length⟩ (content.take p)

theorem frFrom_succ (p fuel : Nat) :
    frFrom behind content size p (fuel + 1) =
      if size ≤ min (p + min 0x400 size) content.length then
        some (content.take (p + min 0x400 size))
      else frFrom behind content size (p + min 0x400 size) fuel := by
  have block : (if 0x400 < size then 0x400 else size) = min 0x400 size := by
    split <;> omega
  have rest : (File.mk content (min p content.length)).rest = content.drop p := by
    unfold File.rest
    rcases Nat.le_total p content.length with inside | outside
    · rw [Nat.min_eq_left inside]
    · rw [Nat.min_eq_right outside, List.drop_length, List.drop_of_length_le outside]
  have read : (fsaReadFile behind ⟨content, min p content.length⟩ (min 0x400 size)).data.take
      (fsaReadFile behind ⟨content, min p content.length⟩ (min 0x400 size)).ret =
        (content.drop p).take (min 0x400 size) := by
    rw [← rest]
    exact List.take_left
  have file : (fsaReadFile behind ⟨content, min p content.length⟩ (min 0x400 size)).file =
      ⟨content, min (p + min 0x400 size) content.length⟩ := by
    change File.mk content (min p content.length + ((File.mk content _).rest.take _).length) = _
    rw [rest, List.length_take, List.length_drop]
    congr 1
    omega
  unfold frFrom
  rw [frLoop, block]
  simp only [read, file, ← List.take_add, List.length_take, ge_iff_le]

theorem frFrom_never (short : content.length < size) (p fuel : Nat) :
    frFrom behind content size p fuel = none := by
  induction fuel generalizing p with
  | zero => rfl
  | succ fuel ih =>
      rw [frFrom_succ, if_neg (by omega)]
      exact ih _

theorem fetched_eq (p : Nat) (aligned : 0x400 ∣ p) (before : p = 0 ∨ p < size)
    (past : size ≤ p + min 0x400 size) : p + min 0x400 size = fetched size := by
  unfold fetched
  split <;> omega

section Enough

variable (enough : size ≤ content.length)
include enough

theorem frFrom_some (p fuel : Nat) (aligned : 0x400 ∣ p) (before : p = 0 ∨ p < size)
    (result : List Byte) (returns : frFrom behind content size p fuel = some result) :
    result = content.take (fetched size) := by
  induction fuel generalizing p with
  | zero => cases returns
  | succ fuel ih =>
      rw [frFrom_succ] at returns
      split at returns
      · rw [← fetched_eq size p aligned before (by omega)]
        exact (Option.some.inj returns).symm
      · exact ih _ (by omega) (by omega) returns

theorem frFrom_returns (p : Nat) (aligned : 0x400 ∣ p) (before : p = 0 ∨ p < size) :
    ∃ fuel, frFrom behind content size p fuel = some (content.take (fetched size)) := by
  by_cases past : size ≤ p + min 0x400 size
  · refine ⟨1, ?_⟩
    rw [frFrom_succ, if_pos (by omega), fetched_eq size p aligned before past]
  · obtain ⟨fuel, rest⟩ := frFrom_returns (p + min 0x400 size) (by omega) (by omega)
    refine ⟨fuel + 1, ?_⟩
    rw [frFrom_succ, if_neg (by omega), rest]
termination_by size - p

end Enough

theorem fr_iff (offset : Nat) (result : List Byte) :
    (∃ fuel, fr behind content offset size fuel = some result) ↔
      size ≤ content.length ∧ result = content.take (fetched size) := by
  have start : ∀ fuel, fr behind content offset size fuel = frFrom behind content size 0 fuel := by
    intro fuel
    unfold frFrom
    rw [Nat.zero_min, List.take_zero]
    rfl
  simp only [start]
  constructor
  · rintro ⟨fuel, returns⟩
    have enough : size ≤ content.length := by
      apply Nat.le_of_not_lt
      intro short
      rw [frFrom_never behind content size short] at returns
      cases returns
    exact ⟨enough, frFrom_some behind content size enough 0 fuel (Nat.dvd_zero _) (.inl rfl) result
      returns⟩
  · rintro ⟨enough, rfl⟩
    exact frFrom_returns behind content size enough 0 (Nat.dvd_zero _) (.inl rfl)

/-- No more than the size is read when the size is one block, or whole blocks, or reaches the end of
the file. -/
theorem take_fetched_iff (enough : size ≤ content.length) :
    content.take (fetched size) = content.take size ↔
      size ≤ 0x400 ∨ 0x400 ∣ size ∨ size = content.length := by
  rw [List.take_eq_take_iff, Nat.min_eq_left enough]
  unfold fetched
  split <;> omega

theorem window_length (offset : Nat) :
    (window content offset size).length = min size (content.length - offset) := by
  unfold window
  rw [List.length_take, List.length_drop]

/-- `fr` returns the window if the window is inside the file, has no partial block at its end, and
is the same as the bytes at the start of the file. -/
theorem fr_window_iff (offset : Nat) (inside : offset ≤ content.length) :
    (∃ fuel, fr behind content offset size fuel = some (window content offset size)) ↔
      offset + size ≤ content.length ∧
        (size ≤ 0x400 ∨ 0x400 ∣ size ∨ size = content.length) ∧
        content.take size = window content offset size := by
  rw [fr_iff]
  constructor
  · rintro ⟨enough, same⟩
    have larger : size ≤ fetched size := by
      unfold fetched
      split <;> omega
    have lengths := congrArg List.length same
    rw [window_length, List.length_take] at lengths
    have exact_ : content.take (fetched size) = content.take size := by
      rw [List.take_eq_take_iff]
      omega
    exact ⟨by omega, (take_fetched_iff content size enough).mp exact_, by rw [← exact_, same]⟩
  · rintro ⟨within, blocks, same⟩
    have enough : size ≤ content.length := by omega
    exact ⟨enough, by rw [(take_fetched_iff content size enough).mpr blocks, same]⟩

end Read

section Write

variable (content : List Byte) (offset : Nat) (buffer : List Byte)

theorem fwLoop_content (content : List Byte) (pos k : Nat) (inside : pos ≤ content.length) :
    (fwLoop buffer ⟨content, pos⟩ k).content = overwrite 0#8 content pos (buffer.drop k) := by
  rw [fwLoop]
  split
  · rw [List.drop_of_length_le (by omega), overwrite_nil]
  · have size : ((buffer.drop k).take (min (buffer.length - k) 0x400)).length =
        min (buffer.length - k) 0x400 := by
      rw [List.length_take, List.length_drop]
      omega
    have length := overwrite_length 0#8 content pos
      ((buffer.drop k).take (min (buffer.length - k) 0x400)) inside
    have rest := fwLoop_content
      (overwrite 0#8 content pos ((buffer.drop k).take (min (buffer.length - k) 0x400)))
      (pos + ((buffer.drop k).take (min (buffer.length - k) 0x400)).length)
      (k + min (buffer.length - k) 0x400) (by omega)
    refine Eq.trans rest ?_
    rw [overwrite_append 0#8 content pos _ _ inside, ← List.drop_drop, List.take_append_drop]
termination_by buffer.length - k

theorem fw_eq : fw content offset buffer = buffer ++ content.drop buffer.length := by
  unfold fw
  rw [fwLoop_content buffer content 0 0 (Nat.zero_le _), List.drop_zero,
    overwrite_inside 0#8 content 0 buffer (Nat.zero_le _), List.take_zero, List.nil_append,
    Nat.zero_add]

/-- A write at the start is one at the offset if the offset is 0, or the buffer and the bytes behind
it are the bytes in front of the offset and the buffer. -/
theorem fw_window_iff (inside : offset ≤ content.length) :
    fw content offset buffer = overwrite 0#8 content offset buffer ↔
      offset = 0 ∨ offset + buffer.length ≤ content.length ∧
        buffer ++ window content buffer.length offset = content.take offset ++ buffer := by
  rw [fw_eq, overwrite_inside 0#8 content offset buffer inside]
  have split : content.drop buffer.length =
      window content buffer.length offset ++ content.drop (offset + buffer.length) := by
    unfold window
    rw [Nat.add_comm, ← List.drop_drop, List.take_append_drop]
  constructor
  · intro same
    by_cases start : offset = 0
    · exact .inl start
    · have within : offset + buffer.length ≤ content.length := by
        have lengths := congrArg List.length same
        simp only [List.length_append, List.length_drop, List.length_take] at lengths
        omega
      rw [split, ← List.append_assoc] at same
      exact .inr ⟨within, List.append_cancel_right same⟩
  · rintro (rfl | ⟨_, same⟩)
    · rw [List.take_zero, List.nil_append, Nat.zero_add]
    · rw [split, ← List.append_assoc, same]

/-- `fr` returns what `fw` wrote if it has no partial block at its end or reaches the end of the
file. -/
theorem fr_fw_iff (behind : File Byte → Nat → List Byte) :
    (∃ fuel, fr behind (fw content offset buffer) offset buffer.length fuel = some buffer) ↔
      buffer.length ≤ 0x400 ∨ 0x400 ∣ buffer.length ∨ content.length ≤ buffer.length := by
  have enough : buffer.length ≤ (fw content offset buffer).length := by
    rw [fw_eq, List.length_append]
    omega
  have start : (fw content offset buffer).take buffer.length = buffer := by
    rw [fw_eq, List.take_left]
  have blocks := take_fetched_iff (fw content offset buffer) buffer.length enough
  have length : buffer.length = (fw content offset buffer).length ↔
      content.length ≤ buffer.length := by
    rw [fw_eq, List.length_append, List.length_drop]
    omega
  rw [start, length] at blocks
  rw [fr_iff, and_iff_right enough, ← blocks]
  exact eq_comm

end Write

/-- The functions work on the window at the offset if and only if
- the window of the read is inside the file, has no partial block at its end, and is the same as the
  bytes at the start of the file,
- the offset of the write is 0, or writing at the start does the same,
- the buffer has no partial block at its end or is as long as the file. -/
theorem windows_iff (behind : File Byte → Nat → List Byte) (content : List Byte)
    (offset size : Nat) (buffer : List Byte) (inside : offset ≤ content.length) :
    Windows behind content offset size buffer ↔
      (offset + size ≤ content.length ∧
        (size ≤ 0x400 ∨ 0x400 ∣ size ∨ size = content.length) ∧
        content.take size = window content offset size) ∧
      (offset = 0 ∨ offset + buffer.length ≤ content.length ∧
        buffer ++ window content buffer.length offset = content.take offset ++ buffer) ∧
      (buffer.length ≤ 0x400 ∨ 0x400 ∣ buffer.length ∨ content.length ≤ buffer.length) := by
  rw [← fr_window_iff behind content size offset inside,
    ← fw_window_iff content offset buffer inside, ← fr_fw_iff content offset buffer behind]
  constructor
  · rintro ⟨read, written, again⟩
    exact ⟨read, written, again⟩
  · rintro ⟨read, written, again⟩
    exact ⟨read, written, again⟩

theorem windows_iff_start :
    Windows (fun _ _ => []) [1#8, 2#8] 0 1 [3#8] ↔
      (0 + 1 ≤ 2 ∧ (1 ≤ 0x400 ∨ 0x400 ∣ 1 ∨ 1 = 2) ∧ [1#8] = window [1#8, 2#8] 0 1) ∧
      (0 = 0 ∨ 0 + 1 ≤ 2 ∧ [3#8] ++ window [1#8, 2#8] 1 0 = [] ++ [3#8]) ∧
      (1 ≤ 0x400 ∨ 0x400 ∣ 1 ∨ 2 ≤ 1) :=
  windows_iff (fun _ _ => []) [1#8, 2#8] 0 1 [3#8] (by decide)

/-- The byte at 1 of a file of two is asked for. -/
theorem offset_not_used : ¬ Windows (fun _ _ => []) [1#8, 2#8] 1 1 [] := by
  intro windows
  obtain ⟨_, same⟩ := (fr_iff (fun _ _ => []) [1#8, 2#8] 1 1 _).mp windows.read
  exact absurd same (by decide)

end Stroopwafel.RemoteFile
