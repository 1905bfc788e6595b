import Stroopwafel.MemoryHolds

set_option autoImplicit false

namespace Stroopwafel.Fsa

open Memory CString

/-- The bytes of a request in `iobuf`, and of `iobuf`. -/
abbrev requestBytes : Nat := 0x520
abbrev iobufBytes : Nat := 0x828

/-- `sizeof(iovec_s)` -/
abbrev iovecBytes : Nat := 12

/-- The arguments of `iosIoctl` and of `iosIoctlv`. -/
inductive Call where
  | ioctl (fd request bufferIn lengthIn bufferIo lengthIo : Word)
  | ioctlv (fd request numIn numOut vector : Word)

/-- What a request looks like to the service: the number, the lengths of the vectors, and the
block of bytes in the first. -/
structure Submission where
  vectored : Bool
  fd : Word
  request : Word
  ins : List Word
  outs : List Word
  block : List Byte
  deriving DecidableEq

section Submission

variable (m : Mem) (vector : Word)

def iovecPtr (i : Nat) : Word := read32 m (vector + BitVec.ofNat 32 (iovecBytes * i))

def iovecLen (i : Nat) : Word := read32 m (vector + BitVec.ofNat 32 (iovecBytes * i + 4))

def Call.submission : Call → Submission
  | .ioctl fd request bufferIn lengthIn _ lengthIo =>
      ⟨false, fd, request, [lengthIn], [lengthIo], load m bufferIn requestBytes⟩
  | .ioctlv fd request numIn numOut vector =>
      { vectored := true
        fd := fd
        request := request
        ins := (List.range numIn.toNat).map (iovecLen m vector)
        outs := (List.range numOut.toNat).map fun i => iovecLen m vector (numIn.toNat + i)
        block := load m (iovecPtr m vector 0) requestBytes }

end Submission

/-- What the encoders do to `inbuf`. -/
inductive Put where
  | strncpy (offset : Nat) (src : Word) (n : Nat)
  | word (offset : Nat) (w : Word)

section Encoders

variable (m : Mem) (iobuf fd : Word)

def allocIobuf : Mem := store m iobuf (List.replicate iobufBytes 0#8)

def put (m : Mem) : Put → Mem
  | .strncpy offset src n => strncpy m (iobuf + BitVec.ofNat 32 offset) src n
  | .word offset w => write32 m (iobuf + BitVec.ofNat 32 offset) w

def fill (puts : List Put) : Mem := puts.foldl (put iobuf) (allocIobuf m iobuf)

def iosIoctl (request : Word) (puts : List Put) : Mem × Call :=
  (fill m iobuf puts, .ioctl fd request iobuf 0x520#32 (iobuf + 0x520#32) 0x293#32)

/-- The second vector is the buffer of the caller. -/
def iosIoctlv (request numIn numOut : Word) (puts : List Put) (ptr len : Word) : Mem × Call :=
  let m := fill m iobuf puts
  let m := write32 m (iobuf + 0x7C0#32) iobuf
  let m := write32 m (iobuf + 0x7C4#32) 0x520#32
  let m := write32 m (iobuf + 0x7CC#32) ptr
  let m := write32 m (iobuf + 0x7D0#32) len
  let m := write32 m (iobuf + 0x7D8#32) (iobuf + 0x520#32)
  let m := write32 m (iobuf + 0x7DC#32) 0x293#32
  (m, .ioctlv fd request numIn numOut (iobuf + 0x7C0#32))

def fsaMount (devicePath volumePath flags argString argStringLen : Word) : Mem × Call :=
  iosIoctlv m iobuf fd 0x01#32 2#32 1#32
    [.strncpy 0x04 devicePath 0x27F, .strncpy 0x284 volumePath 0x27F, .word 0x504 flags,
      .word 0x508 argStringLen] argString argStringLen

def fsaFlushVolume (volume : Word) : Mem × Call :=
  iosIoctl m iobuf fd 0x1B#32 [.strncpy 0x04 volume 0x27F]

def fsaMakeDir (path flags : Word) : Mem × Call :=
  iosIoctl m iobuf fd 0x07#32 [.strncpy 0x04 path 0x27F, .word 0x284 flags]

def fsaOpenDir (path : Word) : Mem × Call :=
  iosIoctl m iobuf fd 0x0A#32 [.strncpy 0x04 path 0x27F]

def fsaReadDir (handle : Word) : Mem × Call :=
  iosIoctl m iobuf fd 0x0B#32 [.word 0x04 handle]

def fsaCloseDir (handle : Word) : Mem × Call :=
  iosIoctl m iobuf fd 0x0D#32 [.word 0x04 handle]

def fsaOpenFile (path mode : Word) : Mem × Call :=
  iosIoctl m iobuf fd 0x0E#32 [.strncpy 0x04 path 0x27F, .strncpy 0x284 mode 0x10]

/-- `_FSA_ReadWriteFile` -/
def fsaReadWriteFile (data size cnt fileHandle flags : Word) (read : Bool) : Mem × Call :=
  iosIoctlv m iobuf fd (if read then 0x0F#32 else 0x10#32) (if read then 1#32 else 2#32)
    (if read then 2#32 else 1#32)
    [.word 0x08 size, .word 0x0C cnt, .word 0x14 fileHandle, .word 0x18 flags] data (size * cnt)

def fsaReadFile (data size cnt fileHandle flags : Word) : Mem × Call :=
  fsaReadWriteFile m iobuf fd data size cnt fileHandle flags true

def fsaWriteFile (data size cnt fileHandle flags : Word) : Mem × Call :=
  fsaReadWriteFile m iobuf fd data size cnt fileHandle flags false

def fsaGetStat (path : Word) : Mem × Call :=
  iosIoctl m iobuf fd 0x18#32 [.strncpy 0x04 path 0x27F, .word 0x284 5#32]

def fsaCloseFile (fileHandle : Word) : Mem × Call :=
  iosIoctl m iobuf fd 0x15#32 [.word 0x04 fileHandle]

def fsaChangeMode (path mode : Word) : Mem × Call :=
  iosIoctl m iobuf fd 0x20#32 [.strncpy 0x04 path 0x27F, .word 0x284 mode, .word 0x288 0x666#32]

def fsaGetDeviceInfo (devicePath type : Word) : Mem × Call :=
  iosIoctl m iobuf fd 0x18#32 [.strncpy 0x04 devicePath 0x27F, .word 0x284 type]

def fsaGetVolumeInfo (volumePath : Word) : Mem × Call :=
  iosIoctl m iobuf fd 0x03#32 [.strncpy 0x04 volumePath 0x27F]

def fsaRawOpen (devicePath : Word) : Mem × Call :=
  iosIoctl m iobuf fd 0x6A#32 [.strncpy 0x04 devicePath 0x27F]

def fsaRawClose (deviceHandle : Word) : Mem × Call :=
  iosIoctl m iobuf fd 0x6D#32 [.word 0x04 deviceHandle]

def fsaRawRead (data sizeBytes cnt : Word) (blocksOffset : BitVec 64) (deviceHandle : Word) :
    Mem × Call :=
  iosIoctlv m iobuf fd 0x6B#32 1#32 2#32
    [.word 0x08 (blocksOffset.extractLsb' 32 32), .word 0x0C (blocksOffset.extractLsb' 0 32),
      .word 0x10 cnt, .word 0x14 sizeBytes, .word 0x18 deviceHandle] data (sizeBytes * cnt)

def fsaRemove (path : Word) : Mem × Call :=
  iosIoctl m iobuf fd 0x08#32 [.strncpy 0x04 path 0x27F]

end Encoders

open Layout

/-- What the puts are to store, with the strings that stand at their sources. -/
inductive Stores (m : Mem) (iobuf : Word) : List Put → List (Piece Byte) → Prop where
  | nil : Stores m iobuf [] []
  | strncpy {puts : List Put} {fields : List (Piece Byte)} (offset n : Nat) (src : Word)
      (s : List Byte) (str : Str m src s) (apart : Apart src (s.length + 1) iobuf iobufBytes)
      (rest : Stores m iobuf puts fields) :
      Stores m iobuf (.strncpy offset src n :: puts) (.text offset n s :: fields)
  | word {puts : List Put} {fields : List (Piece Byte)} (offset : Nat) (w : Word)
      (rest : Stores m iobuf puts fields) :
      Stores m iobuf (.word offset w :: puts) (.data offset (bytes32 w) :: fields)

section Puts

variable (m : Mem) (iobuf fd : Word)

/-- `m'` differs from `m` in `iobuf` only. -/
def Framed (m' : Mem) : Prop :=
  ∀ x, (∀ i < iobufBytes, x ≠ iobuf + BitVec.ofNat 32 i) → m' x = m x

theorem Framed.str {m' : Mem} (framed : Framed m iobuf m') (src : Word) (s : List Byte)
    (str : Str m src s) (apart : Apart src (s.length + 1) iobuf iobufBytes) : Str m' src s := by
  apply Str.congr str
  intro i inside
  exact framed _ fun j within => apart i (by omega) j within

theorem Framed.store {m' : Mem} (framed : Framed m iobuf m') (offset : Nat) (bytes : List Byte)
    (fits : offset + bytes.length ≤ iobufBytes) :
    Framed m iobuf (store m' (iobuf + BitVec.ofNat 32 offset) bytes) := by
  intro x outside
  rw [store_outside, framed x outside]
  apply Nat.le_of_not_lt
  intro inside
  apply outside (offset + (x - (iobuf + BitVec.ofNat 32 offset)).toNat) (by omega)
  rw [← ofNat_add_ofNat]
  bv_omega

theorem Framed.strncpy {m' : Mem} (framed : Framed m iobuf m') (offset n : Nat) (src : Word)
    (fits : offset + n ≤ iobufBytes) :
    Framed m iobuf (strncpy m' (iobuf + BitVec.ofNat 32 offset) src n) := by
  intro x outside
  rw [strncpy_outside, framed x outside]
  intro i inside
  rw [ofNat_add_ofNat]
  exact outside (offset + i) (by omega)

theorem allocIobuf_framed : Framed m iobuf (allocIobuf m iobuf) := by
  have unchanged : Framed m iobuf m := fun _ _ => rfl
  have framed := unchanged.store m iobuf 0 (List.replicate iobufBytes 0#8) (by simp)
  rwa [BitVec.add_zero] at framed

theorem puts_hold {puts : List Put} {fields : List (Piece Byte)}
    (stores : Stores m iobuf puts fields)
    (low : Nat) (ordered : Ordered requestBytes low fields) (m' : Mem) (f : Nat → Byte)
    (framed : Framed m iobuf m') (holds : Holds m' iobuf iobufBytes f) :
    Holds (puts.foldl (put iobuf) m') iobuf iobufBytes (fields.foldl (Piece.bounded 0#8) f) := by
  induction stores generalizing low m' f with
  | nil => exact holds
  | strncpy offset n src s str apart rest ih =>
      obtain ⟨-, stop, ordered⟩ := ordered
      have fits : offset + n ≤ iobufBytes := by
        simp only [Piece.stop, requestBytes, iobufBytes] at stop ⊢
        omega
      refine ih _ ordered _ _ (framed.strncpy m iobuf offset n src fits) ?_
      exact holds.strncpy (by decide) offset n fits src s (framed.str m iobuf src s str apart) apart
  | word offset w rest ih =>
      obtain ⟨-, stop, ordered⟩ := ordered
      have fits : offset + (bytes32 w).length ≤ iobufBytes := Nat.le_trans stop (by decide)
      refine ih _ ordered _ _ (framed.store m iobuf offset _ fits) ?_
      exact holds.store (by decide) offset _ fits

theorem fill_holds {puts : List Put} {fields : List (Piece Byte)}
    (stores : Stores m iobuf puts fields)
    (ordered : Ordered requestBytes 0 fields) :
    Holds (fill m iobuf puts) iobuf iobufBytes
      (fields.foldl (Piece.bounded 0#8) fun _ => 0#8) :=
  puts_hold m iobuf stores 0 ordered _ _ (allocIobuf_framed m iobuf)
    (store_zeros m iobuf iobufBytes (by decide))

theorem iosIoctl_submission (request : Word) {puts : List Put} {fields : List (Piece Byte)}
    (stores : Stores m iobuf puts fields) (ordered : Ordered requestBytes 0 fields) :
    (iosIoctl m iobuf fd request puts).2.submission (iosIoctl m iobuf fd request puts).1 =
      ⟨false, fd, request, [0x520#32], [0x293#32],
        (List.range requestBytes).map (fields.foldl (Piece.bounded 0#8) fun _ => 0#8)⟩ := by
  have holds := fill_holds m iobuf stores ordered
  have block : Holds (fill m iobuf puts) iobuf requestBytes _ := fun i inside =>
    holds i (Nat.lt_trans inside (by decide))
  simp only [iosIoctl, Call.submission, block.load]

end Puts

section Vectors

variable (m : Mem) (iobuf fd request numIn numOut : Word) (puts : List Put) (ptr len : Word)

theorem iosIoctlv_ptr :
    iovecPtr (iosIoctlv m iobuf fd request numIn numOut puts ptr len).1 (iobuf + 0x7C0#32) 0 =
      iobuf := by
  simp (disch := decide) [iosIoctlv, iovecPtr, read_write_offset]

theorem iosIoctlv_len (i : Nat) (inside : i < 3) :
    iovecLen (iosIoctlv m iobuf fd request numIn numOut puts ptr len).1 (iobuf + 0x7C0#32) i =
      [0x520#32, len, 0x293#32][i] := by
  match i, inside with
  | 0, _ => simp (disch := decide) [iosIoctlv, iovecLen, BitVec.add_assoc, read_write_offset]
  | 1, _ =>
      simp (disch := decide) [iosIoctlv, iovecLen, iovecBytes, BitVec.add_assoc, read_write_offset]
  | 2, _ => simp (disch := decide) [iosIoctlv, iovecLen, iovecBytes, BitVec.add_assoc]

/-- The vectors lie behind the request. -/
theorem iosIoctlv_block :
    Same (fill m iobuf puts) (iosIoctlv m iobuf fd request numIn numOut puts ptr len).1 iobuf
      requestBytes := by
  have kept : ∀ (m : Mem) (offset : Nat) (w : Word), requestBytes ≤ offset →
      offset + 4 ≤ iobufBytes →
      Same m (write32 m (iobuf + BitVec.ofNat 32 offset) w) iobuf requestBytes := by
    intro m offset w lower upper
    apply write32_apart
    have apart := apart_offsets iobuf 0 offset requestBytes 4 (by decide)
      (Nat.le_trans upper (by decide)) (Or.inl (by omega))
    rwa [BitVec.add_zero] at apart
  refine Same.trans ?_ (kept _ 0x7DC _ (by decide) (by decide))
  refine Same.trans ?_ (kept _ 0x7D8 _ (by decide) (by decide))
  refine Same.trans ?_ (kept _ 0x7D0 _ (by decide) (by decide))
  refine Same.trans ?_ (kept _ 0x7CC _ (by decide) (by decide))
  refine Same.trans ?_ (kept _ 0x7C4 _ (by decide) (by decide))
  exact kept _ 0x7C0 _ (by decide) (by decide)

theorem iosIoctlv_submission (sizes : numIn.toNat + numOut.toNat = 3) {puts : List Put}
    {fields : List (Piece Byte)} (stores : Stores m iobuf puts fields)
    (ordered : Ordered requestBytes 0 fields) :
    (iosIoctlv m iobuf fd request numIn numOut puts ptr len).2.submission
        (iosIoctlv m iobuf fd request numIn numOut puts ptr len).1 =
      ⟨true, fd, request, [0x520#32, len, 0x293#32].take numIn.toNat,
        [0x520#32, len, 0x293#32].drop numIn.toNat,
        (List.range requestBytes).map (fields.foldl (Piece.bounded 0#8) fun _ => 0#8)⟩ := by
  have holds := fill_holds m iobuf stores ordered
  have block : Holds (fill m iobuf puts) iobuf requestBytes _ := fun i inside =>
    holds i (Nat.lt_trans inside (by decide))
  have ptr_eq := iosIoctlv_ptr m iobuf fd request numIn numOut puts ptr len
  have len_eq := iosIoctlv_len m iobuf fd request numIn numOut puts ptr len
  have same := iosIoctlv_block m iobuf fd request numIn numOut puts ptr len
  simp only [show (iosIoctlv m iobuf fd request numIn numOut puts ptr len).2 =
    .ioctlv fd request numIn numOut (iobuf + 0x7C0#32) from rfl, Call.submission, ptr_eq,
    same.load, block.load]
  congr 1
  · apply List.ext_getElem
    · simp only [List.length_map, List.length_range, List.length_take, List.length_cons,
        List.length_nil]
      omega
    · intro i inside _
      rw [List.length_map, List.length_range] at inside
      rw [List.getElem_map, List.getElem_range, len_eq i (by omega), List.getElem_take]
  · apply List.ext_getElem
    · simp only [List.length_map, List.length_range, List.length_drop, List.length_cons,
        List.length_nil]
      omega
    · intro i inside _
      rw [List.length_map, List.length_range] at inside
      rw [List.getElem_map, List.getElem_range, len_eq _ (by omega), List.getElem_drop]

end Vectors

end Stroopwafel.Fsa
