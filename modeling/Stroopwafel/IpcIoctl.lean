import Stroopwafel.Prsh

set_option autoImplicit false

namespace Stroopwafel.Ipc

open Memory CString Prsh

abbrev iosErrorInvalidArg : Word := 0xFFFFFFE3#32

abbrev slash : Byte := 0x2F#8

/-- `sizeof(fw_img_path_buffer)` and `sizeof(fw_img_filename_buffer)` -/
abbrev pathBufferBytes : Nat := 256
abbrev filenameBufferBytes : Nat := 32

/-- Where the linker puts the two buffers for the path of `fw.img`. -/
structure Buffers where
  fwImgPathBuffer : Word
  fwImgFilenameBuffer : Word

def Buffers.Apart (buf : Buffers) : Prop :=
  Memory.Apart buf.fwImgPathBuffer pathBufferBytes buf.fwImgFilenameBuffer filenameBufferBytes

/-- The copy into `fw_img_filename_buffer`, cut to what the buffer holds. -/
def copyFilename (buf : Buffers) (m : Mem) (src : Word) : Mem :=
  store (strncpy m buf.fwImgFilenameBuffer src (filenameBufferBytes - 1))
    (buf.fwImgFilenameBuffer + BitVec.ofNat 32 (filenameBufferBytes - 1)) [0#8]

/-- `IOCTL_SET_FW_PATH`. The directory is copied up to the last slash, however long it is. -/
def ioctlSetFwPath (buf : Buffers) (m : Mem) (bufferIn : Word) : Mem :=
  if bufferIn = 0#32 then m
  else
    match strrchr m bufferIn slash with
    | some lastSlash =>
        let pathLen := lastSlash - bufferIn
        let m := strncpy m buf.fwImgPathBuffer bufferIn pathLen.toNat
        let m := store m (buf.fwImgPathBuffer + pathLen) [0#8]
        copyFilename buf m (lastSlash + 1#32)
    | none => store (copyFilename buf m bufferIn) buf.fwImgPathBuffer [0#8]

section SetFwPath

/-- The address is none of the `n` from `a` on. -/
def Beyond (x a : Word) (n : Nat) : Prop := ∀ i < n, x ≠ a + BitVec.ofNat 32 i

/-- The command stores the two parts of `s`, and nothing else. -/
structure Splits (buf : Buffers) (m m' : Mem) (s : List Byte) : Prop where
  frame : ∀ x, Beyond x buf.fwImgPathBuffer pathBufferBytes →
    Beyond x buf.fwImgFilenameBuffer filenameBufferBytes → m' x = m x
  pathTerminated : ∃ i < pathBufferBytes, m' (buf.fwImgPathBuffer + BitVec.ofNat 32 i) = 0#8
  filenameTerminated : ∃ i < filenameBufferBytes,
    m' (buf.fwImgFilenameBuffer + BitVec.ofNat 32 i) = 0#8
  parts : ∀ dir base, s = dir ++ slash :: base → slash ∉ base → dir.length < pathBufferBytes →
    base.length < filenameBufferBytes →
    Str m' buf.fwImgPathBuffer dir ∧ Str m' buf.fwImgFilenameBuffer base
  whole : slash ∉ s → s.length < filenameBufferBytes →
    Str m' buf.fwImgPathBuffer [] ∧ Str m' buf.fwImgFilenameBuffer s

variable (buf : Buffers) (m : Mem) (src : Word)

theorem store_beyond (x : Word) {a : Word} {bytes : List Byte}
    (beyond : Beyond x a bytes.length) : store m a bytes x = m x := by
  apply store_outside
  apply Nat.le_of_not_lt
  intro inside
  apply beyond _ inside
  rw [BitVec.ofNat_toNat, BitVec.setWidth_eq]
  bv_omega

theorem copyFilename_outside (x : Word)
    (outside : Beyond x buf.fwImgFilenameBuffer filenameBufferBytes) :
    copyFilename buf m src x = m x := by
  rw [copyFilename, store_byte, if_neg (outside _ (by decide)), strncpy_outside]
  intro i inside
  exact outside i (Nat.lt_trans inside (by decide))

theorem copyFilename_terminated :
    copyFilename buf m src
      (buf.fwImgFilenameBuffer + BitVec.ofNat 32 (filenameBufferBytes - 1)) = 0#8 := by
  rw [copyFilename, store_byte, if_pos rfl]

/-- A name that fits is copied whole. -/
theorem copyFilename_str (s : List Byte) (str : Str m src s)
    (apart : Apart src (s.length + 1) buf.fwImgFilenameBuffer filenameBufferBytes)
    (fits : s.length < filenameBufferBytes) :
    Str (copyFilename buf m src) buf.fwImgFilenameBuffer s := by
  have copied : ∀ i < filenameBufferBytes - 1,
      copyFilename buf m src (buf.fwImgFilenameBuffer + BitVec.ofNat 32 i) = s.getD i 0#8 := by
    intro i inside
    have before : buf.fwImgFilenameBuffer + BitVec.ofNat 32 i ≠
        buf.fwImgFilenameBuffer + BitVec.ofNat 32 (filenameBufferBytes - 1) := by
      simp only [filenameBufferBytes] at inside ⊢
      bv_omega
    rw [copyFilename, store_byte, if_neg before]
    exact strncpy_str m _ src _ s str (by decide)
      (apart.mono (Nat.le_refl _) (Nat.sub_le _ _)) i inside
  refine ⟨?_, ?_, str.nonzero, str.bound⟩
  · intro i inside
    rw [copied i (by omega), List.getD_eq_getElem?_getD, List.getElem?_eq_getElem inside]
    rfl
  · by_cases full : s.length = filenameBufferBytes - 1
    · rw [full]
      exact copyFilename_terminated buf m src
    · rw [copied s.length (by omega), List.getD_eq_getElem?_getD,
        List.getElem?_eq_none (Nat.le_refl _)]
      rfl

section Split

variable {dir base : List Byte}

/-- The copy of the directory, with its terminator. -/
def copyPath (pathLen : Word) : Mem :=
  store (strncpy m buf.fwImgPathBuffer src pathLen.toNat) (buf.fwImgPathBuffer + pathLen) [0#8]

theorem ioctlSetFwPath_split (present : src ≠ 0#32) (str : Str m src (dir ++ slash :: base))
    (last : slash ∉ base) :
    ioctlSetFwPath buf m src =
      copyFilename buf (copyPath buf m src (BitVec.ofNat 32 dir.length))
        (src + BitVec.ofNat 32 (dir.length + 1)) := by
  have found := strrchr_last (by decide) src dir base str last
  have pathLen : src + BitVec.ofNat 32 dir.length - src = BitVec.ofNat 32 dir.length := by
    rw [BitVec.add_comm, BitVec.add_sub_cancel]
  simp only [ioctlSetFwPath, if_neg present, found, pathLen, copyPath]
  rw [show (1#32 : Word) = BitVec.ofNat 32 1 from rfl, ofNat_add_ofNat]

theorem ioctlSetFwPath_whole (present : src ≠ 0#32) (s : List Byte) (str : Str m src s)
    (absent : slash ∉ s) :
    ioctlSetFwPath buf m src = store (copyFilename buf m src) buf.fwImgPathBuffer [0#8] := by
  have found := strrchr_absent (by decide) src s str absent
  simp only [ioctlSetFwPath, if_neg present, found]

theorem length_toNat (str : Str m src (dir ++ slash :: base)) :
    (BitVec.ofNat 32 dir.length).toNat = dir.length := by
  have length := str.bound
  rw [List.length_append] at length
  rw [BitVec.toNat_ofNat, Nat.mod_eq_of_lt (by omega)]

theorem copyPath_outside (str : Str m src (dir ++ slash :: base))
    (fits : dir.length < pathBufferBytes) (x : Word)
    (outside : Beyond x buf.fwImgPathBuffer pathBufferBytes) :
    copyPath buf m src (BitVec.ofNat 32 dir.length) x = m x := by
  rw [copyPath, store_byte, if_neg (outside _ fits), length_toNat m src str, strncpy_outside]
  intro i inside
  exact outside i (Nat.lt_trans inside fits)

/-- A directory that fits is copied whole. -/
theorem copyPath_str (str : Str m src (dir ++ slash :: base))
    (fits : dir.length < pathBufferBytes)
    (apart : Memory.Apart src (dir.length + 1) buf.fwImgPathBuffer pathBufferBytes) :
    Str (copyPath buf m src (BitVec.ofNat 32 dir.length)) buf.fwImgPathBuffer dir := by
  have length := str.bound
  rw [List.length_append] at length
  refine ⟨?_, ?_, fun member => str.nonzero (List.mem_append_left _ member), by omega⟩
  · intro i inside
    have before : buf.fwImgPathBuffer + BitVec.ofNat 32 i ≠
        buf.fwImgPathBuffer + BitVec.ofNat 32 dir.length := by
      bv_omega
    rw [copyPath, store_byte, if_neg before, length_toNat m src str,
      strncpy_copied m _ src dir.length dir.length (Nat.le_refl _) (by omega)
        (apart.mono (Nat.le_succ _) (Nat.le_of_lt fits)) _ i inside]
    · rw [str.char i (by rw [List.length_append]; omega), List.getElem_append_left inside]
    · intro j before
      exact str.char_nonzero j (by rw [List.length_append]; omega)
  · rw [copyPath, store_byte, if_pos rfl]

/-- A longer one leaves no terminator in the buffer. -/
theorem copyPath_unterminated (str : Str m src (dir ++ slash :: base))
    (long : pathBufferBytes ≤ dir.length)
    (apart : Memory.Apart src (dir.length + 1) buf.fwImgPathBuffer pathBufferBytes) (i : Nat)
    (inside : i < pathBufferBytes) :
    copyPath buf m src (BitVec.ofNat 32 dir.length) (buf.fwImgPathBuffer + BitVec.ofNat 32 i) ≠
      0#8 := by
  have length := str.bound
  rw [List.length_append] at length
  have nonzero : ∀ j < pathBufferBytes, m (src + BitVec.ofNat 32 j) ≠ 0#8 := by
    intro j before
    exact str.char_nonzero j (by rw [List.length_append]; omega)
  have before : buf.fwImgPathBuffer + BitVec.ofNat 32 i ≠
      buf.fwImgPathBuffer + BitVec.ofNat 32 dir.length := by
    simp only [pathBufferBytes] at inside long
    bv_omega
  rw [copyPath, store_byte, if_neg before, length_toNat m src str,
    strncpy_copied m _ src dir.length pathBufferBytes long (by omega)
      (apart.mono (by omega) (Nat.le_refl _)) nonzero i inside]
  exact nonzero i inside

end Split

/-- An input without a slash is a file name. -/
theorem ioctlSetFwPath_whole_splits (buffers : buf.Apart) (present : src ≠ 0#32) (s : List Byte)
    (str : Str m src s)
    (apart : Memory.Apart src (s.length + 1) buf.fwImgFilenameBuffer filenameBufferBytes)
    (absent : slash ∉ s) : Splits buf m (ioctlSetFwPath buf m src) s := by
  rw [ioctlSetFwPath_whole buf m src present s str absent]
  have kept : ∀ i < filenameBufferBytes,
      store (copyFilename buf m src) buf.fwImgPathBuffer [0#8]
          (buf.fwImgFilenameBuffer + BitVec.ofNat 32 i) =
        copyFilename buf m src (buf.fwImgFilenameBuffer + BitVec.ofNat 32 i) := by
    intro i inside
    have distinct := buffers 0 (by decide) i inside
    rw [BitVec.add_zero] at distinct
    rw [store_byte, if_neg distinct.symm]
  have first : store (copyFilename buf m src) buf.fwImgPathBuffer [0#8] buf.fwImgPathBuffer =
      0#8 := by
    rw [store_byte, if_pos rfl]
  refine ⟨?_, ⟨0, by decide, by rwa [BitVec.add_zero]⟩, ⟨filenameBufferBytes - 1, by decide, ?_⟩,
    ?_, ?_⟩
  · intro x outsidePath outsideFilename
    have distinct := outsidePath 0 (by decide)
    rw [BitVec.add_zero] at distinct
    rw [store_byte, if_neg distinct, copyFilename_outside buf m src x outsideFilename]
  · rw [kept _ (by decide)]
    exact copyFilename_terminated buf m src
  · intro dir base split
    exact absurd (split ▸ List.mem_append_right dir (List.mem_cons_self)) absent
  · intro _ fits
    refine ⟨Str.empty first, ?_⟩
    apply (copyFilename_str buf m src s str apart fits).congr
    intro i inside
    exact kept i (by omega)

/-- A string is cut at its last slash in one way. -/
theorem last_slash_unique {dir base dir' base' : List Byte} (last : slash ∉ base)
    (last' : slash ∉ base') (same : dir ++ slash :: base = dir' ++ slash :: base') :
    dir = dir' ∧ base = base' := by
  rcases List.append_eq_append_iff.mp same with ⟨mid, front, back⟩ | ⟨mid, front, back⟩
  · cases mid with
    | nil => simp_all
    | cons c mid =>
        have member : slash ∈ base := by
          rw [List.cons_append, List.cons.injEq] at back
          rw [back.2]
          simp
        exact absurd member last
  · cases mid with
    | nil => simp_all
    | cons c mid =>
        have member : slash ∈ base' := by
          rw [List.cons_append, List.cons.injEq] at back
          rw [back.2]
          simp
        exact absurd member last'

theorem exists_last_slash {s : List Byte} (member : slash ∈ s) :
    ∃ dir base, s = dir ++ slash :: base ∧ slash ∉ base := by
  obtain ⟨front, back, reversed, absent⟩ :=
    List.eq_append_cons_of_mem (List.mem_reverse.mpr member)
  refine ⟨back.reverse, front.reverse, ?_, fun last => absent (List.mem_reverse.mp last)⟩
  have forward := congrArg List.reverse reversed
  rwa [List.reverse_reverse, List.reverse_append, List.reverse_cons, List.append_assoc] at forward

/-- An input with a slash is split when its directory fits. -/
theorem ioctlSetFwPath_split_splits (buffers : buf.Apart) (present : src ≠ 0#32)
    (dir base : List Byte) (str : Str m src (dir ++ slash :: base)) (last : slash ∉ base)
    (apartPath : Memory.Apart src ((dir ++ slash :: base).length + 1) buf.fwImgPathBuffer
      pathBufferBytes)
    (apartFilename : Memory.Apart src ((dir ++ slash :: base).length + 1) buf.fwImgFilenameBuffer
      filenameBufferBytes)
    (fits : dir.length < pathBufferBytes) :
    Splits buf m (ioctlSetFwPath buf m src) (dir ++ slash :: base) := by
  rw [ioctlSetFwPath_split buf m src present str last]
  rw [List.length_append, List.length_cons] at apartPath apartFilename
  have beyondFilename : ∀ i < pathBufferBytes,
      Beyond (buf.fwImgPathBuffer + BitVec.ofNat 32 i) buf.fwImgFilenameBuffer
        filenameBufferBytes :=
    fun i inside j inside' => buffers i inside j inside'
  have directory := copyPath_str buf m src str fits (apartPath.mono (by omega) (Nat.le_refl _))
  have kept : ∀ x, Beyond x buf.fwImgPathBuffer pathBufferBytes →
      copyPath buf m src (BitVec.ofNat 32 dir.length) x = m x :=
    fun x outside => copyPath_outside buf m src str fits x outside
  generalize copyPath buf m src (BitVec.ofNat 32 dir.length) = copied at directory kept
  have stored : Str (copyFilename buf copied (src + BitVec.ofNat 32 (dir.length + 1)))
      buf.fwImgPathBuffer dir := by
    apply directory.congr
    intro i inside
    exact copyFilename_outside buf _ _ _ (beyondFilename i (by omega))
  refine ⟨?_, ⟨dir.length, fits, stored.terminated⟩,
    ⟨_, by decide, copyFilename_terminated buf _ _⟩, ?_, ?_⟩
  · intro x outsidePath outsideFilename
    rw [copyFilename_outside buf _ _ x outsideFilename, kept x outsidePath]
  · intro dir' base' same last' _ fits'
    obtain ⟨rfl, rfl⟩ := last_slash_unique last last' same
    refine ⟨stored, copyFilename_str buf _ _ base ?_ ?_ fits'⟩
    · have tail : Str m (src + BitVec.ofNat 32 (dir.length + 1)) base := by
        rw [← ofNat_add_ofNat]
        exact Str.tail (str.drop dir)
      apply tail.congr
      intro i inside
      apply kept
      intro j inside'
      rw [ofNat_add_ofNat]
      exact apartPath _ (by omega) j inside'
    · exact apartFilename.sub (dir.length + 1) (by omega)
  · intro absent
    exact absurd (List.mem_append_right dir (List.mem_cons_self)) absent

/-- The command splits its input exactly when the directory fits its buffer. -/
theorem ioctlSetFwPath_splits_iff (buffers : buf.Apart) (present : src ≠ 0#32) (s : List Byte)
    (str : Str m src s)
    (apartPath : Memory.Apart src (s.length + 1) buf.fwImgPathBuffer pathBufferBytes)
    (apartFilename : Memory.Apart src (s.length + 1) buf.fwImgFilenameBuffer
      filenameBufferBytes) :
    Splits buf m (ioctlSetFwPath buf m src) s ↔
      ∀ dir base, s = dir ++ slash :: base → slash ∉ base → dir.length < pathBufferBytes := by
  constructor
  · rintro splits dir base rfl last
    apply Nat.lt_of_not_le
    intro long
    obtain ⟨i, inside, zero⟩ := splits.pathTerminated
    rw [ioctlSetFwPath_split buf m src present str last,
      copyFilename_outside buf _ _ _ (fun j inside' => buffers i inside j inside')] at zero
    refine copyPath_unterminated buf m src str long (apartPath.mono ?_ (Nat.le_refl _)) i inside
      zero
    rw [List.length_append]
    omega
  · intro fits
    by_cases member : slash ∈ s
    · obtain ⟨dir, base, rfl, last⟩ := exists_last_slash member
      exact ioctlSetFwPath_split_splits buf m src buffers present dir base str last apartPath
        apartFilename (fits dir base rfl last)
    · exact ioctlSetFwPath_whole_splits buf m src buffers present s str apartFilename member

/-- A plain path of two parts, at 0x08000000. -/
def pathSample : Mem := store (fun _ => 0#8) 0x08000000#32 (chars "/vol/fw.img".toList)

def bufferSample : Buffers := ⟨0x05100000#32, 0x05100100#32⟩

theorem bufferSample_apart : bufferSample.Apart :=
  apart_of_distance (by decide) (by decide)

theorem pathSample_str : Str pathSample 0x08000000#32 (chars "/vol/fw.img".toList) := by
  refine ⟨?_, by decide +kernel, by decide, by decide⟩
  intro i inside
  exact store_inside _ _ _ i inside (by decide)

theorem ioctlSetFwPath_splits_iff_sample :
    Splits bufferSample pathSample (ioctlSetFwPath bufferSample pathSample 0x08000000#32)
        (chars "/vol/fw.img".toList) ↔
      ∀ dir base, chars "/vol/fw.img".toList = dir ++ slash :: base → slash ∉ base →
        dir.length < pathBufferBytes :=
  ioctlSetFwPath_splits_iff bufferSample pathSample 0x08000000#32 bufferSample_apart (by decide)
    _ pathSample_str (apart_of_distance (by decide) (by decide))
    (apart_of_distance (by decide) (by decide))

/-- A directory of 256 characters, one more than the buffer has room for. -/
def longPath : List Byte := List.replicate 256 0x61#8 ++ slash :: [0x78#8]

theorem longPath_length : longPath.length = 258 := by
  rw [longPath, List.length_append, List.length_replicate]
  rfl

theorem longPath_nonzero : 0#8 ∉ longPath := by
  rw [longPath, List.mem_append, List.mem_replicate]
  decide

theorem longPath_str :
    Str (store (fun _ => 0#8) 0x08000000#32 longPath) 0x08000000#32 longPath := by
  refine ⟨?_, ?_, longPath_nonzero, by rw [longPath_length]; decide⟩
  · intro i inside
    exact store_inside _ _ _ i inside (by rw [longPath_length]; decide)
  · apply store_outside
    rw [longPath_length]
    decide

theorem ioctlSetFwPath_overflows :
    ¬ Splits bufferSample (store (fun _ => 0#8) 0x08000000#32 longPath)
      (ioctlSetFwPath bufferSample (store (fun _ => 0#8) 0x08000000#32 longPath) 0x08000000#32)
      longPath := by
  rintro splits
  obtain ⟨i, inside, zero⟩ := splits.pathTerminated
  have last : slash ∉ [0x78#8] := by decide
  rw [ioctlSetFwPath_split bufferSample _ _ (by decide) longPath_str last,
    copyFilename_outside bufferSample _ _ _
      (fun j inside' => bufferSample_apart i inside j inside')] at zero
  refine copyPath_unterminated bufferSample _ _ longPath_str ?_ ?_ i inside zero
  · exact Nat.le_of_eq List.length_replicate.symm
  · rw [List.length_replicate]
    exact apart_of_distance (by decide) (by decide)

end SetFwPath

end Stroopwafel.Ipc
