import Stroopwafel.Wupclient

set_option autoImplicit false

namespace Stroopwafel.Fsa

open Memory CString Layout Wupclient

/-- The commands that both libraries know, with the arguments of both. -/
inductive Command where
  | mount (devicePath volumePath : List Char) (flags : Word)
  | flushVolume (volume : List Char)
  | getVolumeInfo (volumePath : List Char)
  | makeDir (path : List Char) (flags : Word)
  | openDir (path : List Char)
  | readDir (handle : Word)
  | closeDir (handle : Word)
  | openFile (path mode : List Char)
  | readFile (size cnt fileHandle : Word)
  | writeFile (fileHandle : Word) (data : List Byte)
  | closeFile (fileHandle : Word)
  | getStat (path : List Char)
  | getDeviceInfo (devicePath : List Char)
  | changeMode (path : List Char) (permission : Word)
  | remove (path : List Char)
  | rawOpen (devicePath : List Char)
  | rawRead (size cnt : Word) (offset : BitVec 64) (deviceHandle : Word)
  | rawClose (deviceHandle : Word)

namespace Command

/-- The strings that C gets by their addresses. -/
def strings : Command → Option (List Char) × Option (List Char)
  | mount devicePath volumePath _ => (some devicePath, some volumePath)
  | openFile path mode => (some path, some mode)
  | flushVolume path | getVolumeInfo path | makeDir path _ | openDir path | getStat path
  | getDeviceInfo path | changeMode path _ | remove path | rawOpen path => (some path, none)
  | _ => (none, none)

/-- `first` and `second` are the addresses of the strings, `data` that of the buffer. -/
def submitC (m : Mem) (iobuf fd first second data : Word) : Command → Mem × Call
  | mount _ _ flags => fsaMount m iobuf fd first second flags 0#32 0#32
  | flushVolume _ => fsaFlushVolume m iobuf fd first
  | getVolumeInfo _ => fsaGetVolumeInfo m iobuf fd first
  | makeDir _ flags => fsaMakeDir m iobuf fd first flags
  | openDir _ => fsaOpenDir m iobuf fd first
  | readDir handle => fsaReadDir m iobuf fd handle
  | closeDir handle => fsaCloseDir m iobuf fd handle
  | openFile _ _ => fsaOpenFile m iobuf fd first second
  | readFile size cnt fileHandle => fsaReadFile m iobuf fd data size cnt fileHandle 0#32
  | writeFile fileHandle bytes =>
      fsaWriteFile m iobuf fd data 1#32 (BitVec.ofNat 32 bytes.length) fileHandle 0#32
  | closeFile fileHandle => fsaCloseFile m iobuf fd fileHandle
  | getStat _ => fsaGetStat m iobuf fd first
  | getDeviceInfo _ => fsaGetDeviceInfo m iobuf fd first 4#32
  | changeMode _ permission => fsaChangeMode m iobuf fd first permission
  | remove _ => fsaRemove m iobuf fd first
  | rawOpen _ => fsaRawOpen m iobuf fd first
  | rawRead size cnt offset deviceHandle =>
      fsaRawRead m iobuf fd data size cnt offset deviceHandle
  | rawClose deviceHandle => fsaRawClose m iobuf fd deviceHandle

def submitPython (heap : Nat → Word) (console : Console) (handle : Nat) :
    Command → Except Error Submitted
  | mount devicePath volumePath flags =>
      Wupclient.fsaMount heap console handle devicePath volumePath flags.toNat
  | flushVolume volume => Wupclient.fsaFlushVolume heap console handle volume
  | getVolumeInfo volumePath => Wupclient.fsaGetVolumeInfo volumePath
  | makeDir path flags => Wupclient.fsaMakeDir heap console handle path flags.toNat
  | openDir path => Wupclient.fsaOpenDir heap console handle path
  | readDir dirHandle => Wupclient.fsaReadDir heap console handle dirHandle.toNat
  | closeDir dirHandle => Wupclient.fsaCloseDir heap console handle dirHandle.toNat
  | openFile path mode => Wupclient.fsaOpenFile heap console handle path mode
  | readFile size cnt fileHandle =>
      Wupclient.fsaReadFile heap console handle fileHandle.toNat size.toNat cnt.toNat
  | writeFile fileHandle bytes =>
      Wupclient.fsaWriteFile heap console handle fileHandle.toNat bytes
  | closeFile fileHandle => Wupclient.fsaCloseFile heap console handle fileHandle.toNat
  | getStat path => Wupclient.fsaGetStat heap console handle path
  | getDeviceInfo devicePath => Wupclient.fsaGetDeviceInfo heap console handle devicePath
  | changeMode path permission =>
      Wupclient.fsaChangeMode heap console handle path permission.toNat
  | remove path => Wupclient.fsaRemove heap console handle path
  | rawOpen devicePath => Wupclient.fsaRawOpen heap console handle devicePath
  | rawRead size cnt offset deviceHandle =>
      Wupclient.fsaRawRead heap console handle deviceHandle.toNat size.toNat cnt.toNat
        offset.toNat
  | rawClose deviceHandle => Wupclient.fsaRawClose heap console handle deviceHandle.toNat

/-- What Python takes: ASCII strings, sizes of 32 bits, and no long path where it asks. -/
def Accepted (command : Command) : Prop :=
  (∀ s ∈ command.strings.1, s.all (fun c => c.toNat < 128) = true) ∧
  (∀ s ∈ command.strings.2, s.all (fun c => c.toNat < 128) = true) ∧
  match command with
  | readFile size cnt _ => size.toNat * cnt.toNat < 2 ^ 32
  | rawRead size cnt _ _ => size.toNat * cnt.toNat < 2 ^ 32
  | writeFile _ bytes => bytes.length < 2 ^ 32
  | changeMode path _ => path.length ≤ 0x27F
  | _ => True

/-- The strings fit the places that C bounds them by. -/
def Fits : Command → Prop
  | mount devicePath volumePath _ => devicePath.length ≤ 0x27F ∧ volumePath.length ≤ 0x27F
  | openFile path mode => path.length ≤ 0x27F ∧ mode.length ≤ 0x10
  | getVolumeInfo _ => False
  | flushVolume path | makeDir path _ | openDir path | getStat path | getDeviceInfo path
  | changeMode path _ | remove path | rawOpen path => path.length ≤ 0x27F
  | _ => True

end Command

/-- A string at `a` that is not in `iobuf`, if there is one. -/
def Argument (m : Mem) (iobuf a : Word) (string : Option (List Char)) : Prop :=
  ∀ s ∈ string, Str m a (chars s) ∧ Apart a (s.length + 1) iobuf iobufBytes

section Agree

variable (m : Mem) (iobuf fd : Word) (heap : Nat → Word) (console : Console)

theorem Stores.nonzero {puts : List Put} {fields : List (Piece Byte)}
    (stores : Stores m iobuf puts fields) : ∀ field ∈ fields, field.Nonzero 0#8 := by
  induction stores with
  | nil => nofun
  | strncpy offset n src s str apart rest ih =>
      intro field member
      rcases List.mem_cons.mp member with here | there
      · subst here
        exact str.nonzero
      · exact ih field there
  | word offset w rest ih =>
      intro field member
      rcases List.mem_cons.mp member with here | there
      · subst here
        exact True.intro
      · exact ih field there

theorem map_range_inj {α : Type} (n : Nat) (f g : Nat → α)
    (same : (List.range n).map f = (List.range n).map g) (i : Nat) (inside : i < n) :
    f i = g i :=
  List.map_inj_left.mp same i (List.mem_range.mpr inside)

/-- The requests of an `ioctl` agree when their strings fit. -/
theorem ioctl_agrees_iff (request : Word) {puts : List Put} {copies : List Copy}
    {fields : List (Piece Byte)} (stores : Stores m iobuf puts fields)
    (copied : Copies copies fields) (ordered : Ordered requestBytes 0 fields) :
    (∃ r, Wupclient.request heap console fd.toNat request.toNat copies = .ok r ∧
      r.submission = (iosIoctl m iobuf fd request puts).2.submission
        (iosIoctl m iobuf fd request puts).1) ↔ ∀ field ∈ fields, field.Fits := by
  obtain ⟨b, filled_ok, filled⟩ := fill_filled copied ordered
  rw [iosIoctl_submission m iobuf fd request stores ordered]
  constructor
  · rintro ⟨r, ok, same⟩
    rw [Wupclient.request, filled_ok] at ok
    rw [ioctl_submission heap console fd request b 0x293 filled.long (by decide) r ok,
      filled.take] at same
    have blocks := congrArg Submission.block same
    simp only at blocks
    apply (foldl_agree_iff 0#8 requestBytes 0 fields ordered (stores.nonzero m iobuf)).mp
    intro i inside
    exact (map_range_inj requestBytes _ _ blocks i inside).symm
  · intro fits
    have length := filled.exact fits
    obtain ⟨r, ok⟩ := ioctl_ok heap console fd request b 0x293 (by rw [length]; decide)
      (by decide) (by decide)
    refine ⟨r, ?_, ?_⟩
    · rw [Wupclient.request, filled_ok]
      exact ok
    · rw [ioctl_submission heap console fd request b 0x293 filled.long (by decide) r ok,
        filled.take, length, foldl_agree 0#8 _ _ 0 fields ordered (fun _ _ => rfl) fits]

/-- The requests of an `ioctlv`; `clear` are words that C sets to zero and Python leaves. -/
theorem ioctlv_agrees_iff (request numIn numOut ptr len : Word) {puts : List Put}
    {copies : List Copy} {fields clear : List (Piece Byte)}
    (stores : Stores m iobuf puts (fields ++ clear)) (copied : Copies copies fields)
    (ordered : Ordered requestBytes 0 fields) (orderedC : Ordered requestBytes 0 (fields ++ clear))
    (cleared : (fields ++ clear).foldl (Piece.bounded 0#8) (fun _ => 0#8) =
      fields.foldl (Piece.bounded 0#8) (fun _ => 0#8))
    (inbufs : List (List Byte)) (sizes : List Nat) (three : numIn.toNat + numOut.toNat = 3)
    (ins : [0x520#32, len, 0x293#32].take numIn.toNat =
      0x520#32 :: inbufs.map fun b => BitVec.ofNat 32 b.length)
    (outs : [0x520#32, len, 0x293#32].drop numIn.toNat = sizes.map (BitVec.ofNat 32))
    (boundsIn : ∀ b ∈ inbufs, b.length < 2 ^ 32) (boundsOut : ∀ size ∈ sizes, size < 2 ^ 32)
    (served : ∀ r, (do
        let inbuffer ← Wupclient.fill copies
        ioctlv heap console fd.toNat request.toNat (inbuffer :: inbufs) sizes) = .ok r →
      r.console.Served) :
    (∃ r, (do
        let inbuffer ← Wupclient.fill copies
        ioctlv heap console fd.toNat request.toNat (inbuffer :: inbufs) sizes) = .ok r ∧
      r.submission = (iosIoctlv m iobuf fd request numIn numOut puts ptr len).2.submission
        (iosIoctlv m iobuf fd request numIn numOut puts ptr len).1) ↔
      ∀ field ∈ fields, field.Fits := by
  obtain ⟨b, filled_ok, filled⟩ := fill_filled copied ordered
  have given : ∀ r, ioctlv heap console fd.toNat request.toNat (b :: inbufs) sizes = .ok r →
      r.console.Served :=
    fun r ok => served r ((bind_ok_iff _ _ _).mpr ⟨b, filled_ok, ok⟩)
  have countIn := congrArg List.length ins
  have countOut := congrArg List.length outs
  simp only [List.length_take, List.length_drop, List.length_cons, List.length_nil,
    List.length_map] at countIn countOut
  rw [iosIoctlv_submission m iobuf fd request numIn numOut ptr len three stores orderedC, cleared,
    ins, outs]
  constructor
  · rintro ⟨r, ok, same⟩
    rw [filled_ok] at ok
    rw [ioctlv_submission heap console fd request b inbufs sizes filled.long (by omega) r ok
      (given r ok), filled.take] at same
    have blocks := congrArg Submission.block same
    simp only at blocks
    apply (foldl_agree_iff 0#8 requestBytes 0 fields ordered ?_).mp
    · intro i inside
      exact (map_range_inj requestBytes _ _ blocks i inside).symm
    · exact fun field member => stores.nonzero m iobuf field (List.mem_append_left _ member)
  · intro fits
    have length := filled.exact fits
    obtain ⟨r, ok⟩ := ioctlv_ok heap console fd request (b :: inbufs) sizes
      (by
        intro other member
        rcases List.mem_cons.mp member with here | there
        · rw [here, length]
          decide
        · exact boundsIn other there)
      boundsOut (by rw [List.length_cons]; omega)
    refine ⟨r, ?_, ?_⟩
    · rw [filled_ok]
      exact ok
    · rw [ioctlv_submission heap console fd request b inbufs sizes filled.long (by omega) r ok
        (given r ok), filled.take, List.map_cons, length,
        foldl_agree 0#8 _ _ 0 fields ordered (fun _ _ => rfl) fits]

section Shapes

/-- Words that stand at fixed places of a request. -/
def wordFields (words : List (Nat × Word)) : List (Piece Byte) :=
  words.map fun w => .data w.1 (bytes32 w.2)

theorem words_stored (words : List (Nat × Word)) :
    Stores m iobuf (words.map fun w => .word w.1 w.2) (wordFields words) := by
  induction words with
  | nil => exact .nil
  | cons w rest ih => exact .word w.1 w.2 ih

theorem words_copied (words : List (Nat × Word)) :
    Copies (words.map fun w => .word w.2.toNat w.1) (wordFields words) := by
  induction words with
  | nil => exact .nil
  | cons w rest ih => exact .word w.2.toNat w.2 w.1 rfl ih

theorem words_fit (words : List (Nat × Word)) : ∀ field ∈ wordFields words, field.Fits := by
  intro field member
  obtain ⟨w, -, here⟩ := List.mem_map.mp member
  subst here
  exact True.intro

theorem chars_length (s : List Char) : (chars s).length = s.length := List.length_map ..

/-- A request of words only. -/
theorem words_agree (request : Word) (words : List (Nat × Word))
    (ordered : Ordered requestBytes 0 (wordFields words)) :
    ∃ r, Wupclient.request heap console fd.toNat request.toNat
        (words.map fun w => .word w.2.toNat w.1) = .ok r ∧
      r.submission = (iosIoctl m iobuf fd request (words.map fun w => .word w.1 w.2)).2.submission
        (iosIoctl m iobuf fd request (words.map fun w => .word w.1 w.2)).1 :=
  (ioctl_agrees_iff m iobuf fd heap console request (words_stored m iobuf words)
    (words_copied words) ordered).mpr (words_fit words)

/-- A request of a path and of words behind it. -/
theorem path_agrees_iff (request first : Word) (path : List Char) (words : List (Nat × Word))
    (ascii : path.all (fun c => c.toNat < 128) = true)
    (argument : Argument m iobuf first (some path))
    (ordered : Ordered requestBytes 0x284 (wordFields words)) :
    (∃ r, Wupclient.request heap console fd.toNat request.toNat
        (.string path 0x4 :: words.map fun w => .word w.2.toNat w.1) = .ok r ∧
      r.submission =
        (iosIoctl m iobuf fd request
          (.strncpy 0x4 first 0x27F :: words.map fun w => .word w.1 w.2)).2.submission
        (iosIoctl m iobuf fd request
          (.strncpy 0x4 first 0x27F :: words.map fun w => .word w.1 w.2)).1) ↔
      path.length ≤ 0x27F := by
  obtain ⟨str, apart⟩ := argument path rfl
  rw [← chars_length] at apart
  rw [ioctl_agrees_iff m iobuf fd heap console request
    (.strncpy 0x4 0x27F first (chars path) str apart (words_stored m iobuf words))
    (.string path 0x4 0x27F ascii (words_copied words))
    ⟨Nat.zero_le _, (by decide : 0x284 ≤ requestBytes), ordered⟩]
  constructor
  · intro fits
    rw [← chars_length]
    exact fits _ (List.mem_cons_self ..)
  · intro fits field member
    rcases List.mem_cons.mp member with here | there
    · subst here
      rw [← chars_length] at fits
      exact fits
    · exact words_fit words field there

end Shapes

section Vectored

variable (data : Word)

/-- A request of words by `ioctlv`; the last of the words in C is zero and missing in Python. -/
theorem data_agrees (request numIn numOut ptr len : Word) (words : List (Nat × Word))
    (copies : List Copy) (clear : List (Nat × Word))
    (copied : Copies copies (wordFields words))
    (ordered : Ordered requestBytes 0 (wordFields (words ++ clear)))
    (orderedPython : Ordered requestBytes 0 (wordFields words))
    (cleared : (wordFields (words ++ clear)).foldl (Piece.bounded 0#8) (fun _ => 0#8) =
      (wordFields words).foldl (Piece.bounded 0#8) (fun _ => 0#8))
    (inbufs : List (List Byte)) (sizes : List Nat) (three : numIn.toNat + numOut.toNat = 3)
    (ins : [0x520#32, len, 0x293#32].take numIn.toNat =
      0x520#32 :: inbufs.map fun b => BitVec.ofNat 32 b.length)
    (outs : [0x520#32, len, 0x293#32].drop numIn.toNat = sizes.map (BitVec.ofNat 32))
    (boundsIn : ∀ b ∈ inbufs, b.length < 2 ^ 32) (boundsOut : ∀ size ∈ sizes, size < 2 ^ 32)
    (served : ∀ r, (do
        let inbuffer ← Wupclient.fill copies
        ioctlv heap console fd.toNat request.toNat (inbuffer :: inbufs) sizes) = .ok r →
      r.console.Served) :
    ∃ r, (do
        let inbuffer ← Wupclient.fill copies
        ioctlv heap console fd.toNat request.toNat (inbuffer :: inbufs) sizes) = .ok r ∧
      r.submission =
        (iosIoctlv m iobuf fd request numIn numOut ((words ++ clear).map fun w => .word w.1 w.2)
          ptr len).2.submission
        (iosIoctlv m iobuf fd request numIn numOut ((words ++ clear).map fun w => .word w.1 w.2)
          ptr len).1 := by
  have stores := words_stored m iobuf (words ++ clear)
  have parts : wordFields (words ++ clear) = wordFields words ++ wordFields clear :=
    List.map_append
  rw [parts] at stores ordered cleared
  exact (ioctlv_agrees_iff m iobuf fd heap console request numIn numOut ptr len stores copied
    orderedPython ordered cleared inbufs sizes three ins outs boundsIn boundsOut served).mpr
    (words_fit words)

theorem ofNat_mul (size cnt : Word) : BitVec.ofNat 32 (size.toNat * cnt.toNat) = size * cnt := by
  rw [BitVec.ofNat_mul, BitVec.ofNat_toNat, BitVec.ofNat_toNat, BitVec.setWidth_eq,
    BitVec.setWidth_eq]

theorem readFile_agrees (size cnt fileHandle : Word)
    (accepted : size.toNat * cnt.toNat < 2 ^ 32)
    (served : ∀ r, (Command.readFile size cnt fileHandle).submitPython heap console fd.toNat =
      .ok r → r.console.Served) :
    ∃ r, (Command.readFile size cnt fileHandle).submitPython heap console fd.toNat = .ok r ∧
      r.submission = (fsaReadFile m iobuf fd data size cnt fileHandle 0#32).2.submission
        (fsaReadFile m iobuf fd data size cnt fileHandle 0#32).1 := by
  let words : List (Nat × Word) := [(0x08, size), (0x0C, cnt), (0x14, fileHandle)]
  have ordered : Ordered requestBytes 0 (wordFields words) := by
    simp [words, wordFields, Ordered, Piece.start, Piece.stop, requestBytes]
  refine data_agrees m iobuf fd heap console 0x0F#32 1#32 2#32 data (size * cnt) words _
    [(0x18, 0#32)] (words_copied words) ?_ ordered ?_ [] [size.toNat * cnt.toNat, 0x293]
    rfl rfl ?_ (fun _ absent => absurd absent List.not_mem_nil) ?_ served
  · simp [words, wordFields, Ordered, Piece.start, Piece.stop, requestBytes]
  · apply foldl_bounded_zeros 0#8 requestBytes 0 (wordFields words) ordered 0x18 4
    simp [words, wordFields, Piece.stop]
  · rw [List.map_cons, ofNat_mul]
    rfl
  · intro n member
    rcases List.mem_cons.mp member with here | there
    · omega
    · rw [List.mem_singleton.mp there]
      decide

theorem writeFile_agrees (fileHandle : Word) (bytes : List Byte) (accepted : bytes.length < 2 ^ 32)
    (served : ∀ r, (Command.writeFile fileHandle bytes).submitPython heap console fd.toNat =
      .ok r → r.console.Served) :
    ∃ r, (Command.writeFile fileHandle bytes).submitPython heap console fd.toNat = .ok r ∧
      r.submission =
        (fsaWriteFile m iobuf fd data 1#32 (BitVec.ofNat 32 bytes.length) fileHandle
          0#32).2.submission
        (fsaWriteFile m iobuf fd data 1#32 (BitVec.ofNat 32 bytes.length) fileHandle 0#32).1 := by
  let cnt := BitVec.ofNat 32 bytes.length
  let words : List (Nat × Word) := [(0x08, 1#32), (0x0C, cnt), (0x14, fileHandle)]
  have ordered : Ordered requestBytes 0 (wordFields words) := by
    simp [words, wordFields, Ordered, Piece.start, Piece.stop, requestBytes]
  have value : cnt.toNat = bytes.length := by
    rw [BitVec.toNat_ofNat, Nat.mod_eq_of_lt accepted]
  refine data_agrees m iobuf fd heap console 0x10#32 2#32 1#32 data (1#32 * cnt) words _
    [(0x18, 0#32)] (.word 1 1#32 0x08 rfl (.word bytes.length cnt 0x0C value
      (.word fileHandle.toNat fileHandle 0x14 rfl .nil))) ?_ ordered ?_ [bytes] [0x293]
    rfl ?_ rfl ?_ ?_ served
  · simp [words, wordFields, Ordered, Piece.start, Piece.stop, requestBytes]
  · apply foldl_bounded_zeros 0#8 requestBytes 0 (wordFields words) ordered 0x18 4
    simp [words, wordFields, Piece.stop]
  · rw [BitVec.one_mul]
    rfl
  · intro b member
    rw [List.mem_singleton.mp member]
    exact accepted
  · intro n member
    rw [List.mem_singleton.mp member]
    decide

theorem rawRead_agrees (size cnt : Word) (offset : BitVec 64) (deviceHandle : Word)
    (accepted : size.toNat * cnt.toNat < 2 ^ 32)
    (served : ∀ r, (Command.rawRead size cnt offset deviceHandle).submitPython heap console
      fd.toNat = .ok r → r.console.Served) :
    ∃ r, (Command.rawRead size cnt offset deviceHandle).submitPython heap console fd.toNat = .ok r ∧
      r.submission = (fsaRawRead m iobuf fd data size cnt offset deviceHandle).2.submission
        (fsaRawRead m iobuf fd data size cnt offset deviceHandle).1 := by
  let words : List (Nat × Word) := [(0x08, offset.extractLsb' 32 32),
    (0x0C, offset.extractLsb' 0 32), (0x10, cnt), (0x14, size), (0x18, deviceHandle)]
  have ordered : Ordered requestBytes 0 (wordFields words) := by
    simp [words, wordFields, Ordered, Piece.start, Piece.stop, requestBytes]
  refine data_agrees m iobuf fd heap console 0x6B#32 1#32 2#32 data (size * cnt) words _ []
    (.u64 offset 0x08 (.word cnt.toNat cnt 0x10 rfl (.word size.toNat size 0x14 rfl
      (.word deviceHandle.toNat deviceHandle 0x18 rfl .nil)))) ordered ordered rfl []
    [size.toNat * cnt.toNat, 0x293] rfl rfl ?_ (fun _ absent => absurd absent List.not_mem_nil) ?_
    served
  · rw [List.map_cons, ofNat_mul]
    rfl
  · intro n member
    rcases List.mem_cons.mp member with here | there
    · omega
    · rw [List.mem_singleton.mp there]
      decide

theorem mount_agrees_iff (first second flags : Word) (devicePath volumePath : List Char)
    (accepted : (Command.mount devicePath volumePath flags).Accepted)
    (firstArg : Argument m iobuf first (some devicePath))
    (secondArg : Argument m iobuf second (some volumePath))
    (served : ∀ r, (Command.mount devicePath volumePath flags).submitPython heap console
      fd.toNat = .ok r → r.console.Served) :
    (∃ r, (Command.mount devicePath volumePath flags).submitPython heap console fd.toNat = .ok r ∧
      r.submission = (fsaMount m iobuf fd first second flags 0#32 0#32).2.submission
        (fsaMount m iobuf fd first second flags 0#32 0#32).1) ↔
      devicePath.length ≤ 0x27F ∧ volumePath.length ≤ 0x27F := by
  obtain ⟨str, apart⟩ := firstArg devicePath rfl
  obtain ⟨str', apart'⟩ := secondArg volumePath rfl
  rw [← chars_length] at apart apart'
  let fields : List (Piece Byte) := [.text 0x04 0x27F (chars devicePath),
    .text 0x284 0x27F (chars volumePath), .data 0x504 (bytes32 flags)]
  have ordered : Ordered requestBytes 0 fields := by
    simp [fields, Ordered, Piece.start, Piece.stop, requestBytes]
  have stores : Stores m iobuf [.strncpy 0x04 first 0x27F, .strncpy 0x284 second 0x27F,
      .word 0x504 flags, .word 0x508 0#32] (fields ++ [.data 0x508 (bytes32 0#32)]) :=
    .strncpy 0x04 0x27F first _ str apart (.strncpy 0x284 0x27F second _ str' apart'
      (.word 0x504 flags (.word 0x508 0#32 .nil)))
  have copied : Copies [.string devicePath 0x04, .string volumePath 0x284, .word flags.toNat 0x504]
      fields :=
    .string devicePath 0x04 0x27F (accepted.1 _ rfl) (.string volumePath 0x284 0x27F
      (accepted.2.1 _ rfl) (.word flags.toNat flags 0x504 rfl .nil))
  have agree := ioctlv_agrees_iff m iobuf fd heap console 0x01#32 2#32 1#32 0#32 0#32 stores copied
    ordered (by simp [fields, Ordered, Piece.start, Piece.stop, requestBytes])
    (foldl_bounded_zeros 0#8 requestBytes 0 fields ordered 0x508 4
      (by simp [fields, Piece.stop]))
    [[]] [0x293] rfl rfl rfl (by simp) (by simp) served
  refine Iff.trans agree ?_
  simp [fields, Piece.Fits, chars_length]

end Vectored

theorem openFile_agrees_iff (first second : Word) (path mode : List Char)
    (accepted : (Command.openFile path mode).Accepted)
    (firstArg : Argument m iobuf first (some path))
    (secondArg : Argument m iobuf second (some mode)) :
    (∃ r, (Command.openFile path mode).submitPython heap console fd.toNat = .ok r ∧
      r.submission = (fsaOpenFile m iobuf fd first second).2.submission
        (fsaOpenFile m iobuf fd first second).1) ↔
      path.length ≤ 0x27F ∧ mode.length ≤ 0x10 := by
  obtain ⟨str, apart⟩ := firstArg path rfl
  obtain ⟨str', apart'⟩ := secondArg mode rfl
  rw [← chars_length] at apart apart'
  refine Iff.trans (ioctl_agrees_iff m iobuf fd heap console 0x0E#32
    (.strncpy 0x04 0x27F first _ str apart (.strncpy 0x284 0x10 second _ str' apart' .nil))
    (.string path 0x04 0x27F (accepted.1 _ rfl) (.string mode 0x284 0x10 (accepted.2.1 _ rfl)
      .nil))
    (by simp [Ordered, Piece.start, Piece.stop, requestBytes])) ?_
  simp [Piece.Fits, chars_length]

/-- Both libraries submit the same for exactly the commands whose strings fit; that for
`getVolumeInfo` is never submitted by Python. -/
theorem submit_agrees_iff (first second data : Word) (command : Command)
    (accepted : command.Accepted) (firstArg : Argument m iobuf first command.strings.1)
    (secondArg : Argument m iobuf second command.strings.2)
    (served : ∀ r, command.submitPython heap console fd.toNat = .ok r → r.console.Served) :
    (∃ r, command.submitPython heap console fd.toNat = .ok r ∧
      r.submission = (command.submitC m iobuf fd first second data).2.submission
        (command.submitC m iobuf fd first second data).1) ↔ command.Fits := by
  have path := fun (request : Word) (s : List Char) words ascii argument ordered =>
    path_agrees_iff m iobuf fd heap console request first s words ascii argument ordered
  have words := fun (request handle : Word) => words_agree m iobuf fd heap console request
    [(0x04, handle)] (by simp [wordFields, Ordered, Piece.start, Piece.stop, requestBytes])
  have one : ∀ w : Word, Ordered requestBytes 0x284 (wordFields [(0x284, w)]) := fun w => by
    simp [wordFields, Ordered, Piece.start, Piece.stop, requestBytes]
  cases command with
  | mount devicePath volumePath flags =>
      exact mount_agrees_iff m iobuf fd heap console first second flags devicePath volumePath
        accepted firstArg secondArg served
  | flushVolume volume => exact path 0x1B#32 volume [] (accepted.1 _ rfl) firstArg True.intro
  | getVolumeInfo volumePath =>
      constructor
      · rintro ⟨r, ok, -⟩
        obtain ⟨b, -, absurd⟩ := (bind_ok_iff _ _ _).mp ok
        cases absurd
      · exact False.elim
  | makeDir path' flags =>
      exact path 0x07#32 path' [(0x284, flags)] (accepted.1 _ rfl) firstArg (one flags)
  | openDir path' => exact path 0x0A#32 path' [] (accepted.1 _ rfl) firstArg True.intro
  | readDir handle => exact iff_of_true (words 0x0B#32 handle) True.intro
  | closeDir handle => exact iff_of_true (words 0x0D#32 handle) True.intro
  | openFile path' mode =>
      exact openFile_agrees_iff m iobuf fd heap console first second path' mode accepted firstArg
        secondArg
  | readFile size cnt fileHandle =>
      exact iff_of_true (readFile_agrees m iobuf fd heap console data size cnt fileHandle
        accepted.2.2 served) True.intro
  | writeFile fileHandle bytes =>
      exact iff_of_true (writeFile_agrees m iobuf fd heap console data fileHandle bytes
        accepted.2.2 served) True.intro
  | closeFile fileHandle => exact iff_of_true (words 0x15#32 fileHandle) True.intro
  | getStat path' =>
      exact path 0x18#32 path' [(0x284, 5#32)] (accepted.1 _ rfl) firstArg (one 5#32)
  | getDeviceInfo devicePath =>
      exact path 0x18#32 devicePath [(0x284, 4#32)] (accepted.1 _ rfl) firstArg (one 4#32)
  | changeMode path' permission =>
      rw [Command.submitPython, Wupclient.fsaChangeMode, if_neg (Nat.not_lt_of_le accepted.2.2)]
      exact path 0x20#32 path' [(0x284, permission), (0x288, 0x666#32)] (accepted.1 _ rfl) firstArg
        (by simp [wordFields, Ordered, Piece.start, Piece.stop, requestBytes])
  | remove path' => exact path 0x08#32 path' [] (accepted.1 _ rfl) firstArg True.intro
  | rawOpen devicePath => exact path 0x6A#32 devicePath [] (accepted.1 _ rfl) firstArg True.intro
  | rawRead size cnt offset deviceHandle =>
      exact iff_of_true (rawRead_agrees m iobuf fd heap console data size cnt offset deviceHandle
        accepted.2.2 served) True.intro
  | rawClose deviceHandle => exact iff_of_true (words 0x6D#32 deviceHandle) True.intro

end Agree

/-- Blocks of 64 KiB, one after the other. -/
def sampleHeap (n : Nat) : Word := BitVec.ofNat 32 (0x10000 * (n + 1))

def sampleConsole : Console := ⟨fun _ => 0#8, []⟩

def sampleDevice : List Char := ['/', 'd', 'e', 'v']

def sampleVolume : List Char := ['/', 'v', 'o', 'l']

def sampleMemory : Mem :=
  strcpy (strcpy (fun _ => 0#8) 0x1000#32 (chars sampleDevice)) 0x2000#32 (chars sampleVolume)

theorem submit_agrees_iff_sample :
    (∃ r, (Command.mount sampleDevice sampleVolume 2#32).submitPython sampleHeap sampleConsole 3 =
        .ok r ∧
      r.submission =
        (fsaMount sampleMemory 0x8000#32 3#32 0x1000#32 0x2000#32 2#32 0#32 0#32).2.submission
        (fsaMount sampleMemory 0x8000#32 3#32 0x1000#32 0x2000#32 2#32 0#32 0#32).1) ↔
      sampleDevice.length ≤ 0x27F ∧ sampleVolume.length ≤ 0x27F := by
  have blocks : (((Command.mount sampleDevice sampleVolume 2#32).submitPython sampleHeap
      sampleConsole 3).map fun r => r.console.blocks).toOption =
      some [(0x10000#32, 0x520), (0x20000#32, 0x293), (0x30000#32, 36)] := by
    decide +kernel
  have device : Str sampleMemory 0x1000#32 (chars sampleDevice) := by
    apply Str.congr
      (strcpy_str (fun _ => 0#8) 0x1000#32 (chars sampleDevice) (by decide) (by decide))
    intro i inside
    exact store_apart _ _ _ 5 _ (apart_of_order (by decide) (by decide)) i
      (Nat.lt_succ_of_le inside)
  have volume : Str sampleMemory 0x2000#32 (chars sampleVolume) :=
    strcpy_str _ _ (chars sampleVolume) (by decide) (by decide)
  refine submit_agrees_iff sampleMemory 0x8000#32 3#32 sampleHeap sampleConsole 0x1000#32 0x2000#32
    0#32 (.mount sampleDevice sampleVolume 2#32) ?_ ?_ ?_ ?_
  · refine ⟨?_, ?_, True.intro⟩
    · intro s member
      cases member
      decide
    · intro s member
      cases member
      decide
  · intro s member
    cases member
    exact ⟨device, apart_of_order (by decide) (by decide)⟩
  · intro s member
    cases member
    exact ⟨volume, apart_of_order (by decide) (by decide)⟩
  · intro r ok
    rw [show (3#32 : Word).toNat = 3 from rfl] at ok
    rw [ok] at blocks
    have given : r.console.blocks = _ := Option.some.inj blocks
    rw [Console.Served, given]
    simp only [List.pairwise_cons, List.mem_cons, List.not_mem_nil, or_false, forall_eq_or_imp,
      forall_eq, false_implies, implies_true, List.Pairwise.nil, and_true]
    exact ⟨⟨apart_of_order (by decide) (by decide), apart_of_order (by decide) (by decide)⟩,
      apart_of_order (by decide) (by decide)⟩

/-- One character more than C copies. -/
def longPath : List Char := List.replicate 0x280 'a'

/-- A path that is too long for the place of the path; and a command that Python never submits. -/
theorem submit_disagrees :
    ((Command.remove longPath).Accepted ∧
      ¬ ∃ r, (Command.remove longPath).submitPython sampleHeap sampleConsole 3 = .ok r ∧
        r.submission =
          (fsaRemove (strcpy (fun _ => 0#8) 0x1000#32 (chars longPath)) 0x8000#32 3#32
            0x1000#32).2.submission
          (fsaRemove (strcpy (fun _ => 0#8) 0x1000#32 (chars longPath)) 0x8000#32 3#32
            0x1000#32).1) ∧
    (Command.getVolumeInfo sampleVolume).Accepted ∧
      ∀ r, (Command.getVolumeInfo sampleVolume).submitPython sampleHeap sampleConsole 3 ≠
        .ok r := by
  have ascii : longPath.all (fun c => c.toNat < 128) = true := by decide +kernel
  have argument : Argument (strcpy (fun _ => 0#8) 0x1000#32 (chars longPath)) 0x8000#32 0x1000#32
      (some longPath) := by
    intro s member
    cases member
    exact ⟨strcpy_str _ _ _ (by decide +kernel) (by decide +kernel),
      apart_of_order (by decide +kernel) (by decide)⟩
  refine ⟨⟨⟨?_, nofun, True.intro⟩, ?_⟩, ⟨?_, nofun, True.intro⟩, ?_⟩
  · intro s member
    cases member
    exact ascii
  · intro agree
    have fits := (path_agrees_iff (strcpy (fun _ => 0#8) 0x1000#32 (chars longPath)) 0x8000#32 3#32
      sampleHeap sampleConsole 0x08#32 0x1000#32 longPath [] ascii argument True.intro).mp agree
    rw [longPath, List.length_replicate] at fits
    exact absurd fits (by decide)
  · intro s member
    cases member
    decide
  · intro r ok
    obtain ⟨b, -, absurd⟩ := (bind_ok_iff _ _ _).mp ok
    cases absurd

end Stroopwafel.Fsa
