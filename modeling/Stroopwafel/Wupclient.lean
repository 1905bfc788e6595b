import Stroopwafel.Fsa

set_option autoImplicit false

namespace Stroopwafel.Wupclient

open Memory CString Fsa

inductive Error where
  | structError
  | unicodeEncodeError
  | typeError
  | pathTooLong

/-- The memory of the console, and the blocks that its heap gave out. -/
structure Console where
  mem : Mem
  blocks : List (Word × Nat)

def buffer (size : Nat) : List Byte := List.replicate size 0#8

/-- `b[offset:offset + len(data)] = data` -/
def sliceAssign (b : List Byte) (offset : Nat) (data : List Byte) : List Byte :=
  b.take offset ++ data ++ b.drop (offset + data.length)

/-- `struct.pack(">I", w)` -/
def pack (w : Nat) : Except Error Word :=
  if w < 2 ^ 32 then .ok (BitVec.ofNat 32 w) else .error .structError

def bytes64 (w : BitVec 64) : List Byte :=
  bytes32 (w.extractLsb' 32 32) ++ bytes32 (w.extractLsb' 0 32)

/-- What the encoders do to `inbuffer`. -/
inductive Copy where
  | string (s : List Char) (offset : Nat)
  | word (w : Nat) (offset : Nat)
  | u64 (w : Nat) (offset : Nat)

def copy (b : List Byte) : Copy → Except Error (List Byte)
  | .string s offset =>
      if s.all (fun c => c.toNat < 128) then .ok (sliceAssign b offset (chars s ++ [0#8]))
      else .error .unicodeEncodeError
  | .word w offset => do
      let w ← pack w
      return sliceAssign b offset (bytes32 w)
  | .u64 w offset =>
      if w < 2 ^ 64 then .ok (sliceAssign b offset (bytes64 (BitVec.ofNat 64 w)))
      else .error .structError

def fill (copies : List Copy) : Except Error (List Byte) :=
  copies.foldlM copy (buffer 0x520)

/-- The number of the call and its arguments, as the server passes them to the kernel. -/
def svc (svcId : Nat) (arguments : List Nat) : Except Error (List Word) := do
  let svcId ← pack svcId
  let arguments ← arguments.mapM pack
  return svcId :: arguments

section Client

-- The address of each block that the heap gives out, one after the other.
variable (heap : Nat → Word)

def alloc (console : Console) (size : Nat) : Except Error (Console × Word) :=
  if size = 0 then return (console, 0#32)
  else do
    let address := heap console.blocks.length
    let _ ← svc 0x27 [0x1, size]
    return ({ console with blocks := console.blocks ++ [(address, size)] }, address)

def loadBuffer (console : Console) (b : List Byte) : Except Error (Console × Word) :=
  if b.length = 0 then return (console, 0#32)
  else do
    let (console, address) ← alloc heap console b.length
    return ({ console with mem := store console.mem address b }, address)

/-- The console when the kernel gets the call. -/
structure Submitted where
  console : Console
  call : Call

def Submitted.submission (r : Submitted) : Submission := r.call.submission r.console.mem

/-- `svc(0x38, ...)` -/
def svcIoctl (console : Console) (handle cmd : Nat) (inAddress : Word) (inLength : Nat)
    (outAddress : Word) (outLength : Nat) : Except Error Submitted := do
  let words ← svc 0x38 [handle, cmd, inAddress.toNat, inLength, outAddress.toNat, outLength]
  match words with
  | [_, fd, request, bufferIn, lengthIn, bufferIo, lengthIo] =>
      return ⟨console, .ioctl fd request bufferIn lengthIn bufferIo lengthIo⟩
  | _ => .error .structError

/-- `svc(0x39, ...)` -/
def svcIoctlv (console : Console) (handle cmd numIn numOut : Nat) (vector : Word) :
    Except Error Submitted := do
  let words ← svc 0x39 [handle, cmd, numIn, numOut, vector.toNat]
  match words with
  | [_, fd, request, numIn, numOut, vector] =>
      return ⟨console, .ioctlv fd request numIn numOut vector⟩
  | _ => .error .structError

def ioctl (console : Console) (handle cmd : Nat) (inbuf : List Byte) (outbufSize : Nat) :
    Except Error Submitted := do
  let (console, inAddress) ← loadBuffer heap console inbuf
  if outbufSize > 0 then
    let (console, outAddress) ← alloc heap console outbufSize
    svcIoctl console handle cmd inAddress inbuf.length outAddress outbufSize
  else svcIoctl console handle cmd inAddress inbuf.length 0#32 0

def loadBuffers (console : Console) :
    List (List Byte) → Except Error (Console × List (Word × Nat))
  | [] => return (console, [])
  | b :: rest => do
      let (console, address) ← loadBuffer heap console b
      let (console, loaded) ← loadBuffers console rest
      return (console, (address, b.length) :: loaded)

def allocs (console : Console) : List Nat → Except Error (Console × List (Word × Nat))
  | [] => return (console, [])
  | size :: rest => do
      let (console, address) ← alloc heap console size
      let (console, given) ← allocs console rest
      return (console, (address, size) :: given)

/-- The table of vectors. -/
def packVecs : List (Word × Nat) → Except Error (List Byte)
  | [] => return []
  | (a, s) :: rest => do
      let s ← pack s
      let data ← packVecs rest
      return bytes32 a ++ bytes32 s ++ bytes32 0#32 ++ data

def iovec (console : Console) (vecs : List (Word × Nat)) : Except Error (Console × Word) := do
  let data ← packVecs vecs
  loadBuffer heap console data

def ioctlv (console : Console) (handle cmd : Nat) (inbufs : List (List Byte))
    (outbufSizes : List Nat) : Except Error Submitted := do
  let (console, inbufs) ← loadBuffers heap console inbufs
  let (console, outbufs) ← allocs heap console outbufSizes
  let (console, iovecs) ← iovec heap console (inbufs ++ outbufs)
  svcIoctlv console handle cmd inbufs.length outbufs.length iovecs

section Requests

variable (console : Console) (handle : Nat)

/-- A request by `ioctl` whose block is filled by `copies`. -/
def request (cmd : Nat) (copies : List Copy) : Except Error Submitted := do
  let inbuffer ← fill copies
  ioctl heap console handle cmd inbuffer 0x293

def fsaMount (devicePath volumePath : List Char) (flags : Nat) : Except Error Submitted := do
  let inbuffer ← fill [.string devicePath 0x0004, .string volumePath 0x0284, .word flags 0x0504]
  ioctlv heap console handle 0x01 [inbuffer, []] [0x293]

def fsaRawOpen (device : List Char) : Except Error Submitted :=
  request heap console handle 0x6A [.string device 0x4]

def fsaFlushVolume (device : List Char) : Except Error Submitted :=
  request heap console handle 0x1B [.string device 0x4]

def fsaRawClose (fileHandle : Nat) : Except Error Submitted :=
  request heap console handle 0x6D [.word fileHandle 0x4]

def fsaRawRead (deviceHandle size cnt offset : Nat) : Except Error Submitted := do
  let inbuffer ← fill [.u64 offset 0x8, .word cnt 0x10, .word size 0x14, .word deviceHandle 0x18]
  ioctlv heap console handle 0x6B [inbuffer] [size * cnt, 0x293]

def fsaGetDeviceInfo (path : List Char) : Except Error Submitted :=
  request heap console handle 0x18 [.string path 0x4, .word 4 0x284]

/-- `ioctl` is called with an argument more than it takes. -/
def fsaGetVolumeInfo (path : List Char) : Except Error Submitted := do
  let _ ← fill [.string path 0x4, .word 4 0x284]
  .error .typeError

def fsaOpenDir (path : List Char) : Except Error Submitted :=
  request heap console handle 0x0A [.string path 0x4]

def fsaReadDir (dirHandle : Nat) : Except Error Submitted :=
  request heap console handle 0x0B [.word dirHandle 0x4]

def fsaCloseDir (dirHandle : Nat) : Except Error Submitted :=
  request heap console handle 0x0D [.word dirHandle 0x4]

def fsaOpenFile (path mode : List Char) : Except Error Submitted :=
  request heap console handle 0x0E [.string path 0x4, .string mode 0x284]

def fsaGetStat (path : List Char) : Except Error Submitted :=
  request heap console handle 0x18 [.string path 0x4, .word 0x5 0x284]

def fsaRemove (path : List Char) : Except Error Submitted :=
  request heap console handle 0x08 [.string path 0x4]

def fsaMakeDir (path : List Char) (flags : Nat) : Except Error Submitted :=
  request heap console handle 0x07 [.string path 0x4, .word flags 0x284]

def fsaReadFile (fileHandle size cnt : Nat) : Except Error Submitted := do
  let inbuffer ← fill [.word size 0x08, .word cnt 0x0C, .word fileHandle 0x14]
  ioctlv heap console handle 0x0F [inbuffer] [size * cnt, 0x293]

def fsaWriteFile (fileHandle : Nat) (data : List Byte) : Except Error Submitted := do
  let inbuffer ← fill [.word 1 0x08, .word data.length 0x0C, .word fileHandle 0x14]
  ioctlv heap console handle 0x10 [inbuffer, data] [0x293]

def fsaCloseFile (fileHandle : Nat) : Except Error Submitted :=
  request heap console handle 0x15 [.word fileHandle 0x4]

def fsaChangeMode (path : List Char) (permission : Nat) : Except Error Submitted :=
  if path.length > 0x27F then .error .pathTooLong
  else request heap console handle 0x20 [.string path 4, .word permission 0x284, .word 0x666 0x288]

end Requests

end Client

open Layout

theorem bind_ok_iff {α β : Type} (x : Except Error α) (f : α → Except Error β) (b : β) :
    (x >>= f) = .ok b ↔ ∃ a, x = .ok a ∧ f a = .ok b := by
  cases x with
  | error e => exact ⟨nofun, fun ⟨_, absurd, _⟩ => nomatch absurd⟩
  | ok a => exact ⟨fun ok => ⟨a, rfl, ok⟩, fun ⟨_, same, ok⟩ => Except.ok.inj same ▸ ok⟩

theorem pack_ok (w : Nat) (bound : w < 2 ^ 32) : pack w = .ok (BitVec.ofNat 32 w) :=
  if_pos bound

theorem pack_bound (w : Nat) (word : Word) (ok : pack w = .ok word) :
    w < 2 ^ 32 ∧ word = BitVec.ofNat 32 w := by
  unfold pack at ok
  split at ok
  next bound => exact ⟨bound, (Except.ok.inj ok).symm⟩
  next => cases ok

@[simp] theorem bytes64_length (w : BitVec 64) : (bytes64 w).length = 8 := rfl

section Fill

theorem buffer_bytesOf (size : Nat) : bytesOf (buffer size) = fun _ => 0#8 := by
  funext i
  simp only [bytesOf, buffer, List.getElem?_replicate]
  split <;> rfl

theorem sliceAssign_length (b : List Byte) (offset : Nat) (data : List Byte)
    (inside : offset ≤ b.length) :
    (sliceAssign b offset data).length = max b.length (offset + data.length) := by
  simp only [sliceAssign, List.length_append, List.length_take, List.length_drop]
  omega

theorem sliceAssign_bytesOf (b : List Byte) (offset : Nat) (data : List Byte)
    (inside : offset ≤ b.length) :
    bytesOf (sliceAssign b offset data) = overlay (bytesOf b) offset data := by
  have front : (b.take offset).length = offset := by
    rw [List.length_take]
    omega
  funext i
  by_cases lower : i < offset
  · rw [overlay_before _ _ _ i lower]
    simp only [bytesOf, sliceAssign, List.append_assoc]
    rw [List.getElem?_append_left (by omega), List.getElem?_take_of_lt lower]
  · obtain ⟨j, rfl⟩ := Nat.exists_eq_add_of_le (Nat.le_of_not_lt lower)
    simp only [bytesOf, sliceAssign, List.append_assoc]
    rw [List.getElem?_append_right (by omega), front, Nat.add_sub_cancel_left]
    by_cases within : j < data.length
    · rw [overlay_inside _ _ _ _ within, List.getElem?_append_left within,
        List.getElem?_eq_getElem within, Option.getD_some]
    · rw [overlay_after _ _ _ _ (by omega), List.getElem?_append_right (by omega),
        List.getElem?_drop, show offset + data.length + (j - data.length) = offset + j by omega]
      rfl

/-- What the copies are to store; a `u64` is stored as two words. -/
inductive Copies : List Copy → List (Piece Byte) → Prop where
  | nil : Copies [] []
  | string {copies : List Copy} {fields : List (Piece Byte)} (s : List Char) (offset n : Nat)
      (ascii : s.all (fun c => c.toNat < 128) = true) (rest : Copies copies fields) :
      Copies (.string s offset :: copies) (.text offset n (chars s) :: fields)
  | word {copies : List Copy} {fields : List (Piece Byte)} (v : Nat) (w : Word) (offset : Nat)
      (value : w.toNat = v) (rest : Copies copies fields) :
      Copies (.word v offset :: copies) (.data offset (bytes32 w) :: fields)
  | u64 {copies : List Copy} {fields : List (Piece Byte)} (w : BitVec 64) (offset : Nat)
      (rest : Copies copies fields) :
      Copies (.u64 w.toNat offset :: copies)
        (.data offset (bytes32 (w.extractLsb' 32 32)) ::
          .data (offset + 4) (bytes32 (w.extractLsb' 0 32)) :: fields)

/-- The buffer has grown if a string was too long for its place. -/
structure Filled (size : Nat) (f : Nat → Byte) (fields : List (Piece Byte)) (b : List Byte) :
    Prop where
  bytes : bytesOf b = fields.foldl (Piece.unbounded 0#8) f
  long : size ≤ b.length
  exact : (∀ field ∈ fields, field.Fits) → b.length = size

theorem copies_filled (size low : Nat) {copies : List Copy} {fields : List (Piece Byte)}
    (copied : Copies copies fields) (ordered : Ordered size low fields) (b : List Byte)
    (long : size ≤ b.length) :
    ∃ b', copies.foldlM copy b = .ok b' ∧
      bytesOf b' = fields.foldl (Piece.unbounded 0#8) (bytesOf b) ∧ size ≤ b'.length ∧
      (b.length = size → (∀ field ∈ fields, field.Fits) → b'.length = size) := by
  induction copied generalizing low b with
  | nil => exact ⟨b, rfl, rfl, long, fun exact _ => exact⟩
  | string s offset n ascii rest ih =>
      obtain ⟨-, stop, ordered⟩ := ordered
      simp only [Piece.stop] at stop
      have inside : offset ≤ b.length := by omega
      have length := sliceAssign_length b offset (chars s ++ [0#8]) inside
      obtain ⟨b', ok, bytes, long', exact⟩ := ih _ ordered
        (sliceAssign b offset (chars s ++ [0#8])) (by omega)
      refine ⟨b', ?_, ?_, long', ?_⟩
      · simp only [List.foldlM_cons, copy, ascii, if_true]
        exact ok
      · rw [bytes, sliceAssign_bytesOf b offset _ inside]
        rfl
      · intro whole fits
        have fit : (chars s).length ≤ n := fits _ (List.mem_cons_self ..)
        refine exact ?_ fun field member => fits field (List.mem_cons_of_mem _ member)
        rw [length, List.length_append, List.length_singleton]
        omega
  | word v w offset value rest ih =>
      obtain ⟨-, stop, ordered⟩ := ordered
      simp only [Piece.stop, bytes32_length] at stop
      have inside : offset ≤ b.length := by omega
      have length := sliceAssign_length b offset (bytes32 w) inside
      rw [bytes32_length] at length
      obtain ⟨b', ok, bytes, long', exact⟩ := ih _ ordered (sliceAssign b offset (bytes32 w))
        (by omega)
      subst value
      refine ⟨b', ?_, ?_, long', ?_⟩
      · simp only [List.foldlM_cons, copy, pack_ok _ w.isLt, BitVec.ofNat_toNat,
          BitVec.setWidth_eq]
        exact ok
      · rw [bytes, sliceAssign_bytesOf b offset _ inside]
        rfl
      · intro whole fits
        exact exact (by omega) fun field member => fits field (List.mem_cons_of_mem _ member)
  | u64 w offset rest ih =>
      obtain ⟨-, -, -, stop, ordered⟩ := ordered
      simp only [Piece.stop, bytes32_length] at stop
      have inside : offset ≤ b.length := by omega
      have length := sliceAssign_length b offset (bytes64 w) inside
      rw [bytes64_length] at length
      obtain ⟨b', ok, bytes, long', exact⟩ := ih _ ordered (sliceAssign b offset (bytes64 w))
        (by omega)
      refine ⟨b', ?_, ?_, long', ?_⟩
      · simp only [List.foldlM_cons, copy, if_pos w.isLt, BitVec.ofNat_toNat, BitVec.setWidth_eq]
        exact ok
      · rw [bytes, sliceAssign_bytesOf b offset _ inside, bytes64, ← overlay_append]
        rfl
      · intro whole fits
        exact exact (by omega) fun field member =>
          fits field (List.mem_cons_of_mem _ (List.mem_cons_of_mem _ member))

theorem fill_filled {copies : List Copy} {fields : List (Piece Byte)}
    (copied : Copies copies fields) (ordered : Ordered requestBytes 0 fields) :
    ∃ b, fill copies = .ok b ∧ Filled requestBytes (fun _ => 0#8) fields b := by
  have size : (buffer 0x520).length = requestBytes := List.length_replicate
  obtain ⟨b, ok, bytes, long, exact⟩ := copies_filled requestBytes 0 copied ordered (buffer 0x520)
    (Nat.le_of_eq size.symm)
  rw [buffer_bytesOf] at bytes
  exact ⟨b, ok, bytes, long, exact size⟩

/-- The part of the buffer that is the request. -/
theorem Filled.take {size : Nat} {f : Nat → Byte} {fields : List (Piece Byte)} {b : List Byte}
    (filled : Filled size f fields b) :
    b.take size = (List.range size).map (fields.foldl (Piece.unbounded 0#8) f) := by
  rw [← filled.bytes]
  apply List.ext_getElem
  · rw [List.length_take, List.length_map, List.length_range]
    exact Nat.min_eq_left filled.long
  · intro i inside _
    rw [List.length_take] at inside
    rw [List.getElem_take, List.getElem_map, List.getElem_range, bytesOf,
      List.getElem?_eq_getElem (by omega), Option.getD_some]

end Fill

section Submit

variable (heap : Nat → Word)

/-- The blocks that the heap gave out have no byte in common. -/
def Console.Served (console : Console) : Prop :=
  console.blocks.Pairwise fun a b => Apart a.1 a.2 b.1 b.2

/-- More blocks are given out, and only these are written. -/
structure Kept (console console' : Console) : Prop where
  blocks : ∃ more, console'.blocks = console.blocks ++ more
  mem : console'.Served → ∀ block ∈ console.blocks, Same console.mem console'.mem block.1 block.2

theorem Kept.refl (console : Console) : Kept console console :=
  ⟨⟨[], (List.append_nil _).symm⟩, fun _ _ _ => Same.refl _ _ _⟩

theorem Kept.served {console console' : Console} (kept : Kept console console')
    (served : console'.Served) : console.Served := by
  obtain ⟨more, blocks⟩ := kept.blocks
  rw [Console.Served, blocks] at served
  exact (List.pairwise_append.mp served).1

theorem Kept.trans {console console' console'' : Console} (first : Kept console console')
    (second : Kept console' console'') : Kept console console'' := by
  obtain ⟨more, blocks⟩ := first.blocks
  obtain ⟨more', blocks'⟩ := second.blocks
  refine ⟨⟨more ++ more', by rw [blocks', blocks, List.append_assoc]⟩, ?_⟩
  intro served block member
  refine (first.mem (second.served served) block member).trans (second.mem served block ?_)
  rw [blocks]
  exact List.mem_append_left _ member

theorem svc_size (size : Nat) : (∃ words, svc 0x27 [0x1, size] = .ok words) ↔ size < 2 ^ 32 := by
  simp only [svc, List.mapM_cons, List.mapM_nil, pack]
  by_cases bound : size < 2 ^ 32
  · simp only [bound, if_true, iff_true]
    exact ⟨_, rfl⟩
  · simp only [bound, if_false, iff_false]
    rintro ⟨words, ok⟩
    cases ok

theorem alloc_some (console : Console) (size : Nat) (some_ : size ≠ 0) (bound : size < 2 ^ 32) :
    alloc heap console size =
      .ok ({ console with blocks := console.blocks ++ [(heap console.blocks.length, size)] },
        heap console.blocks.length) := by
  obtain ⟨words, ok⟩ := (svc_size size).mpr bound
  simp only [alloc, if_neg some_, ok]
  rfl

theorem alloc_ok (console : Console) (size : Nat) (bound : size < 2 ^ 32) :
    ∃ console' address, alloc heap console size = .ok (console', address) := by
  by_cases none_ : size = 0
  · exact ⟨console, 0#32, if_pos none_⟩
  · exact ⟨_, _, alloc_some heap console size none_ bound⟩

theorem alloc_bound (console : Console) (size : Nat) (result : Console × Word)
    (ok : alloc heap console size = .ok result) : size < 2 ^ 32 := by
  unfold alloc at ok
  split at ok
  next none_ => omega
  next =>
    obtain ⟨words, given, -⟩ := (bind_ok_iff _ _ _).mp ok
    exact (svc_size size).mp ⟨words, given⟩

theorem alloc_kept (console console' : Console) (size : Nat) (address : Word)
    (ok : alloc heap console size = .ok (console', address)) : Kept console console' := by
  have bound := alloc_bound heap console size _ ok
  by_cases none_ : size = 0
  · simp only [alloc, if_pos none_] at ok
    cases ok
    exact Kept.refl console
  · rw [alloc_some heap console size none_ bound] at ok
    cases ok
    exact ⟨⟨_, rfl⟩, fun _ _ _ => Same.refl _ _ _⟩

theorem alloc_mem (console console' : Console) (size : Nat) (address : Word)
    (ok : alloc heap console size = .ok (console', address)) : console'.mem = console.mem := by
  have bound := alloc_bound heap console size _ ok
  by_cases none_ : size = 0
  · simp only [alloc, if_pos none_] at ok
    cases ok
    rfl
  · rw [alloc_some heap console size none_ bound] at ok
    cases ok
    rfl

theorem loadBuffer_some (console : Console) (b : List Byte) (some_ : b.length ≠ 0)
    (bound : b.length < 2 ^ 32) :
    loadBuffer heap console b =
      .ok (⟨store console.mem (heap console.blocks.length) b,
        console.blocks ++ [(heap console.blocks.length, b.length)]⟩,
        heap console.blocks.length) := by
  simp only [loadBuffer, if_neg some_, alloc_some heap console b.length some_ bound]
  rfl

theorem loadBuffer_ok (console : Console) (b : List Byte) (bound : b.length < 2 ^ 32) :
    ∃ console' address, loadBuffer heap console b = .ok (console', address) := by
  by_cases none_ : b.length = 0
  · exact ⟨console, 0#32, if_pos none_⟩
  · exact ⟨_, _, loadBuffer_some heap console b none_ bound⟩

theorem loadBuffer_bound (console : Console) (b : List Byte) (result : Console × Word)
    (ok : loadBuffer heap console b = .ok result) : b.length < 2 ^ 32 := by
  unfold loadBuffer at ok
  split at ok
  next none_ => omega
  next =>
    obtain ⟨given, ok, -⟩ := (bind_ok_iff _ _ _).mp ok
    exact alloc_bound heap console _ given ok

theorem loadBuffer_kept (console console' : Console) (b : List Byte) (address : Word)
    (ok : loadBuffer heap console b = .ok (console', address)) : Kept console console' := by
  have bound := loadBuffer_bound heap console b _ ok
  by_cases none_ : b.length = 0
  · simp only [loadBuffer, if_pos none_] at ok
    cases ok
    exact Kept.refl console
  · rw [loadBuffer_some heap console b none_ bound] at ok
    cases ok
    refine ⟨⟨_, rfl⟩, fun served block member => ?_⟩
    apply store_apart
    exact (List.pairwise_append.mp served).2.2 block member _ (List.mem_singleton_self _)

theorem loadBuffer_loaded (console console' : Console) (b : List Byte) (address : Word)
    (some_ : b.length ≠ 0) (ok : loadBuffer heap console b = .ok (console', address)) :
    load console'.mem address b.length = b ∧ (address, b.length) ∈ console'.blocks := by
  have bound := loadBuffer_bound heap console b _ ok
  rw [loadBuffer_some heap console b some_ bound] at ok
  cases ok
  refine ⟨?_, List.mem_append_right _ (List.mem_singleton_self _)⟩
  apply List.ext_getElem
  · exact load_length _ _ _
  · intro i inside inside'
    rw [load_getElem]
    exact store_inside _ _ b i inside' (Nat.le_of_lt bound)

theorem pack_toNat (w : Word) : pack w.toNat = .ok w := by
  rw [pack_ok _ w.isLt, BitVec.ofNat_toNat, BitVec.setWidth_eq]

theorem svcIoctl_eq (console : Console) (handle request inAddress outAddress : Word)
    (inLength outLength : Nat) (boundIn : inLength < 2 ^ 32) (boundOut : outLength < 2 ^ 32) :
    svcIoctl console handle.toNat request.toNat inAddress inLength outAddress outLength =
      .ok ⟨console, .ioctl handle request inAddress (BitVec.ofNat 32 inLength) outAddress
        (BitVec.ofNat 32 outLength)⟩ := by
  simp only [svcIoctl, svc, List.mapM_cons, List.mapM_nil, pack_toNat, pack_ok _ boundIn,
    pack_ok _ boundOut]
  rfl

theorem svcIoctlv_eq (console : Console) (handle request vector : Word) (numIn numOut : Nat)
    (boundIn : numIn < 2 ^ 32) (boundOut : numOut < 2 ^ 32) :
    svcIoctlv console handle.toNat request.toNat numIn numOut vector =
      .ok ⟨console, .ioctlv handle request (BitVec.ofNat 32 numIn) (BitVec.ofNat 32 numOut)
        vector⟩ := by
  simp only [svcIoctlv, svc, List.mapM_cons, List.mapM_nil, pack_toNat, pack_ok _ boundIn,
    pack_ok _ boundOut]
  rfl

theorem load_take (m : Mem) (a : Word) (n k : Nat) (fewer : k ≤ n) :
    load m a k = (load m a n).take k := by
  apply List.ext_getElem
  · rw [load_length, List.length_take, load_length]
    omega
  · intro i inside _
    rw [load_getElem, List.getElem_take, load_getElem]

theorem ioctl_ok (console : Console) (handle request : Word) (inbuf : List Byte) (size : Nat)
    (bound : inbuf.length < 2 ^ 32) (some_ : 0 < size) (boundSize : size < 2 ^ 32) :
    ∃ r, ioctl heap console handle.toNat request.toNat inbuf size = .ok r := by
  obtain ⟨console', inAddress, loaded⟩ := loadBuffer_ok heap console inbuf bound
  obtain ⟨console'', outAddress, given⟩ := alloc_ok heap console' size boundSize
  refine ⟨⟨console'', .ioctl handle request inAddress (BitVec.ofNat 32 inbuf.length) outAddress
    (BitVec.ofNat 32 size)⟩, ?_⟩
  rw [ioctl, bind_ok_iff]
  refine ⟨_, loaded, ?_⟩
  simp only [gt_iff_lt, if_pos some_]
  rw [bind_ok_iff]
  exact ⟨_, given, svcIoctl_eq _ _ _ _ _ _ _ bound boundSize⟩

theorem ioctl_submission (console : Console) (handle request : Word) (inbuf : List Byte)
    (size : Nat) (long : requestBytes ≤ inbuf.length) (some_ : 0 < size) (r : Submitted)
    (ok : ioctl heap console handle.toNat request.toNat inbuf size = .ok r) :
    r.submission = ⟨false, handle, request, [BitVec.ofNat 32 inbuf.length], [BitVec.ofNat 32 size],
      inbuf.take requestBytes⟩ := by
  rw [ioctl, bind_ok_iff] at ok
  obtain ⟨⟨console', inAddress⟩, loaded, ok⟩ := ok
  simp only [gt_iff_lt, if_pos some_] at ok
  obtain ⟨⟨console'', outAddress⟩, given, ok⟩ := (bind_ok_iff _ _ _).mp ok
  rw [svcIoctl_eq _ _ _ _ _ _ _ (loadBuffer_bound heap _ _ _ loaded)
    (alloc_bound heap _ _ _ given)] at ok
  cases ok
  have nonempty : inbuf.length ≠ 0 := by
    intro empty
    rw [empty] at long
    cases long
  obtain ⟨block, -⟩ := loadBuffer_loaded heap _ _ _ _ nonempty loaded
  simp only [Submitted.submission, Call.submission]
  rw [load_take _ _ inbuf.length _ long, alloc_mem heap _ _ _ _ given, block]

theorem loadBuffers_ok (console : Console) (inbufs : List (List Byte))
    (bounds : ∀ b ∈ inbufs, b.length < 2 ^ 32) :
    ∃ result, loadBuffers heap console inbufs = .ok result := by
  induction inbufs generalizing console with
  | nil => exact ⟨_, rfl⟩
  | cons b rest ih =>
      obtain ⟨console', address, loaded⟩ := loadBuffer_ok heap console b (bounds b (by simp))
      obtain ⟨result, ok⟩ := ih console' fun b member => bounds b (by simp [member])
      refine ⟨(result.1, (address, b.length) :: result.2), ?_⟩
      rw [loadBuffers, bind_ok_iff]
      refine ⟨_, loaded, ?_⟩
      rw [bind_ok_iff]
      exact ⟨_, ok, rfl⟩

theorem loadBuffers_kept (console console' : Console) (inbufs : List (List Byte))
    (loaded : List (Word × Nat))
    (ok : loadBuffers heap console inbufs = .ok (console', loaded)) :
    Kept console console' ∧ loaded.map Prod.snd = inbufs.map List.length := by
  induction inbufs generalizing console loaded with
  | nil =>
      cases ok
      exact ⟨Kept.refl _, rfl⟩
  | cons b rest ih =>
      rw [loadBuffers, bind_ok_iff] at ok
      obtain ⟨⟨between, address⟩, first, ok⟩ := ok
      obtain ⟨⟨last, others⟩, second, ok⟩ := (bind_ok_iff _ _ _).mp ok
      cases ok
      obtain ⟨kept, lengths⟩ := ih between others second
      refine ⟨(loadBuffer_kept heap _ _ _ _ first).trans kept, ?_⟩
      rw [List.map_cons, List.map_cons, lengths]

theorem allocs_ok (console : Console) (sizes : List Nat) (bounds : ∀ size ∈ sizes, size < 2 ^ 32) :
    ∃ result, allocs heap console sizes = .ok result := by
  induction sizes generalizing console with
  | nil => exact ⟨_, rfl⟩
  | cons size rest ih =>
      obtain ⟨console', address, given⟩ := alloc_ok heap console size (bounds size (by simp))
      obtain ⟨result, ok⟩ := ih console' fun size member => bounds size (by simp [member])
      refine ⟨(result.1, (address, size) :: result.2), ?_⟩
      rw [allocs, bind_ok_iff]
      refine ⟨_, given, ?_⟩
      rw [bind_ok_iff]
      exact ⟨_, ok, rfl⟩

theorem allocs_kept (console console' : Console) (sizes : List Nat) (given : List (Word × Nat))
    (ok : allocs heap console sizes = .ok (console', given)) :
    Kept console console' ∧ given.map Prod.snd = sizes := by
  induction sizes generalizing console given with
  | nil =>
      cases ok
      exact ⟨Kept.refl _, rfl⟩
  | cons size rest ih =>
      rw [allocs, bind_ok_iff] at ok
      obtain ⟨⟨between, address⟩, first, ok⟩ := ok
      obtain ⟨⟨last, others⟩, second, ok⟩ := (bind_ok_iff _ _ _).mp ok
      cases ok
      obtain ⟨kept, sizes_eq⟩ := ih between others second
      refine ⟨(alloc_kept heap _ _ _ _ first).trans kept, ?_⟩
      rw [List.map_cons, sizes_eq]

/-- The words of the table of vectors. -/
def tableWords (vecs : List (Word × Nat)) : List Word :=
  vecs.flatMap fun v => [v.1, BitVec.ofNat 32 v.2, 0#32]

theorem packVecs_ok (vecs : List (Word × Nat)) (bounds : ∀ v ∈ vecs, v.2 < 2 ^ 32) :
    packVecs vecs = .ok ((tableWords vecs).flatMap bytes32) := by
  induction vecs with
  | nil => rfl
  | cons v rest ih =>
      simp only [packVecs, pack_ok _ (bounds v (by simp)),
        ih fun v member => bounds v (by simp [member])]
      rfl

theorem packVecs_bound (vecs : List (Word × Nat)) (data : List Byte)
    (ok : packVecs vecs = .ok data) : ∀ v ∈ vecs, v.2 < 2 ^ 32 := by
  induction vecs generalizing data with
  | nil => nofun
  | cons v rest ih =>
      rw [packVecs, bind_ok_iff] at ok
      obtain ⟨word, packed, ok⟩ := ok
      obtain ⟨others, rest_ok, -⟩ := (bind_ok_iff _ _ _).mp ok
      intro v' member
      rcases List.mem_cons.mp member with here | there
      · subst here
        exact (pack_bound _ _ packed).1
      · exact ih others rest_ok v' there

theorem tableWords_length (vecs : List (Word × Nat)) :
    (tableWords vecs).length = 3 * vecs.length := by
  induction vecs with
  | nil => rfl
  | cons v rest ih =>
      simp only [tableWords, List.flatMap_cons, List.length_append, List.length_cons,
        List.length_nil] at ih ⊢
      omega

theorem tableWords_get (vecs : List (Word × Nat)) (i : Nat) (inside : i < vecs.length) :
    (tableWords vecs)[3 * i]? = some vecs[i].1 ∧
      (tableWords vecs)[3 * i + 1]? = some (BitVec.ofNat 32 vecs[i].2) := by
  induction vecs generalizing i with
  | nil => cases inside
  | cons v rest ih =>
      cases i with
      | zero => exact ⟨rfl, rfl⟩
      | succ i =>
          rw [List.length_cons] at inside
          obtain ⟨ptr, len⟩ := ih i (by omega)
          constructor
          · rw [show 3 * (i + 1) = 3 * i + 3 by omega]
            exact ptr
          · rw [show 3 * (i + 1) + 1 = 3 * i + 1 + 3 by omega]
            exact len

theorem store_words (m : Mem) (a : Word) (ws : List Word) (bound : 4 * ws.length ≤ 2 ^ 32) :
    store m a (ws.flatMap bytes32) = writeWords m a ws := by
  induction ws generalizing m a with
  | nil =>
      funext x
      exact store_outside m a x [] (Nat.zero_le _)
  | cons w rest ih =>
      rw [List.length_cons] at bound
      rw [List.flatMap_cons, writeWords, ← ih _ _ (by omega), write32]
      exact (store_append m a (bytes32 w) _
        (by rw [flatMap_bytes32_length, bytes32_length]; omega)).symm

theorem iovec_ok (console : Console) (vecs : List (Word × Nat)) (bounds : ∀ v ∈ vecs, v.2 < 2 ^ 32)
    (size : 12 * vecs.length < 2 ^ 32) : ∃ result, iovec heap console vecs = .ok result := by
  have length : ((tableWords vecs).flatMap bytes32).length < 2 ^ 32 := by
    rw [flatMap_bytes32_length, tableWords_length]
    omega
  obtain ⟨console', address, loaded⟩ := loadBuffer_ok heap console _ length
  refine ⟨(console', address), ?_⟩
  rw [iovec, bind_ok_iff]
  exact ⟨_, packVecs_ok vecs bounds, loaded⟩

theorem iovec_table (console console' : Console) (vecs : List (Word × Nat)) (address : Word)
    (ok : iovec heap console vecs = .ok (console', address)) :
    Kept console console' ∧ ∀ i, (inside : i < vecs.length) →
      iovecPtr console'.mem address i = vecs[i].1 ∧
      iovecLen console'.mem address i = BitVec.ofNat 32 vecs[i].2 := by
  rw [iovec, bind_ok_iff] at ok
  obtain ⟨data, packed, ok⟩ := ok
  refine ⟨loadBuffer_kept heap _ _ _ _ ok, ?_⟩
  intro i inside
  rw [packVecs_ok vecs (packVecs_bound vecs data packed)] at packed
  cases packed
  have length : ((tableWords vecs).flatMap bytes32).length = 12 * vecs.length := by
    rw [flatMap_bytes32_length, tableWords_length]
    omega
  have bound := loadBuffer_bound heap _ _ _ ok
  rw [loadBuffer_some heap _ _ (by omega) bound] at ok
  cases ok
  rw [length] at bound
  have words : 4 * (tableWords vecs).length ≤ 2 ^ 32 := by
    rw [tableWords_length]
    omega
  obtain ⟨ptr, len⟩ := tableWords_get vecs i inside
  obtain ⟨insidePtr, ptr⟩ := List.getElem?_eq_some_iff.mp ptr
  obtain ⟨insideLen, len⟩ := List.getElem?_eq_some_iff.mp len
  have table := writeWords_wordsAt console.mem (heap console.blocks.length) (tableWords vecs) words
  simp only [iovecPtr, iovecLen, store_words console.mem _ (tableWords vecs) words]
  constructor
  · rw [← ptr, ← table (3 * i) insidePtr, show iovecBytes * i = 4 * (3 * i) by
      simp only [iovecBytes]; omega]
  · rw [← len, ← table (3 * i + 1) insideLen, show iovecBytes * i + 4 = 4 * (3 * i + 1) by
      simp only [iovecBytes]; omega]

theorem ioctlv_ok (console : Console) (handle request : Word) (inbufs : List (List Byte))
    (sizes : List Nat) (boundsIn : ∀ b ∈ inbufs, b.length < 2 ^ 32)
    (boundsOut : ∀ size ∈ sizes, size < 2 ^ 32)
    (few : 12 * (inbufs.length + sizes.length) < 2 ^ 32) :
    ∃ r, ioctlv heap console handle.toNat request.toNat inbufs sizes = .ok r := by
  obtain ⟨⟨console₁, ins⟩, loaded⟩ := loadBuffers_ok heap console inbufs boundsIn
  obtain ⟨⟨console₂, outs⟩, given⟩ := allocs_ok heap console₁ sizes boundsOut
  have lengthsIn := (loadBuffers_kept heap _ _ _ _ loaded).2
  have lengthsOut := (allocs_kept heap _ _ _ _ given).2
  have countIn : ins.length = inbufs.length := by
    simpa only [List.length_map] using congrArg List.length lengthsIn
  have countOut : outs.length = sizes.length := by
    simpa only [List.length_map] using congrArg List.length lengthsOut
  have bounds : ∀ v ∈ ins ++ outs, v.2 < 2 ^ 32 := by
    intro v member
    rcases List.mem_append.mp member with member | member
    · have length : v.2 ∈ inbufs.map List.length := by
        rw [← lengthsIn]
        exact List.mem_map_of_mem member
      obtain ⟨b, member, length⟩ := List.mem_map.mp length
      rw [← length]
      exact boundsIn b member
    · apply boundsOut
      rw [← lengthsOut]
      exact List.mem_map_of_mem member
  obtain ⟨⟨console₃, vector⟩, table⟩ := iovec_ok heap console₂ (ins ++ outs) bounds
    (by rw [List.length_append]; omega)
  refine ⟨⟨console₃, .ioctlv handle request (BitVec.ofNat 32 ins.length)
    (BitVec.ofNat 32 outs.length) vector⟩, ?_⟩
  rw [ioctlv, bind_ok_iff]
  refine ⟨_, loaded, ?_⟩
  rw [bind_ok_iff]
  refine ⟨_, given, ?_⟩
  rw [bind_ok_iff]
  exact ⟨_, table, svcIoctlv_eq _ _ _ _ _ _ (by omega) (by omega)⟩

/-- The request is loaded first; what is loaded and given out after it leaves it as it is. -/
theorem ioctlv_submission (console : Console) (handle request : Word) (inbuf : List Byte)
    (inbufs : List (List Byte)) (sizes : List Nat) (long : requestBytes ≤ inbuf.length)
    (few : inbufs.length + 1 < 2 ^ 32 ∧ sizes.length < 2 ^ 32) (r : Submitted)
    (ok : ioctlv heap console handle.toNat request.toNat (inbuf :: inbufs) sizes = .ok r)
    (served : r.console.Served) :
    r.submission = ⟨true, handle, request,
      (inbuf :: inbufs).map fun b => BitVec.ofNat 32 b.length, sizes.map (BitVec.ofNat 32),
      inbuf.take requestBytes⟩ := by
  rw [ioctlv, bind_ok_iff] at ok
  obtain ⟨⟨console₁, ins⟩, loaded, ok⟩ := ok
  obtain ⟨⟨console₂, outs⟩, given, ok⟩ := (bind_ok_iff _ _ _).mp ok
  obtain ⟨⟨console₃, vector⟩, table, ok⟩ := (bind_ok_iff _ _ _).mp ok
  obtain ⟨keptOut, lengthsOut⟩ := allocs_kept heap _ _ _ _ given
  obtain ⟨keptTable, entries⟩ := iovec_table heap _ _ _ _ table
  rw [loadBuffers, bind_ok_iff] at loaded
  obtain ⟨⟨console₀, address⟩, first, loaded⟩ := loaded
  obtain ⟨⟨last, others⟩, rest, loaded⟩ := (bind_ok_iff _ _ _).mp loaded
  cases loaded
  obtain ⟨keptIn, lengthsIn⟩ := loadBuffers_kept heap _ _ _ _ rest
  have countIn : others.length = inbufs.length := by
    simpa only [List.length_map] using congrArg List.length lengthsIn
  have countOut : outs.length = sizes.length := by
    simpa only [List.length_map] using congrArg List.length lengthsOut
  have numIn : ((address, inbuf.length) :: others).length < 2 ^ 32 := by
    rw [List.length_cons]
    omega
  simp only at ok
  rw [svcIoctlv_eq _ _ _ _ _ _ numIn (by omega)] at ok
  cases ok
  have nonempty : inbuf.length ≠ 0 := by
    intro empty
    rw [empty] at long
    cases long
  obtain ⟨block, member⟩ := loadBuffer_loaded heap _ _ _ _ nonempty first
  have same := ((keptIn.trans keptOut).trans keptTable).mem served _ member
  have ptr : iovecPtr console₃.mem vector 0 = address := (entries 0 (by simp)).1
  have ins : (List.range (others.length + 1)).map (iovecLen console₃.mem vector) =
      (inbuf :: inbufs).map fun b => BitVec.ofNat 32 b.length := by
    rw [show (inbuf :: inbufs).map (fun b => BitVec.ofNat 32 b.length) =
      (((address, inbuf.length) :: others).map Prod.snd).map (BitVec.ofNat 32) by
        simp only [List.map_cons, lengthsIn, List.map_map]
        rfl]
    apply List.ext_getElem
    · simp only [List.length_map, List.length_range, List.length_cons]
    · intro i inside _
      rw [List.length_map, List.length_range] at inside
      rw [List.getElem_map, List.getElem_range, List.getElem_map, List.getElem_map,
        (entries i (by rw [List.length_append, List.length_cons]; omega)).2,
        List.getElem_append_left (by rw [List.length_cons]; omega)]
  have outs_eq : (List.range outs.length).map
      (fun i => iovecLen console₃.mem vector (others.length + 1 + i)) =
        sizes.map (BitVec.ofNat 32) := by
    rw [← lengthsOut]
    apply List.ext_getElem
    · simp only [List.length_map, List.length_range]
    · intro i inside _
      rw [List.length_map, List.length_range] at inside
      rw [List.getElem_map, List.getElem_range, List.getElem_map, List.getElem_map,
        (entries _ (by rw [List.length_append, List.length_cons]; omega)).2,
        List.getElem_append_right (by rw [List.length_cons]; omega)]
      simp only [List.length_cons, Nat.add_sub_cancel_left]
  have request_eq : load console₃.mem address requestBytes = inbuf.take requestBytes := by
    rw [load_take _ _ inbuf.length _ long, same.load, block]
  rw [List.length_cons] at numIn
  simp only [Submitted.submission, Call.submission, BitVec.toNat_ofNat, List.length_cons,
    Nat.mod_eq_of_lt numIn, Nat.mod_eq_of_lt (show outs.length < 2 ^ 32 by omega), ptr, ins,
    outs_eq, request_eq]

end Submit

end Stroopwafel.Wupclient
