import Mathlib.Data.List.TakeWhile
import Stroopwafel.IpcServer

set_option autoImplicit false

namespace Stroopwafel.Ipc

open Memory CString Prsh

/-- The system between two steps: messages wait in the queue of the server. -/
structure World where
  mem : Mem
  prsh : State
  queue : List Word
  replies : List (Word × Word)

inductive Action where
  /-- Someone else stores some bytes. -/
  | client (a : Word) (bytes : List Byte)
  | post (message : Word)
  /-- A receive fails, and the thread sleeps. -/
  | fault
  /-- The thread handles the next message and replies. It blocks while there is none. -/
  | serve

/-- A message that was handled. -/
structure Receipt where
  before : Mem
  message : Word
  ret : Word
  after : Mem

namespace Server

variable (server : Server)

def serve (w : World) : World × List Receipt :=
  match w.queue with
  | [] => (w, [])
  | message :: rest =>
      let (ret, m, s) := server.handle w.mem w.prsh message
      (⟨m, s, rest, w.replies ++ [(message, ret)]⟩, [⟨w.mem, message, ret, m⟩])

def act (w : World) : Action → World × List Receipt
  | .client a bytes => ({ w with mem := store w.mem a bytes }, [])
  | .post message =>
      (if w.queue.length < queueSlots then { w with queue := w.queue ++ [message] } else w, [])
  | .fault => (w, [])
  | .serve => server.serve w

/-- `ipc_thread` among its clients. -/
def run (w : World) : List Action → World × List Receipt
  | [] => (w, [])
  | action :: rest =>
      let (w, first) := server.act w action
      let (w, others) := run w rest
      (w, first ++ others)

/-- The message that an action puts into the queue. -/
def put (w : World) : Action → List Word
  | .post message => if w.queue.length < queueSlots then [message] else []
  | _ => []

def posted (w : World) : List Action → List Word
  | [] => []
  | action :: rest => put w action ++ posted (server.act w action).1 rest

/-- The memory that the clients alone would leave. -/
def clients (m : Mem) : List Action → Mem
  | [] => m
  | .client a bytes :: rest => clients (store m a bytes) rest
  | _ :: rest => clients m rest

/-- The reply and the memory are those of the request that the message held. -/
structure Served (r : Receipt) : Prop where
  answered : r.ret = server.answer r.before (server.request r.before r.message)
  done : server.Done r.before r.after (server.request r.before r.message)

/-- The areas of the request that a message held when it was received. -/
def touched (r : Receipt) : List (Word × Nat) :=
  server.areas r.before (server.request r.before r.message)

end Server

section Run

variable (server : Server)

/-- What one action does. -/
structure Acts (w w' : World) (action : Action) (rs : List Receipt) : Prop where
  replies : w'.replies = w.replies ++ rs.map fun r => (r.message, r.ret)
  queue : w.queue ++ Server.put w action = rs.map Receipt.message ++ w'.queue
  served : ∀ r ∈ rs, server.Sound r.before r.message → server.Served r
  mem : (∀ a bytes, action ≠ .client a bytes) → ∀ x,
    (∀ r ∈ rs, server.Sound r.before r.message ∧ Outside x (server.touched r)) →
      w'.mem x = w.mem x

/-- An action that no message is received in. -/
theorem acts_unserved {w w' : World} {action : Action} (replies : w'.replies = w.replies)
    (queue : w.queue ++ Server.put w action = w'.queue)
    (mem : (∀ a bytes, action ≠ .client a bytes) → w'.mem = w.mem) :
    Acts server w w' action [] where
  replies := by rw [replies, List.map_nil, List.append_nil]
  queue := queue
  served r member := absurd member List.not_mem_nil
  mem other x _ := congrFun (mem other) x

end Run

/-- What the two buffers hold: where `fw.img` is loaded from. -/
structure FwPath where
  dir : List Byte
  base : List Byte

/-- A path is split at its last slash, and the file name is cut to what its buffer holds. -/
def FwPath.ofText (s : List Byte) : FwPath where
  dir := ((s.reverse.dropWhile (· ≠ slash)).drop 1).reverse
  base := (s.reverse.takeWhile (· ≠ slash)).reverse.take (filenameBufferBytes - 1)

/-- The string at `a`. -/
def text (m : Mem) (a : Word) : List Byte := load m a (strlen m a (2 ^ 32))

structure FwPath.Held (p : FwPath) (buf : Buffers) (m : Mem) : Prop where
  dir : Str m buf.fwImgPathBuffer p.dir
  base : Str m buf.fwImgFilenameBuffer p.base
  dirFits : p.dir.length < pathBufferBytes
  baseFits : p.base.length < filenameBufferBytes

/-- The path after a message. -/
def Server.nextPath (server : Server) (p : FwPath) (r : Receipt) : FwPath :=
  match server.request r.before r.message with
  | .setPath source => if source = 0#32 then p else .ofText (text r.before source)
  | _ => p

/-- The area is off the two buffers. -/
def Buffers.Off (buf : Buffers) (a : Word) (n : Nat) : Prop :=
  Memory.Apart buf.fwImgPathBuffer pathBufferBytes a n ∧
    Memory.Apart buf.fwImgFilenameBuffer filenameBufferBytes a n

/-- Only a request for it stores to the two buffers. -/
def Server.Private (server : Server) (r : Receipt) : Prop :=
  (∃ source, server.request r.before r.message = .setPath source) ∨
    ∀ area ∈ server.touched r, server.buf.Off area.1 area.2

section Path

theorem slash_differs {s : List Byte} (absent : slash ∉ s) :
    ∀ c ∈ s.reverse, decide (c ≠ slash) = true := by
  intro c member
  rw [decide_eq_true_eq]
  rintro rfl
  exact absent (List.mem_reverse.mp member)

theorem FwPath.ofText_split {dir base : List Byte} (last : slash ∉ base) :
    FwPath.ofText (dir ++ slash :: base) = ⟨dir, base.take (filenameBufferBytes - 1)⟩ := by
  have differ := slash_differs last
  have reversed : (dir ++ slash :: base).reverse = base.reverse ++ slash :: dir.reverse := by
    simp
  unfold FwPath.ofText
  rw [reversed, List.takeWhile_append_of_pos differ, List.dropWhile_append_of_pos differ]
  simp

theorem FwPath.ofText_whole {s : List Byte} (absent : slash ∉ s) :
    FwPath.ofText s = ⟨[], s.take (filenameBufferBytes - 1)⟩ := by
  have whole := List.takeWhile_eq_self_iff.mpr (slash_differs absent)
  have nothing := List.dropWhile_eq_nil_iff.mpr (slash_differs absent)
  unfold FwPath.ofText
  rw [whole, nothing]
  simp

theorem strlen_str {m : Mem} {a : Word} {s : List Byte} (str : Str m a s) (fuel : Nat)
    (enough : s.length < fuel) : strlen m a fuel = s.length := by
  induction s generalizing a fuel with
  | nil =>
      obtain ⟨fuel, rfl⟩ := Nat.exists_eq_add_of_le' (show 1 ≤ fuel by omega)
      have ended := str.terminated
      rw [List.length_nil, BitVec.add_zero] at ended
      rw [strlen, if_pos ended, List.length_nil]
  | cons c rest ih =>
      obtain ⟨fuel, rfl⟩ := Nat.exists_eq_add_of_le' (show 1 ≤ fuel by omega)
      obtain ⟨first, nonzero⟩ := str.head
      rw [List.length_cons] at enough
      rw [strlen, first, if_neg nonzero, ih str.tail fuel (by omega), List.length_cons,
        Nat.add_comm]

theorem text_str {m : Mem} {a : Word} {s : List Byte} (str : Str m a s) : text m a = s := by
  rw [text, strlen_str str (2 ^ 32) str.bound]
  apply List.ext_getElem
  · exact load_length _ _ _
  · intro i inside inside'
    rw [load_getElem, str.char i inside']

variable (buf : Buffers) (m : Mem) (src : Word)

/-- A name that does not fit is cut. -/
theorem copyFilename_cut (s : List Byte) (str : Str m src s)
    (apart : Apart src (s.length + 1) buf.fwImgFilenameBuffer filenameBufferBytes) :
    Str (copyFilename buf m src) buf.fwImgFilenameBuffer (s.take (filenameBufferBytes - 1)) := by
  by_cases fits : s.length < filenameBufferBytes
  · rw [List.take_of_length_le (Nat.le_sub_one_of_lt fits)]
    exact copyFilename_str buf m src s str apart fits
  · have length : (s.take (filenameBufferBytes - 1)).length = filenameBufferBytes - 1 := by
      rw [List.length_take]
      omega
    refine ⟨?_, ?_, fun member => str.nonzero (List.mem_of_mem_take member), by rw [length]; decide⟩
    · intro i inside
      rw [length] at inside
      have before : buf.fwImgFilenameBuffer + BitVec.ofNat 32 i ≠
          buf.fwImgFilenameBuffer + BitVec.ofNat 32 (filenameBufferBytes - 1) := by
        simp only [filenameBufferBytes] at inside ⊢
        bv_omega
      rw [copyFilename, store_byte, if_neg before, strncpy_str m _ src _ s str (by decide)
        (apart.mono (Nat.le_refl _) (Nat.sub_le _ _)) i inside, List.getD_eq_getElem?_getD,
        List.getElem?_eq_getElem (by omega), List.getElem_take]
      rfl
    · rw [length]
      exact copyFilename_terminated buf m src

/-- The command leaves the two parts of its string, whatever the buffers held before. -/
theorem ioctlSetFwPath_held (buffers : buf.Apart) (present : src ≠ 0#32) (s : List Byte)
    (str : Str m src s)
    (apartPath : Apart src (s.length + 1) buf.fwImgPathBuffer pathBufferBytes)
    (apartFilename : Apart src (s.length + 1) buf.fwImgFilenameBuffer filenameBufferBytes)
    (fits : ∀ dir base, s = dir ++ slash :: base → slash ∉ base → dir.length < pathBufferBytes) :
    (FwPath.ofText s).Held buf (ioctlSetFwPath buf m src) := by
  have cut : ∀ base : List Byte,
      (base.take (filenameBufferBytes - 1)).length < filenameBufferBytes := by
    intro base
    rw [List.length_take]
    exact Nat.lt_of_le_of_lt (Nat.min_le_left _ _) (by decide)
  by_cases member : slash ∈ s
  · obtain ⟨dir, base, rfl, last⟩ := exists_last_slash member
    have fits := fits dir base rfl last
    rw [ioctlSetFwPath_split buf m src present str last, FwPath.ofText_split last]
    rw [List.length_append, List.length_cons] at apartPath apartFilename
    have directory := copyPath_str buf m src str fits (apartPath.mono (by omega) (Nat.le_refl _))
    have kept : ∀ x, Beyond x buf.fwImgPathBuffer pathBufferBytes →
        copyPath buf m src (BitVec.ofNat 32 dir.length) x = m x :=
      fun x outside => copyPath_outside buf m src str fits x outside
    generalize copyPath buf m src (BitVec.ofNat 32 dir.length) = copied at directory kept
    have tail : Str copied (src + BitVec.ofNat 32 (dir.length + 1)) base := by
      have tail : Str m (src + BitVec.ofNat 32 (dir.length + 1)) base := by
        rw [← ofNat_add_ofNat]
        exact Str.tail (str.drop dir)
      apply tail.congr
      intro i inside
      apply kept
      intro j inside'
      rw [ofNat_add_ofNat]
      exact apartPath _ (by omega) j inside'
    refine ⟨?_, ?_, fits, cut base⟩
    · apply directory.congr
      intro i inside
      exact copyFilename_outside buf _ _ _ fun j inside' => buffers i (by omega) j inside'
    · exact copyFilename_cut buf _ _ base tail (apartFilename.sub (dir.length + 1) (by omega))
  · rw [ioctlSetFwPath_whole buf m src present s str member, FwPath.ofText_whole member]
    refine ⟨Str.empty ?_, ?_, (show 0 < pathBufferBytes by decide), cut s⟩
    · rw [store_byte, if_pos rfl]
    · apply (copyFilename_cut buf m src s str apartFilename).congr
      intro i inside
      have distinct := buffers 0 (by decide) i (Nat.lt_of_le_of_lt inside (cut s))
      rw [BitVec.add_zero] at distinct
      rw [store_byte, if_neg distinct.symm]

end Path

section Paths

variable {server : Server} {p : FwPath}

/-- The bytes of the buffers alone decide what they hold. -/
theorem FwPath.Held.congr {m m' : Mem} (held : p.Held server.buf m)
    (dir : Memory.Same m m' server.buf.fwImgPathBuffer pathBufferBytes)
    (base : Memory.Same m m' server.buf.fwImgFilenameBuffer filenameBufferBytes) :
    p.Held server.buf m' where
  dir := held.dir.congr fun i inside => dir i (Nat.lt_of_le_of_lt inside held.dirFits)
  base := held.base.congr fun i inside => base i (Nat.lt_of_le_of_lt inside held.baseFits)
  dirFits := held.dirFits
  baseFits := held.baseFits

/-- A message of another kind leaves the buffers alone. -/
theorem FwPath.Held.others {r : Receipt} (held : p.Held server.buf r.before)
    (sound : server.Sound r.before r.message) (served : server.Served r)
    (off : ∀ area ∈ server.touched r, server.buf.Off area.1 area.2) :
    p.Held server.buf r.after := by
  apply held.congr
  · intro i inside
    apply done_confined sound served.done
    intro area member j below
    exact (off area member).1 i inside j below
  · intro i inside
    apply done_confined sound served.done
    intro area member j below
    exact (off area member).2 i inside j below

theorem FwPath.Held.receipt {r : Receipt} (held : p.Held server.buf r.before)
    (sound : server.Sound r.before r.message) (served : server.Served r)
    (hidden : server.Private r) : (server.nextPath p r).Held server.buf r.after := by
  by_cases sets : ∃ source, server.request r.before r.message = .setPath source
  · obtain ⟨source, asked⟩ := sets
    have done := served.done
    rw [asked] at done
    have done : r.after = ioctlSetFwPath server.buf r.before source := done
    simp only [Server.nextPath, asked]
    rw [done]
    by_cases absent : source = 0#32
    · rw [if_pos absent, ioctlSetFwPath, if_pos absent]
      exact held
    · obtain ⟨s, str, path, filename, fits⟩ := sound.path source absent asked
      rw [if_neg absent, text_str str]
      exact ioctlSetFwPath_held server.buf r.before source server.apart absent s str path filename
        fits
  · have same : server.nextPath p r = p := by
      unfold Server.nextPath
      split
      · rename_i source asked
        exact absurd ⟨source, asked⟩ sets
      · rfl
    rw [same]
    exact held.others sound served (hidden.resolve_left sets)

end Paths

section Sample

/-- Nothing is mapped, and the code that is called stores nothing. -/
def foreignSample : Foreign where
  mapShared m _ := (0#32, m)
  call m _ _ _ := m
  mapAreas _ _ := []
  callAreas _ _ _ _ := []
  map_outside _ _ _ _ := rfl
  call_outside _ _ _ _ _ _ := rfl

def serverSample : Server where
  debug := false
  unaligned := read32
  buf := bufferSample
  apart := bufferSample_apart
  names := ⟨0x05110000#32, 0x05110010#32⟩
  minuteBoot := 0x05110020#32
  foreign := foreignSample

/-- A message at 0x08000100 that sets the path at 0x08000000. -/
def setPathSample : Mem :=
  write32 (write32 (write32 pathSample 0x08000100#32 iosIoctl) 0x08000124#32 ioctlSetPath)
    0x08000128#32 0x08000000#32

/-- The buffers hold nothing yet. -/
def worldSample : World := ⟨setPathSample, prshReset, [], []⟩

/-- A client stores elsewhere, and posts its message; the first receive fails. -/
def actionsSample : List Action :=
  [.client 0x09000000#32 [0x2A#8], .post 0x08000100#32, .fault, .serve]

def servedSample : Mem := store setPathSample 0x09000000#32 [0x2A#8]

theorem servedSample_request :
    serverSample.request servedSample 0x08000100#32 = .setPath 0x08000000#32 := by
  have opened : command servedSample 0x08000100#32 = iosIoctl := by decide
  have asked : ioctlCommand servedSample 0x08000100#32 = ioctlSetPath := by decide
  have source : bufferIn servedSample 0x08000100#32 = 0x08000000#32 := by decide
  unfold Server.request Server.ioctlRequest
  rw [opened, asked, source]
  rfl

theorem servedSample_str : Str servedSample 0x08000000#32 (chars "/vol/fw.img".toList) := by
  apply pathSample_str.congr
  intro i inside
  have same : ∀ i < 12, servedSample (0x08000000#32 + BitVec.ofNat 32 i) =
      pathSample (0x08000000#32 + BitVec.ofNat 32 i) := by
    decide
  exact same i (Nat.lt_succ_of_le inside)

theorem servedSample_sound : serverSample.Sound servedSample 0x08000100#32 where
  path source _ asked := by
    have same : source = 0x08000000#32 :=
      (Request.setPath.inj (servedSample_request.symm.trans asked)).symm
    subst same
    refine ⟨_, servedSample_str, apart_of_distance (by decide) (by decide),
      apart_of_distance (by decide) (by decide), ?_⟩
    intro dir base split _
    have whole := congrArg List.length split
    rw [List.length_append] at whole
    have length : (chars "/vol/fw.img".toList).length = 11 := by decide
    rw [length] at whole
    exact Nat.lt_of_le_of_lt (show dir.length ≤ 11 by omega) (by decide)
  writes vectored := absurd (show command servedSample 0x08000100#32 = iosIoctl by decide)
    (by rw [vectored]; decide)

theorem actionsSample_sound :
    ∀ r ∈ (serverSample.run worldSample actionsSample).2,
      serverSample.Sound r.before r.message := by
  intro r member
  obtain rfl := List.mem_singleton.mp member
  exact servedSample_sound

end Sample

end Stroopwafel.Ipc
