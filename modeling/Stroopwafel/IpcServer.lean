import Stroopwafel.BootLocation
import Stroopwafel.IpcIoctlv

set_option autoImplicit false

/- The server behind `/dev/stroopwafel`, and the clients that run between its messages. -/
namespace Stroopwafel.Ipc

open Memory CString Prsh

abbrev iosErrorUnknownValue : Word := 0xFFFFFFD6#32

abbrev iosOpen : Word := 1#32
abbrev iosClose : Word := 2#32
abbrev iosIoctl : Word := 6#32
abbrev iosIoctlv : Word := 7#32

abbrev ioctlGetApiVersion : Word := 1#32
abbrev ioctlSetPath : Word := 2#32
abbrev ioctlvWrite : Word := 3#32
abbrev ioctlvExecute : Word := 4#32
abbrev ioctlMapMemory : Word := 5#32
abbrev ioctlMinutePath : Word := 6#32
abbrev ioctlPluginPath : Word := 7#32

abbrev wafelApiVersion : Word := 0x010000#32

abbrev minDevUnknown : Word := 0#32

/-- `sizeof(ios_map_shared_info_t)` -/
abbrev mapInfoBytes : Nat := 24

/-- The slots of `messageQueue`. -/
abbrev queueSlots : Nat := 0x10

section Message

variable (m : Mem) (message : Word)

def command : Word := read32 m message

/-- `message->ioctl.command`; `message->ioctlv.command` is at the same place. -/
def ioctlCommand : Word := read32 m (message + 36#32)

def bufferIn : Word := read32 m (message + 40#32)

def lengthIn : Word := read32 m (message + 44#32)

def bufferIo : Word := read32 m (message + 48#32)

def lengthIo : Word := read32 m (message + 52#32)

end Message

/-- The address is in none of the areas. -/
def Outside (x : Word) (areas : List (Word × Nat)) : Prop := ∀ area ∈ areas, Beyond x area.1 area.2

/-- The code that the server calls for a client, and the areas that it keeps to. -/
structure Foreign where
  /-- `_iosMapSharedUserExecution`, the result first. -/
  mapShared : Mem → Word → Word × Mem
  /-- The function at the target address, with `config` and `output`. -/
  call : Mem → Word → Word → Word → Mem
  mapAreas : Mem → Word → List (Word × Nat)
  callAreas : Mem → Word → Word → Word → List (Word × Nat)
  map_outside : ∀ m descr x, Outside x (mapAreas m descr) → (mapShared m descr).2 x = m x
  call_outside : ∀ m target config output x, Outside x (callAreas m target config output) →
    call m target config output x = m x

structure Server where
  debug : Bool
  unaligned : Mem → Word → Word
  buf : Buffers
  apart : buf.Apart
  names : Names
  /-- Where the name `minute_boot` is. -/
  minuteBoot : Word
  foreign : Foreign

def slcPlugins : List Byte := chars "/sys/hax/ios_plugins".toList
def sdPlugins : List Byte := chars "/wiiu/ios_plugins".toList

namespace Server

variable (server : Server) (m : Mem) (s : State) (message : Word)

/-- What `IOCTL_GET_PLUGIN_PATH` stores for a value of `boot`. -/
def storePlugins (bufferIo boot : Word) : Mem :=
  if boot = 1#32 then strcpy (write32 m bufferIo minDevSlc) (bufferIo + 4#32) slcPlugins
  else if 2 ≤ boot.toNat ∧ boot.toNat ≤ 5 then
    strcpy (write32 m bufferIo minDevSd) (bufferIo + 4#32) sdPlugins
  else strcpy (write32 m bufferIo minDevUnknown) (bufferIo + 4#32) []

/-- `IOCTL_GET_PLUGIN_PATH`. The data pointer itself is `boot`, which is 0 for a missing entry. -/
def ioctlGetPluginPath (bufferIo lengthIo : Word) : Word × Mem × State :=
  if bufferIo ≠ 0#32 ∧ minutePathBytes ≤ lengthIo.toNat then
    let out := prshGetEntry server.debug m s server.minuteBoot (some 0#32) none
    let m := if out.ret ≠ 0 then
        strcpy (write32 m bufferIo minDevUnknown) (bufferIo + 4#32) []
      else m
    (BitVec.ofNat 32 minutePathBytes, storePlugins m bufferIo (out.data.getD 0#32), out.state)
  else (iosErrorInvalidArg, m, s)

/-- An out buffer is there and holds `size` bytes. -/
def Roomy (size : Nat) : Prop := bufferIo m message ≠ 0#32 ∧ size ≤ (lengthIo m message).toNat

instance (size : Nat) : Decidable (Roomy m message size) := inferInstanceAs (Decidable (_ ∧ _))

def ipcIoctl : Word × Mem × State :=
  if ioctlCommand m message = ioctlSetPath then
    (0#32, ioctlSetFwPath server.buf m (bufferIn m message), s)
  else if ioctlCommand m message = ioctlGetApiVersion then
    if Roomy m message 4 then
      (4#32, write32 m (bufferIo m message) wafelApiVersion, s)
    else (iosErrorInvalidArg, m, s)
  else if ioctlCommand m message = ioctlMapMemory then
    if bufferIn m message ≠ 0#32 ∧ mapInfoBytes ≤ (lengthIn m message).toNat then
      let (res, m) := server.foreign.mapShared m (bufferIn m message)
      (res, m, s)
    else (iosErrorInvalidArg, m, s)
  else if ioctlCommand m message = ioctlMinutePath then
    ioctlGetMinutePath server.debug server.unaligned server.names m s (bufferIo m message)
      (lengthIo m message)
  else if ioctlCommand m message = ioctlPluginPath then
    server.ioctlGetPluginPath m s (bufferIo m message) (lengthIo m message)
  else (iosErrorInvalidArg, m, s)

/-- The target, `config` and `output` of `IOCTLV_EXECUTE`. -/
def executeArgs : Word × Word × Word :=
  (loadWord server.unaligned m (vecPtr m message 0),
    if 1 < (numIn m message).toNat then vecPtr m message 1 else 0#32,
    if 0 < (numIo m message).toNat then vecPtr m message (numIn m message).toNat else 0#32)

def ioctlvExecuteAt : Word × Mem :=
  if (numIn m message).toNat < 1 ∨ (vecLen m message 0).toNat < 4 then (iosErrorInvalidArg, m)
  else
    let (target, config, output) := server.executeArgs m message
    (0#32, if target ≠ 0#32 then server.foreign.call m target config output else m)

def ipcIoctlv : Word × Mem :=
  if ioctlCommand m message = ioctlvWrite then
    let out := ioctlvWriteMemory m message
    (out.ret, out.mem)
  else if ioctlCommand m message = ioctlvExecute then server.ioctlvExecuteAt m message
  else (iosErrorInvalidArg, m)

/-- The body of the loop of `ipc_thread`, from a message to the result that is replied. -/
def handle : Word × Mem × State :=
  if command m message = iosOpen then (0#32, m, s)
  else if command m message = iosClose then (0#32, m, s)
  else if command m message = iosIoctl then server.ipcIoctl m s message
  else if command m message = iosIoctlv then
    let (res, m) := server.ipcIoctlv m message
    (res, m, s)
  else (iosErrorUnknownValue, m, s)

end Server

/-- A message as it stands in memory when it is received, checked. -/
inductive Request where
  /-- Open or close. -/
  | control
  | setPath (source : Word)
  | version (out : Word)
  | map (descr : Word)
  | minutePath (out : Word)
  | pluginPath (out : Word)
  | write (writes : List (Word × Word × List Byte))
  | execute (target config output : Word)
  | refused (code : Word)

/-- The device and the path stand at `out`. -/
def report (m : Mem) (out device : Word) (path : List Byte) : Mem :=
  strcpy (write32 m out device) (out + 4#32) path

namespace Server

variable (server : Server) (m : Mem) (message : Word)

/-- The request of `IOS_IOCTL`. -/
def ioctlRequest : Request :=
  if ioctlCommand m message = ioctlSetPath then .setPath (bufferIn m message)
  else if ioctlCommand m message = ioctlGetApiVersion ∧ Roomy m message 4 then
    .version (bufferIo m message)
  else if ioctlCommand m message = ioctlMapMemory ∧ bufferIn m message ≠ 0#32 ∧
      mapInfoBytes ≤ (lengthIn m message).toNat then
    .map (bufferIn m message)
  else if ioctlCommand m message = ioctlMinutePath ∧ Roomy m message minutePathBytes then
    .minutePath (bufferIo m message)
  else if ioctlCommand m message = ioctlPluginPath ∧ Roomy m message minutePathBytes then
    .pluginPath (bufferIo m message)
  else .refused iosErrorInvalidArg

/-- The request of `IOS_IOCTLV`. -/
def ioctlvRequest : Request :=
  if ioctlCommand m message = ioctlvWrite then
    if (numIn m message).toNat < 1 ∨ numIo m message ≠ 0#32 then .refused iosErrorInvalidArg
    else if (vecLen m message 0).toNat % 4 ≠ 0 ∨
        (numIn m message).toNat ≠ 1 + (vecLen m message 0).toNat / 4 then
      .refused iosErrorInvalidSize
    else .write (requested m message ((vecLen m message 0).toNat / 4))
  else if ioctlCommand m message = ioctlvExecute ∧ 1 ≤ (numIn m message).toNat ∧
      4 ≤ (vecLen m message 0).toNat then
    let (target, config, output) := server.executeArgs m message
    .execute target config output
  else .refused iosErrorInvalidArg

def request : Request :=
  if command m message = iosOpen ∨ command m message = iosClose then .control
  else if command m message = iosIoctl then ioctlRequest m message
  else if command m message = iosIoctlv then server.ioctlvRequest m message
  else .refused iosErrorUnknownValue

/-- The reply to a request. -/
def answer : Request → Word
  | .control => 0#32
  | .setPath _ => 0#32
  | .version _ => 4#32
  | .map descr => (server.foreign.mapShared m descr).1
  | .minutePath _ => BitVec.ofNat 32 minutePathBytes
  | .pluginPath _ => BitVec.ofNat 32 minutePathBytes
  | .write _ => 0#32
  | .execute _ _ _ => 0#32
  | .refused code => code

/-- What a request makes of the memory. -/
def Done (m' : Mem) : Request → Prop
  | .control => m' = m
  | .setPath source => m' = ioctlSetFwPath server.buf m source
  | .version out => m' = write32 m out wafelApiVersion
  | .map descr => m' = (server.foreign.mapShared m descr).2
  | .minutePath out => ∃ filename ∈ [fwImg, minuteImg],
      m' = report m out minDevSlc (chars "/sys/hax/".toList ++ filename) ∨
        m' = report m out minDevSd (chars "/".toList ++ filename)
  | .pluginPath out => m' = report m out minDevSlc slcPlugins ∨
      m' = report m out minDevSd sdPlugins ∨ m' = report m out minDevUnknown []
  | .write writes => m' = storeAll m (writes.map fun w => (w.1, w.2.2))
  | .execute target config output =>
      m' = if target = 0#32 then m else server.foreign.call m target config output
  | .refused _ => m' = m

/-- The areas that a request names, and the two buffers for the path. -/
def areas : Request → List (Word × Nat)
  | .control => []
  | .setPath source =>
      if source = 0#32 then []
      else [(server.buf.fwImgPathBuffer, pathBufferBytes),
        (server.buf.fwImgFilenameBuffer, filenameBufferBytes)]
  | .version out => [(out, 4)]
  | .map descr => server.foreign.mapAreas m descr
  | .minutePath out => [(out, minutePathBytes)]
  | .pluginPath out => [(out, minutePathBytes)]
  | .write writes => writes.map fun w => (w.1, w.2.2.length)
  | .execute target config output =>
      if target = 0#32 then [] else server.foreign.callAreas m target config output
  | .refused _ => []

/-- A path is a string off the buffers whose directory fits, and the writes of a message do not
change the message. -/
structure Sound : Prop where
  path : ∀ source, source ≠ 0#32 → server.request m message = .setPath source →
    ∃ s, Str m source s ∧
      Apart source (s.length + 1) server.buf.fwImgPathBuffer pathBufferBytes ∧
      Apart source (s.length + 1) server.buf.fwImgFilenameBuffer filenameBufferBytes ∧
      ∀ dir base, s = dir ++ slash :: base → slash ∉ base → dir.length < pathBufferBytes
  writes : command m message = iosIoctlv → ioctlCommand m message = ioctlvWrite →
    Disjoint m message

end Server

section Handle

variable (server : Server) (m : Mem) (s : State) (message : Word)

/-- The file name is one of two, and so is the directory. -/
theorem ioctlGetMinutePath_done (debug : Bool) (unaligned : Mem → Word → Word) (names : Names)
    (out lengthIo : Word) (room : out ≠ 0#32 ∧ minutePathBytes ≤ lengthIo.toNat) :
    let got := ioctlGetMinutePath debug unaligned names m s out lengthIo
    got.1 = BitVec.ofNat 32 minutePathBytes ∧ server.Done m got.2.1 (.minutePath out) := by
  have written : ∀ (slc : Bool) (filename : List Byte), filename ∈ [fwImg, minuteImg] →
      server.Done m (strcpy (write32 m out (if slc then minDevSlc else minDevSd)) (out + 4#32)
        ((if slc then chars "/sys/hax/".toList else chars "/".toList) ++ filename))
        (.minutePath out) := by
    intro slc filename known
    refine ⟨filename, known, ?_⟩
    cases slc with
    | true => exact .inl rfl
    | false => exact .inr rfl
  have named : ∀ bit : Bool, (if bit then minuteImg else fwImg) ∈ [fwImg, minuteImg] := by
    intro bit
    cases bit <;> simp
  have pairs : ∀ (slc : Bool) (filename : List Byte),
      (if slc then (minDevSlc, chars "/sys/hax/".toList ++ filename)
        else (minDevSd, chars "/".toList ++ filename)) =
      ((if slc then minDevSlc else minDevSd),
        (if slc then chars "/sys/hax/".toList else chars "/".toList) ++ filename) := by
    intro slc filename
    cases slc <;> rfl
  simp only [ioctlGetMinutePath, if_pos room, true_and, pairs]
  split
  · exact written _ _ (named _)
  · exact written _ _ (by simp)

/-- Stored twice is stored once. -/
theorem store_again (a : Word) (bytes : List Byte) :
    store (store m a bytes) a bytes = store m a bytes := by
  funext x
  simp only [store]
  cases bytes[(x - a).toNat]? <;> rfl

theorem report_again (out : Word) :
    report (report m out minDevUnknown []) out minDevUnknown [] =
      report m out minDevUnknown [] := by
  have joined : ∀ m' : Mem, report m' out minDevUnknown [] =
      store m' out (bytes32 minDevUnknown ++ [0#8]) := fun m' =>
    store_append m' out (bytes32 minDevUnknown) [0#8] (by decide)
  rw [joined, joined, store_again]

/-- A lookup that fails leaves the data pointer alone. -/
theorem prshGetEntry_kept (debug : Bool) (name : Word) (data size : Option Word)
    (failed : (prshGetEntry debug m s name data size).ret ≠ 0) :
    (prshGetEntry debug m s name data size).data = data := by
  unfold prshGetEntry at failed ⊢
  generalize prshInit debug m s = initialised at failed ⊢
  obtain ⟨s', accesses⟩ := initialised
  dsimp only at failed ⊢
  split
  · rfl
  · split
    · rfl
    · split
      · rfl
      · rename_i named header sound
        rw [if_neg named, if_neg header, if_neg sound] at failed
        cases found : (searchFrom m s'.header name (entries m s'.header).toNat 0).1 with
        | none => rfl
        | some i =>
            rw [found] at failed
            exact absurd rfl failed

theorem ioctlGetPluginPath_done (out lengthIo : Word)
    (room : out ≠ 0#32 ∧ minutePathBytes ≤ lengthIo.toNat) :
    let got := server.ioctlGetPluginPath m s out lengthIo
    got.1 = BitVec.ofNat 32 minutePathBytes ∧ server.Done m got.2.1 (.pluginPath out) := by
  simp only [Server.ioctlGetPluginPath, if_pos room, true_and]
  by_cases failed : (prshGetEntry server.debug m s server.minuteBoot (some 0#32) none).ret ≠ 0
  · rw [if_pos failed, prshGetEntry_kept m s _ _ _ _ failed]
    exact .inr (.inr (report_again m out))
  · rw [if_neg failed]
    unfold Server.storePlugins
    split
    · exact .inl rfl
    · split
      · exact .inr (.inl rfl)
      · exact .inr (.inr rfl)

end Handle

section Serve

variable (server : Server) (m : Mem) (s : State) (message : Word)

/-- With the command known, the other branches of both go away. -/
theorem ipcIoctl_done :
    let got := server.ipcIoctl m s message
    let request := Server.ioctlRequest m message
    got.1 = server.answer m request ∧ server.Done m got.2.1 request := by
  unfold Server.ipcIoctl Server.ioctlRequest
  by_cases setPath : ioctlCommand m message = ioctlSetPath
  · simp only [if_pos setPath]
    exact ⟨rfl, rfl⟩
  by_cases version : ioctlCommand m message = ioctlGetApiVersion
  · simp +decide only [version, false_and, if_false, if_true, true_and]
    by_cases room : Server.Roomy m message 4
    · rw [if_pos room, if_pos room]
      exact ⟨rfl, rfl⟩
    · rw [if_neg room, if_neg room]
      exact ⟨rfl, rfl⟩
  by_cases map : ioctlCommand m message = ioctlMapMemory
  · simp +decide only [map, false_and, if_false, if_true, true_and]
    by_cases room : bufferIn m message ≠ 0#32 ∧ mapInfoBytes ≤ (lengthIn m message).toNat
    · rw [if_pos room, if_pos room]
      exact ⟨rfl, rfl⟩
    · rw [if_neg room, if_neg room]
      exact ⟨rfl, rfl⟩
  by_cases minute : ioctlCommand m message = ioctlMinutePath
  · simp +decide only [minute, false_and, if_false, if_true, true_and]
    by_cases room : Server.Roomy m message minutePathBytes
    · rw [if_pos room]
      exact ioctlGetMinutePath_done server m s _ _ _ _ _ room
    · have cramped : ¬ (bufferIo m message ≠ 0#32 ∧
          minutePathBytes ≤ (lengthIo m message).toNat) := room
      rw [if_neg room, ioctlGetMinutePath, if_neg cramped]
      exact ⟨rfl, rfl⟩
  by_cases plugin : ioctlCommand m message = ioctlPluginPath
  · simp +decide only [plugin, false_and, if_false, if_true, true_and]
    by_cases room : Server.Roomy m message minutePathBytes
    · rw [if_pos room]
      exact ioctlGetPluginPath_done server m s _ _ room
    · have cramped : ¬ (bufferIo m message ≠ 0#32 ∧
          minutePathBytes ≤ (lengthIo m message).toNat) := room
      rw [if_neg room, Server.ioctlGetPluginPath, if_neg cramped]
      exact ⟨rfl, rfl⟩
  simp only [setPath, version, map, minute, plugin, false_and, if_false]
  exact ⟨rfl, rfl⟩

/-- The counts are compared as words. -/
theorem numIn_count :
    numIn m message ≠ 1#32 + BitVec.ofNat 32 ((vecLen m message 0).toNat / 4) ↔
      (numIn m message).toNat ≠ 1 + (vecLen m message 0).toNat / 4 := by
  have bound := (vecLen m message 0).isLt
  rw [ne_eq, ne_eq, ← BitVec.toNat_inj, BitVec.toNat_add, BitVec.toNat_ofNat, BitVec.toNat_ofNat,
    Nat.mod_eq_of_lt (show (vecLen m message 0).toNat / 4 < 2 ^ 32 by omega),
    Nat.mod_eq_of_lt (by omega)]

theorem ioctlvExecute_done (execute : ioctlCommand m message = ioctlvExecute) :
    let got := server.ioctlvExecuteAt m message
    let request := server.ioctlvRequest m message
    got.1 = server.answer m request ∧ server.Done m got.2 request := by
  have other : ioctlCommand m message ≠ ioctlvWrite := by
    rw [execute]
    decide
  unfold Server.ioctlvExecuteAt Server.ioctlvRequest
  rw [if_neg other]
  by_cases short : (numIn m message).toNat < 1 ∨ (vecLen m message 0).toNat < 4
  · rw [if_pos short, if_neg (by omega)]
    exact ⟨rfl, rfl⟩
  · rw [if_neg short, if_pos ⟨execute, by omega⟩]
    refine ⟨rfl, ?_⟩
    simp only [Server.Done, ne_eq, ite_not]

end Serve

section Confined

variable (m : Mem) (x : Word)

theorem Beyond.sub {a : Word} {n k : Nat} (beyond : Beyond x a n) (offset : Nat)
    (inside : offset + k ≤ n) : Beyond x (a + BitVec.ofNat 32 offset) k := by
  intro i below
  rw [ofNat_add_ofNat]
  exact beyond (offset + i) (by omega)

theorem report_beyond {out device : Word} {path : List Byte} (fits : path.length < 256)
    (beyond : Beyond x out minutePathBytes) : report m out device path x = m x := by
  have record : Beyond x (out + 4#32) (path ++ [0#8]).length :=
    beyond.sub x 4 (by rw [List.length_append, List.length_singleton, minutePathBytes]; omega)
  have first : Beyond x out (bytes32 device).length := fun i inside =>
    beyond i (Nat.lt_of_lt_of_le inside (show 4 ≤ 260 by decide))
  rw [report, strcpy, store_beyond _ x record, write32, store_beyond _ x first]

theorem storeAll_beyond (writes : List (Word × List Byte))
    (beyond : ∀ w ∈ writes, Beyond x w.1 w.2.length) : storeAll m writes x = m x := by
  induction writes generalizing m with
  | nil => rfl
  | cons w rest ih =>
      have first := store_beyond m x (beyond w List.mem_cons_self)
      exact (ih _ fun w' member => beyond w' (List.mem_cons_of_mem w member)).trans first

theorem minutePaths_fit : ∀ filename ∈ [fwImg, minuteImg],
    (chars "/sys/hax/".toList ++ filename).length < 256 ∧
      (chars "/".toList ++ filename).length < 256 := by
  decide

variable {server : Server} {m : Mem} {message : Word}

/-- What is stored for a message stays in the areas of its request. -/
theorem done_confined (sound : server.Sound m message) {m' : Mem}
    (done : server.Done m m' (server.request m message)) (x : Word)
    (outside : Outside x (server.areas m (server.request m message))) : m' x = m x := by
  cases asked : server.request m message with
  | control | refused code =>
      rw [asked] at done
      exact congrFun done x
  | setPath source =>
      rw [asked] at done outside
      have done : m' = ioctlSetFwPath server.buf m source := done
      rw [done]
      by_cases absent : source = 0#32
      · rw [ioctlSetFwPath, if_pos absent]
      · have two : Outside x [(server.buf.fwImgPathBuffer, pathBufferBytes),
            (server.buf.fwImgFilenameBuffer, filenameBufferBytes)] := by
          rw [Server.areas, if_neg absent] at outside
          exact outside
        obtain ⟨s, str, path, filename, fits⟩ := sound.path source absent asked
        have splits := (ioctlSetFwPath_splits_iff server.buf m source server.apart absent s str path
          filename).mpr fits
        exact splits.frame x (two _ List.mem_cons_self)
          (two _ (List.mem_cons_of_mem _ List.mem_cons_self))
  | version out =>
      rw [asked] at done outside
      have done : m' = write32 m out wafelApiVersion := done
      rw [done]
      exact store_beyond m x (outside (out, 4) (List.mem_singleton.mpr rfl))
  | map descr =>
      rw [asked] at done outside
      have done : m' = (server.foreign.mapShared m descr).2 := done
      rw [done]
      exact server.foreign.map_outside m descr x outside
  | minutePath out =>
      rw [asked] at done outside
      have beyond := outside (out, minutePathBytes) (List.mem_singleton.mpr rfl)
      obtain ⟨filename, known, rfl | rfl⟩ := done
      · exact report_beyond m x (minutePaths_fit filename known).1 beyond
      · exact report_beyond m x (minutePaths_fit filename known).2 beyond
  | pluginPath out =>
      rw [asked] at done outside
      have beyond := outside (out, minutePathBytes) (List.mem_singleton.mpr rfl)
      obtain rfl | rfl | rfl := done
      · exact report_beyond m x (by decide) beyond
      · exact report_beyond m x (by decide) beyond
      · exact report_beyond m x (by decide) beyond
  | write writes =>
      rw [asked] at done outside
      have done : m' = storeAll m (writes.map fun w => (w.1, w.2.2)) := done
      rw [done]
      apply storeAll_beyond
      intro w member
      obtain ⟨v, listed, rfl⟩ := List.mem_map.mp member
      exact outside (v.1, v.2.2.length) (List.mem_map.mpr ⟨v, listed, rfl⟩)
  | execute target config output =>
      rw [asked] at done outside
      have done : m' = if target = 0#32 then m
          else server.foreign.call m target config output := done
      rw [done]
      by_cases absent : target = 0#32
      · rw [if_pos absent]
      · rw [if_neg absent]
        apply server.foreign.call_outside
        rw [Server.areas, if_neg absent] at outside
        exact outside

end Confined

end Stroopwafel.Ipc
