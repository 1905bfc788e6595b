import Stroopwafel.Memory

set_option autoImplicit false

namespace Stroopwafel.Wupserver

open Memory

/-- The memory, and whatever else of the console a system call can change. -/
structure Console (K : Type) where
  mem : Mem
  kernel : K

/-- What the kernel does: the system calls, and what happens while the server sleeps. -/
structure Ios (K : Type) where
  svc : Word → List Word → Console K → Console K × Word
  usleep : Console K → Console K

/-- A kernel whose system calls return their first argument. -/
def echo : Ios Unit where
  svc _ arguments console := (console, arguments.headD 0#32)
  usleep console := console

/-- A method of `wupclient`, with its arguments. -/
inductive Call where
  | read (addr length : Word)
  | write (addr : Word) (data : List Byte)
  | svc (svcId : Word) (arguments : List Word)
  | kill
  | memcpy (dst src len : Word)
  | repeatwrite (dst val n : Word)
  deriving DecidableEq

/-- What a method returns. `error` is the `None` after a message was printed. -/
inductive Result where
  | data (bytes : List Byte)
  | code (ret : Word)
  | error
  deriving DecidableEq

/-- The word in bytes `offset` to `offset + 3`. -/
def word (b : List Byte) (offset : Nat) : Word :=
  ((b[offset]?).getD 0#8 ++ (b[offset + 1]?).getD 0#8) ++
    ((b[offset + 2]?).getD 0#8 ++ (b[offset + 3]?).getD 0#8)

theorem word_append (a b : List Byte) (offset : Nat) (inside : offset + 4 ≤ a.length) :
    word (a ++ b) offset = word a offset := by
  unfold word
  rw [List.getElem?_append_left (by omega), List.getElem?_append_left (by omega),
    List.getElem?_append_left (by omega), List.getElem?_append_left (by omega)]

theorem word_after (a b : List Byte) (offset : Nat) :
    word (a ++ b) (a.length + offset) = word b offset := by
  unfold word
  simp only [Nat.add_assoc, List.getElem?_append_right (Nat.le_add_right _ _),
    Nat.add_sub_cancel_left]

theorem word_bytes32 (w : Word) : word (bytes32 w) 0 = w := bytes32_join w

theorem word_flatMap (ws : List Word) (i : Nat) :
    word (ws.flatMap bytes32) (4 * i) = (ws[i]?).getD 0#32 := by
  induction ws generalizing i with
  | nil => simp [word]
  | cons w rest ih =>
      rw [List.flatMap_cons]
      cases i with
      | zero =>
          rw [Nat.mul_zero, word_append _ _ _ (by simp), word_bytes32]
          rfl
      | succ i =>
          rw [show 4 * (i + 1) = (bytes32 w).length + 4 * i by simp; omega, word_after, ih]
          rfl

section Server

/-- Where the thread of the server is. The `memcpy` of a negative size ends in `crashed`. -/
inductive Pc where
  | recv
  | write (dst length offset : Word)
  | read (src length offset : Word)
  | closed
  | crashed
  deriving DecidableEq

structure Server (K : Type) where
  console : Console K
  commandBuffer : List Byte
  serverKilled : Bool
  pc : Pc

variable {K : Type}

/-- The end of `serverCommandHandler`, and what `serverClientHandler` sends then. -/
def respond (server : Server K) (outLength : Nat) : Server K × List Byte :=
  let commandBuffer := bytes32 0#32 ++ server.commandBuffer.drop 4
  let pc := if server.serverKilled then .closed else .recv
  ({ server with commandBuffer := commandBuffer, pc := pc }, commandBuffer.take outLength)

theorem respond_four (server : Server K) : (respond server 4).2 = bytes32 0#32 :=
  List.take_left' (bytes32_length 0#32)

theorem respond_alive (server : Server K) (outLength : Nat)
    (alive : server.serverKilled = false) :
    (respond server outLength).1.pc = .recv ∧
      (respond server outLength).1.serverKilled = false := by
  unfold respond
  simp only [alive, Bool.false_eq_true, if_false, and_self]

theorem respond_eight (server : Server K) (front tail : List Byte) (ret : Word)
    (length : front.length = 4)
    (commandBuffer : server.commandBuffer = front ++ bytes32 ret ++ tail) :
    (respond server 8).2 = bytes32 0#32 ++ bytes32 ret := by
  have behind : server.commandBuffer.drop 4 = bytes32 ret ++ tail := by
    rw [commandBuffer, List.append_assoc, List.drop_left' length]
  simp only [respond, behind, ← List.append_assoc]
  exact List.take_left' rfl

/-- `while(offset < length) offset += recv(...)` -/
def writeLoop (server : Server K) (dst length offset : Word) : Server K × List Byte :=
  if offset < length then ({ server with pc := .write dst length offset }, [])
  else respond server 4

/-- `recv` does not fill a buffer at address 0. -/
def recvInto (m : Mem) (buf : Word) (bytes : List Byte) : Mem :=
  if buf = 0#32 then m else store m buf bytes

/-- `recv` got `bytes` and returned `ret`. -/
def writeRound (server : Server K) (dst length offset : Word) (bytes : List Byte) (ret : Word) :
    Server K × List Byte :=
  let mem := recvInto server.console.mem (dst + offset) bytes
  writeLoop { server with console := { server.console with mem := mem } } dst length (offset + ret)

/-- `while(offset < length) offset += send(...)` -/
def readLoop (server : Server K) (src length offset : Word) : Server K × List Byte :=
  if offset < length then ({ server with pc := .read src length offset }, [])
  else respond server 4

/-- `send` took `count` bytes and returned `ret`. -/
def readRound (server : Server K) (src length offset : Word) (count : Nat) (ret : Word) :
    Server K × List Byte :=
  let bytes := load server.console.mem (src + offset) count
  let (server, out) := readLoop server src length (offset + ret)
  (server, bytes ++ out)

/-- The loop of the repeated write, with `n` rounds left. -/
def repeatedWrite (ios : Ios K) (dst value : Word) : Nat → Word → Console K → Console K
  | 0, _, console => console
  | n + 1, old, console =>
      if read32 console.mem dst ≠ old then
        if read32 console.mem dst = 0#32 then repeatedWrite ios dst value n 0#32 console
        else { console with mem := write32 console.mem dst value }
      else repeatedWrite ios dst value n old (ios.usleep console)

/-- The number of bytes that `memcpy` gets: `size_arguments` is signed, and is not checked. -/
def argumentBytes (length : Nat) : Word :=
  let sizeArguments := BitVec.ofNat 32 length - 8#32
  if sizeArguments.slt 32#32 then sizeArguments else 32#32

theorem slt_32 (n : Nat) (bound : n < 2 ^ 31) :
    (BitVec.ofNat 32 n).slt 32#32 = decide (n < 32) := by
  have value : (BitVec.ofNat 32 n).toNat = n := Nat.mod_eq_of_lt (by omega)
  have signed : (BitVec.ofNat 32 n).toInt = n := by
    rw [BitVec.toInt_eq_toNat_cond, value, if_pos (by omega)]
  have other : (32#32).toInt = 32 := by decide
  rw [BitVec.slt, signed, other]
  exact decide_eq_decide.mpr (by omega)

theorem argumentBytes_whole (length : Nat) (lower : 8 ≤ length) (upper : length < 2 ^ 31) :
    (argumentBytes length).toNat = min (length - 8) 32 := by
  have size : BitVec.ofNat 32 length - 8#32 = BitVec.ofNat 32 (length - 8) := by
    bv_omega
  unfold argumentBytes
  simp only [size, slt_32 (length - 8) (by omega), decide_eq_true_eq]
  by_cases few : length - 8 < 32
  · rw [if_pos few, Nat.min_eq_left (by omega)]
    exact Nat.mod_eq_of_lt (by omega)
  · rw [if_neg few, Nat.min_eq_right (by omega)]
    rfl

/-- `arguments[8]` is cleared before the bytes behind the number of the call are copied. -/
def svcArguments (commandBuffer : List Byte) (count : Nat) : List Word :=
  let copied := (commandBuffer.drop 8).take count
  (List.range 8).map fun i => word copied (4 * i)

/-- The commands of `serverCommandHandler`. -/
def serverCommand (ios : Ios K) (server : Server K) (length : Nat) : Server K × List Byte :=
  let command := fun i => word server.commandBuffer (4 * i)
  match (command 0).toNat with
  | 0 => writeLoop server (command 1) (command 2) 0#32
  | 1 => readLoop server (command 1) (command 2) 0#32
  | 2 =>
      let count := (argumentBytes length).toNat
      -- Everything behind the stack would be overwritten.
      if 32 < count then ({ server with pc := .crashed }, [])
      else
        let (console, ret) :=
          ios.svc (command 1) (svcArguments server.commandBuffer count) server.console
        let commandBuffer :=
          server.commandBuffer.take 4 ++ bytes32 ret ++ server.commandBuffer.drop 8
        respond { server with console := console, commandBuffer := commandBuffer } 8
  | 3 => respond { server with serverKilled := true } 4
  | 4 =>
      let mem := move server.console.mem (command 1) (command 2) (command 3).toNat
      respond { server with console := { server.console with mem := mem } } 4
  | 5 =>
      let old := read32 server.console.mem (command 1)
      let console :=
        repeatedWrite ios (command 1) (command 2) (command 3).toNat old server.console
      respond { server with console := console } 4
  | _ => ({ server with pc := .recv }, bytes32 (-2#32))

/-- The server after a command of `length` bytes, and what it sends. -/
def serverCommandHandler (ios : Ios K) (server : Server K) (length : Nat) :
    Server K × List Byte :=
  if length = 0 then ({ server with pc := .recv }, bytes32 (-1#32))
  else serverCommand ios server length

theorem serverCommandHandler_eq (ios : Ios K) (server : Server K) (length : Nat)
    (some : 0 < length) :
    serverCommandHandler ios server length = serverCommand ios server length :=
  if_neg (Nat.ne_of_gt some)

end Server

section Client

def Call.request : Call → List Word
  | .read addr length => [1#32, addr, length]
  | .write addr data => [0#32, addr, BitVec.ofNat 32 data.length]
  | .svc svcId arguments => 2#32 :: svcId :: arguments
  | .kill => [3#32]
  | .memcpy dst src len => [4#32, dst, src, len]
  | .repeatwrite dst val n => [5#32, dst, val, n]

def Call.header (call : Call) : List Byte := call.request.flatMap bytes32

def Call.payload : Call → List Byte
  | .write _ data => data
  | _ => []

/-- How many bytes are received before the response. -/
def Call.expected : Call → Nat
  | .read _ length => length.toNat
  | _ => 0

/-- Where a method of the client is. An exception ends in `failed`. -/
inductive Client where
  | idle
  | send (call : Call) (rest : List Byte)
  | recv (call : Call) (data : List Byte)
  | response (call : Call) (data : List Byte)
  | failed
  deriving DecidableEq

def Client.call : Client → Option Call
  | .send call _ | .recv call _ | .response call _ => some call
  | .idle | .failed => none

/-- Where the client goes on when `rest` is still to be sent and `data` was received. -/
def Client.next (call : Call) (rest data : List Byte) : Client :=
  if rest ≠ [] then .send call rest
  else if data.length < call.expected then .recv call data
  else .response call data

/-- What the method returns for the response; `none` where `struct.unpack` fails. -/
def Call.answer (call : Call) (data response : List Byte) : Option Result :=
  if response.length < 4 then none
  else
    let ret := word response 0
    match call with
    | .kill => some (.code ret)
    | .read _ _ => some (if ret = 0#32 then .data data else .error)
    | .svc _ _ =>
        if ret = 0#32 then
          if response.length = 8 then some (.code (word response 4)) else none
        else some .error
    | _ => some (if ret = 0#32 then .code ret else .error)

end Client

section Step

/-- A client and the server, and the bytes on their way. `results` and `commands` record what the
calls returned and what each `recv` of a command gave the server. -/
structure State (K : Type) where
  server : Server K
  client : Client
  calls : List Call
  results : List Result
  toServer : List Byte
  toClient : List Byte
  commands : List (List Byte)

/-- Four steps of the client, then four of the server. `k` is what `send` or `recv` returns; in
`fails` it is an error, such as -100 where there is no memory for the buffer. The response gets
lost unless it is `replied`: the result of its `send` is not looked at. -/
inductive Action where
  | call
  | sendData (k : Nat)
  | recvData (k : Nat)
  | recvResponse (k : Nat)
  | recvCommand (k : Nat) (replied : Bool)
  | recvBytes (k : Nat) (replied : Bool)
  | sendBytes (k : Nat) (replied : Bool)
  | fails (ret : Word) (replied : Bool)

variable {K : Type}

/-- `recv` gives out between 1 and `room` of the bytes that have come, and 0 at the end. -/
def Arrives (stream : List Byte) (ended : Bool) (room k : Nat) : Prop :=
  (0 < k ∧ k ≤ room ∧ k ≤ stream.length) ∨ (k = 0 ∧ stream = [] ∧ ended = true)

instance (stream : List Byte) (ended : Bool) (room k : Nat) :
    Decidable (Arrives stream ended room k) :=
  inferInstanceAs (Decidable (_ ∨ _))

def State.ended (s : State K) : Bool := s.server.pc = .closed

/-- The server did something and sent some bytes; the response is what is in `out`. -/
def State.serve (s : State K) (sent : List Byte) (out : Server K × List Byte) (replied : Bool) :
    State K :=
  { s with
    server := out.1
    toClient := s.toClient ++ (sent ++ if replied then out.2 else []) }

/-- A write of nothing returns at once, every other call sends its request. -/
def State.begin (s : State K) (rest : List Call) : Call → State K
  | .write _ [] => { s with calls := rest, results := s.results ++ [.code 0#32] }
  | call =>
      { s with
        calls := rest
        toServer := s.toServer ++ call.header
        client := .next call call.payload [] }

def step (ios : Ios K) (s : State K) : Action → Option (State K)
  | .call =>
      match s.client, s.calls with
      | .idle, call :: rest => some (s.begin rest call)
      | _, _ => none
  | .sendData k =>
      match s.client with
      | .send call rest =>
          if 0 < k ∧ k ≤ rest.length then
            some { s with
              toServer := s.toServer ++ rest.take k
              client := .next call (rest.drop k) [] }
          else none
      | _ => none
  | .recvData k =>
      match s.client with
      | .recv call data =>
          if Arrives s.toClient s.ended (call.expected - data.length) k then
            some { s with
              toClient := s.toClient.drop k
              client := .next call [] (data ++ s.toClient.take k) }
          else none
      | _ => none
  | .recvResponse k =>
      match s.client with
      | .response call data =>
          if Arrives s.toClient s.ended 0x600 k then
            match call.answer data (s.toClient.take k) with
            | some result =>
                some { s with
                  toClient := s.toClient.drop k
                  client := .idle
                  results := s.results ++ [result] }
            | none => some { s with toClient := s.toClient.drop k, client := .failed }
          else none
      | _ => none
  | .recvCommand k replied =>
      match s.server.pc with
      | .recv =>
          if Arrives s.toServer false 0x600 k then
            let received := s.toServer.take k
            let server :=
              { s.server with commandBuffer := received ++ s.server.commandBuffer.drop k }
            some (State.serve
              { s with toServer := s.toServer.drop k, commands := s.commands ++ [received] }
              [] (serverCommandHandler ios server k) replied)
          else none
      | _ => none
  | .recvBytes k replied =>
      match s.server.pc with
      | .write dst length offset =>
          if Arrives s.toServer false (length - offset).toNat k then
            some (State.serve { s with toServer := s.toServer.drop k } []
              (writeRound s.server dst length offset (s.toServer.take k) (BitVec.ofNat 32 k))
              replied)
          else none
      | _ => none
  | .sendBytes k replied =>
      match s.server.pc with
      | .read src length offset =>
          if src + offset ≠ 0#32 ∧ 0 < k ∧ k ≤ (length - offset).toNat then
            some (s.serve (load s.server.console.mem (src + offset) k)
              (readLoop s.server src length (offset + BitVec.ofNat 32 k)) replied)
          else none
      | _ => none
  | .fails ret replied =>
      if ret.toInt ≤ 0 then
        match s.server.pc with
        | .recv => some { s with server := { s.server with pc := .closed } }
        | .write dst length offset =>
            some (s.serve [] (writeRound s.server dst length offset [] ret) replied)
        | .read src length offset =>
            -- a buffer at address 0 is refused first
            if src + offset = 0#32 → ret = -101#32 then
              some (s.serve [] (readLoop s.server src length (offset + ret)) replied)
            else none
        | .closed | .crashed => none
      else none

def run (ios : Ios K) (s : State K) : List Action → Option (State K)
  | [] => some s
  | action :: rest => (step ios s action).bind fun s => run ios s rest

def start (console : Console K) (commandBuffer : List Byte) (calls : List Call) : State K :=
  ⟨⟨console, commandBuffer, false, .recv⟩, .idle, calls, [], [], [], []⟩

end Step

end Stroopwafel.Wupserver
