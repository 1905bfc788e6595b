import Stroopwafel.Layout
import Stroopwafel.Wupserver

set_option autoImplicit false

namespace Stroopwafel.Wupserver

open Memory Layout

section Calls

variable {K : Type} (ios : Ios K)

/-- What a call is for: what becomes of the console, and what the call returns. -/
def Call.effect (console : Console K) : Call → Console K × Result
  | .read addr length => (console, .data (load console.mem addr length.toNat))
  | .write addr data => ({ console with mem := store console.mem addr data }, .code 0#32)
  | .svc svcId arguments =>
      let out := ios.svc svcId (padded 0#32 8 arguments) console
      (out.1, .code out.2)
  | .kill => (console, .code 0#32)
  | .memcpy dst src len =>
      ({ console with mem := move console.mem dst src len.toNat }, .code 0#32)
  | .repeatwrite dst val n =>
      (repeatedWrite ios dst val n.toNat (read32 console.mem dst) console, .code 0#32)

def effects (console : Console K) : List Call → Console K × List Result
  | [] => (console, [])
  | call :: rest =>
      let out := call.effect ios console
      let outs := effects out.1 rest
      (outs.1, out.2 :: outs.2)

/-- The commands that the server should take from the stream for a call. -/
def Call.commands : Call → List (List Byte)
  | .write _ [] => []
  | call => [call.header]

/-- What the server did for the call in flight: nothing yet, a part of a write, or all of it. -/
inductive Between (console : Console K) :
    Option Call → Console K → List (List Byte) → Prop where
  | before (call : Option Call) : Between console call console []
  | writing (addr : Word) (data : List Byte) (offset : Nat) :
      Between console (some (.write addr data))
        { console with mem := store console.mem addr (data.take offset) }
        (Call.write addr data).commands
  | after (call : Call) : Between console (some call) (call.effect ios console).1 call.commands

/-- The calls are carried out in order, each for what it returns, and none gets stuck. -/
structure Correct (calls : List Call) (console : Console K) (s : State K) : Prop where
  results : s.results = (effects ios console (calls.take s.results.length)).2
  carriedOut : ∃ taken,
    s.commands = (calls.take s.results.length).flatMap Call.commands ++ taken ∧
    Between ios (effects ios console (calls.take s.results.length)).1
      calls[s.results.length]? s.server.console taken
  client : s.client ≠ .failed
  server : s.server.pc ≠ .crashed
  progress : s.results.length < calls.length → ∃ action, (step ios s action).isSome

def Call.WellFormed : Call → Prop
  | .write _ data => data.length < 2 ^ 32
  | .svc _ arguments => arguments.length ≤ 8
  | _ => True

/-- No bytes are received for address 0. -/
def Addressed (s : State K) : Prop :=
  match s.server.pc with
  | .write dst _ offset => dst + offset ≠ 0#32
  | _ => True

instance (s : State K) : Decidable (Addressed s) := by
  unfold Addressed
  split <;> infer_instance

/-- The server takes exactly the request of the call in flight for a command, and the client the
whole response. No buffer of a transfer is at address 0, and no `recv` or `send` fails. -/
def Conforms (s : State K) : Action → Prop
  | .recvCommand k replied =>
      s.client.call.map (fun call => call.header.length) = some k ∧ replied = true
  | .recvResponse k => k = s.toClient.length
  | .recvBytes _ replied => Addressed s ∧ replied = true
  | .sendBytes _ replied => replied = true
  | .fails _ _ => False
  | _ => True

instance (s : State K) (action : Action) : Decidable (Conforms s action) := by
  unfold Conforms
  split <;> infer_instance

/-- Every step of the run conforms. -/
def Conforming (s : State K) : List Action → Prop
  | [] => True
  | action :: rest => Conforms s action ∧ ∀ t ∈ step ios s action, Conforming t rest

instance decidableConforming (s : State K) (actions : List Action) :
    Decidable (Conforming ios s actions) :=
  match actions with
  | [] => isTrue trivial
  | action :: rest =>
      have := fun t => decidableConforming t rest
      inferInstanceAs (Decidable (Conforms s action ∧ ∀ t ∈ step ios s action, _))

/-- No call is made after a kill. -/
def KillLast (calls : List Call) : Prop :=
  ∀ call ∈ calls.dropLast, call ≠ .kill

instance (calls : List Call) : Decidable (KillLast calls) :=
  inferInstanceAs (Decidable (∀ call ∈ calls.dropLast, call ≠ .kill))

theorem KillLast.rest {calls : List Call} (last : KillLast calls) (past rest : List Call)
    (split : calls = past ++ .kill :: rest) : rest = [] := by
  cases rest with
  | nil => rfl
  | cons next rest =>
      apply absurd rfl (last .kill ?_)
      rw [split, List.dropLast_append_of_ne_nil (by simp), List.dropLast_cons_of_ne_nil (by simp)]
      exact List.mem_append_right _ (List.mem_cons_self ..)

end Calls

section Words

theorem header_length (call : Call) : call.header.length = 4 * call.request.length :=
  flatMap_bytes32_length call.request

theorem header_pos (call : Call) : 0 < call.header.length := by
  rw [header_length]
  cases call <;> simp [Call.request]

/-- The command that the server reads is the request of the client. -/
theorem word_header (call : Call) (stale : List Byte) (i : Nat)
    (inside : i < call.request.length) :
    word (call.header ++ stale) (4 * i) = call.request[i] := by
  rw [word_append _ _ _ (by rw [header_length]; omega), Call.header, word_flatMap,
    List.getElem?_eq_getElem inside]
  rfl

theorem svcArguments_header (svcId : Word) (arguments : List Word) (stale : List Byte) :
    svcArguments ((Call.svc svcId arguments).header ++ stale) (4 * arguments.length) =
      padded 0#32 8 arguments := by
  have split : (Call.svc svcId arguments).header =
      (bytes32 2#32 ++ bytes32 svcId) ++ arguments.flatMap bytes32 := by
    simp only [Call.header, Call.request, List.flatMap_cons, List.append_assoc]
  have received : (((Call.svc svcId arguments).header ++ stale).drop 8).take
      (4 * arguments.length) = arguments.flatMap bytes32 := by
    rw [split, List.append_assoc, List.drop_left' (by simp), ← flatMap_bytes32_length,
      List.take_left]
  unfold svcArguments padded
  simp only [received, word_flatMap]

end Words

section Stages

variable {K : Type} (ios : Ios K)

/-- All bytes that the server sends for a call. -/
def Call.output (console : Console K) : Call → List Byte
  | .read addr length => load console.mem addr length.toNat ++ bytes32 0#32
  | .svc svcId arguments =>
      bytes32 0#32 ++ bytes32 (ios.svc svcId (padded 0#32 8 arguments) console).2
  | _ => bytes32 0#32

/-- How far the server is with a call: the bytes that it still has to take, those that it has
sent, and the command that it took. -/
inductive Stage (console : Console K) :
    Call → Server K → List Byte → List Byte → List (List Byte) → Prop where
  | requested (call : Call) (commandBuffer : List Byte) :
      Stage console call ⟨console, commandBuffer, false, .recv⟩
        (call.header ++ call.payload) [] []
  | writing (addr : Word) (data : List Byte) (offset : Nat) (commandBuffer : List Byte)
      (inside : offset < data.length) (bound : data.length < 2 ^ 32) :
      Stage console (.write addr data)
        ⟨{ console with mem := store console.mem addr (data.take offset) }, commandBuffer, false,
          .write addr (BitVec.ofNat 32 data.length) (BitVec.ofNat 32 offset)⟩
        (data.drop offset) [] [(Call.write addr data).header]
  | reading (addr length : Word) (offset : Nat) (commandBuffer : List Byte)
      (inside : offset < length.toNat) :
      Stage console (.read addr length)
        ⟨console, commandBuffer, false, .read addr length (BitVec.ofNat 32 offset)⟩
        [] (load console.mem addr offset) [(Call.read addr length).header]
  | done (call : Call) (server : Server K)
      (carriedOut : server.console = (call.effect ios console).1)
      (pc : (server.pc = .recv ∧ server.serverKilled = false) ∨
        (server.pc = .closed ∧ call = .kill)) :
      Stage console call server [] (call.output ios console) [call.header]

section Inversion

variable {ios : Ios K} {console : Console K} {call : Call} {server : Server K}
  {input output : List Byte} {taken : List (List Byte)}

theorem Stage.recv (stage : Stage ios console call server input output taken)
    (pc : server.pc = .recv) (more : input ≠ []) :
    server = ⟨console, server.commandBuffer, false, .recv⟩ ∧
      input = call.header ++ call.payload ∧ output = [] ∧ taken = [] := by
  cases stage with
  | requested => exact ⟨rfl, rfl, rfl, rfl⟩
  | writing => cases pc
  | reading => cases pc
  | done => exact absurd rfl more

theorem Stage.write {dst length offset : Word}
    (stage : Stage ios console call server input output taken)
    (pc : server.pc = .write dst length offset) :
    ∃ data n, call = .write dst data ∧ n < data.length ∧ data.length < 2 ^ 32 ∧
      length = BitVec.ofNat 32 data.length ∧ offset = BitVec.ofNat 32 n ∧
      server = ⟨{ console with mem := store console.mem dst (data.take n) },
        server.commandBuffer, false, server.pc⟩ ∧
      input = data.drop n ∧ output = [] ∧ taken = [call.header] := by
  cases stage with
  | requested => cases pc
  | writing addr data n commandBuffer inside bound =>
      cases pc
      exact ⟨data, n, rfl, inside, bound, rfl, rfl, rfl, rfl, rfl, rfl⟩
  | reading => cases pc
  | done _ _ carriedOut ended =>
      rcases ended with ⟨ready, -⟩ | ⟨closed, -⟩
      · cases ready.symm.trans pc
      · cases closed.symm.trans pc

theorem Stage.read {src length offset : Word}
    (stage : Stage ios console call server input output taken)
    (pc : server.pc = .read src length offset) :
    ∃ n, call = .read src length ∧ n < length.toNat ∧ offset = BitVec.ofNat 32 n ∧
      server = ⟨console, server.commandBuffer, false, server.pc⟩ ∧
      input = [] ∧ output = load console.mem src n ∧ taken = [call.header] := by
  cases stage with
  | requested => cases pc
  | writing => cases pc
  | reading addr length n commandBuffer inside =>
      cases pc
      exact ⟨n, rfl, inside, rfl, rfl, rfl, rfl, rfl⟩
  | done _ _ carriedOut ended =>
      rcases ended with ⟨ready, -⟩ | ⟨closed, -⟩
      · cases ready.symm.trans pc
      · cases closed.symm.trans pc

/-- The response comes last, and so does the end of the stream. -/
theorem Stage.response (stage : Stage ios console call server input output taken)
    (ended : call.expected < output.length ∨ server.pc = .closed) :
    input = [] ∧ output = call.output ios console ∧ taken = [call.header] ∧
      server.console = (call.effect ios console).1 ∧
      ((server.pc = .recv ∧ server.serverKilled = false) ∨
        (server.pc = .closed ∧ call = .kill)) := by
  cases stage with
  | requested => rcases ended with more | closed <;> contradiction
  | writing => rcases ended with more | closed <;> contradiction
  | reading addr length n commandBuffer inside =>
      rcases ended with more | closed
      · rw [load_length] at more
        exact absurd inside (Nat.lt_asymm more)
      · contradiction
  | done _ _ carriedOut pc => exact ⟨rfl, rfl, rfl, carriedOut, pc⟩

end Inversion

/-- A call is done with the response 0, after the bytes that were sent before. -/
theorem respond_done (console : Console K) (call : Call) (server : Server K) (sent : List Byte)
    (output : call.output ios console = sent ++ bytes32 0#32)
    (carriedOut : server.console = (call.effect ios console).1)
    (alive : server.serverKilled = false) :
    Stage ios console call (respond server 4).1 [] (sent ++ (respond server 4).2)
      [call.header] := by
  rw [respond_four, ← output]
  exact .done call _ carriedOut (Or.inl (respond_alive server 4 alive))

theorem writeLoop_stage (console : Console K) (addr : Word) (data : List Byte) (offset : Nat)
    (commandBuffer : List Byte) (pc : Pc) (within : offset ≤ data.length)
    (bound : data.length < 2 ^ 32) :
    let out := writeLoop
      ⟨{ console with mem := store console.mem addr (data.take offset) }, commandBuffer, false, pc⟩
      addr (BitVec.ofNat 32 data.length) (BitVec.ofNat 32 offset)
    Stage ios console (.write addr data) out.1 (data.drop offset) out.2
      [(Call.write addr data).header] := by
  intro out
  by_cases inside : offset < data.length
  · have lower : (BitVec.ofNat 32 offset : Word) < BitVec.ofNat 32 data.length := by bv_omega
    simp only [out, writeLoop, if_pos lower]
    exact .writing addr data offset commandBuffer inside bound
  · have ended : ¬ (BitVec.ofNat 32 offset : Word) < BitVec.ofNat 32 data.length := by bv_omega
    simp only [out, writeLoop, if_neg ended, List.drop_eq_nil_of_le (Nat.le_of_not_lt inside),
      List.take_of_length_le (Nat.le_of_not_lt inside)]
    exact respond_done ios console (.write addr data) _ [] rfl rfl rfl

theorem readLoop_stage (console : Console K) (addr length : Word) (offset : Nat)
    (commandBuffer : List Byte) (pc : Pc) (within : offset ≤ length.toNat) :
    let out := readLoop ⟨console, commandBuffer, false, pc⟩ addr length (BitVec.ofNat 32 offset)
    Stage ios console (.read addr length) out.1 [] (load console.mem addr offset ++ out.2)
      [(Call.read addr length).header] := by
  intro out
  by_cases inside : offset < length.toNat
  · have lower : BitVec.ofNat 32 offset < length := by bv_omega
    simp only [out, readLoop, if_pos lower, List.append_nil]
    exact .reading addr length offset commandBuffer inside
  · have ended : ¬ BitVec.ofNat 32 offset < length := by bv_omega
    have whole : offset = length.toNat := by omega
    simp only [out, readLoop, if_neg ended]
    rw [whole]
    exact respond_done ios console (.read addr length) _ _ rfl rfl rfl

theorem writeRound_stage (console : Console K) (addr : Word) (data : List Byte) (n k : Nat)
    (commandBuffer : List Byte) (pc : Pc) (within : n + k ≤ data.length)
    (bound : data.length < 2 ^ 32) (buffer : addr + BitVec.ofNat 32 n ≠ 0#32) :
    let out := writeRound
      ⟨{ console with mem := store console.mem addr (data.take n) }, commandBuffer, false, pc⟩
      addr (BitVec.ofNat 32 data.length) (BitVec.ofNat 32 n) ((data.drop n).take k)
      (BitVec.ofNat 32 k)
    Stage ios console (.write addr data) out.1 (data.drop (n + k)) out.2
      [(Call.write addr data).header] := by
  have loop := writeLoop_stage ios console addr data (n + k) commandBuffer pc within bound
  have stored : recvInto (store console.mem addr (data.take n)) (addr + BitVec.ofNat 32 n)
      ((data.drop n).take k) = store console.mem addr (data.take (n + k)) := by
    have length : (data.take n).length = n := List.length_take_of_le (by omega)
    have joined := store_append console.mem addr (data.take n) ((data.drop n).take k)
      (by rw [length, List.length_take, List.length_drop]; omega)
    rw [length, ← List.take_add] at joined
    rw [recvInto, if_neg buffer, joined]
  rw [BitVec.ofNat_add] at loop
  simp only [writeRound, stored]
  exact loop

theorem readRound_stage (console : Console K) (addr length : Word) (n k : Nat)
    (commandBuffer : List Byte) (pc : Pc) (within : n + k ≤ length.toNat) :
    let out := readRound ⟨console, commandBuffer, false, pc⟩ addr length (BitVec.ofNat 32 n) k
      (BitVec.ofNat 32 k)
    Stage ios console (.read addr length) out.1 [] (load console.mem addr n ++ out.2)
      [(Call.read addr length).header] := by
  have loop := readLoop_stage ios console addr length (n + k) commandBuffer pc within
  simp only [BitVec.ofNat_add, load_append, List.append_assoc] at loop
  exact loop

/-- The server carries out the command whose request it took. -/
theorem handler_stage (console : Console K) (call : Call) (stale : List Byte)
    (wellFormed : call.WellFormed) :
    let out := serverCommandHandler ios ⟨console, call.header ++ stale, false, .recv⟩
      call.header.length
    Stage ios console call out.1 call.payload out.2 [call.header] := by
  intro out
  have command := word_header call stale
  have taken : out = serverCommand ios ⟨console, call.header ++ stale, false, .recv⟩
      call.header.length := serverCommandHandler_eq ios _ _ (header_pos call)
  rw [taken]
  cases call with
  | read addr length =>
      have loop := readLoop_stage ios console addr length 0
        ((Call.read addr length).header ++ stale) .recv (Nat.zero_le _)
      simp only [serverCommand, command 0 (by simp [Call.request]),
        command 1 (by simp [Call.request]), command 2 (by simp [Call.request])]
      exact loop
  | write addr data =>
      have loop := writeLoop_stage ios console addr data 0
        ((Call.write addr data).header ++ stale) .recv (Nat.zero_le _) wellFormed
      simp only [serverCommand, command 0 (by simp [Call.request]),
        command 1 (by simp [Call.request]), command 2 (by simp [Call.request])]
      exact loop
  | svc svcId arguments =>
      have count : (argumentBytes (Call.svc svcId arguments).header.length).toNat =
          4 * arguments.length := by
        have few : arguments.length ≤ 8 := wellFormed
        have size : (Call.svc svcId arguments).header.length = 8 + 4 * arguments.length := by
          simp only [header_length, Call.request, List.length_cons]
          omega
        rw [size, argumentBytes_whole _ (by omega) (by omega)]
        omega
      have result : serverCommand ios ⟨console, (Call.svc svcId arguments).header ++ stale, false,
          .recv⟩ (Call.svc svcId arguments).header.length = respond
          ⟨(ios.svc svcId (padded 0#32 8 arguments) console).1,
            ((Call.svc svcId arguments).header ++ stale).take 4 ++
              bytes32 (ios.svc svcId (padded 0#32 8 arguments) console).2 ++
              ((Call.svc svcId arguments).header ++ stale).drop 8, false, .recv⟩ 8 := by
        have few : ¬ 32 < 4 * arguments.length := by
          have bound : arguments.length ≤ 8 := wellFormed
          omega
        simp only [serverCommand, command 0 (by simp [Call.request]),
          command 1 (by simp [Call.request]), count, svcArguments_header]
        exact if_neg few
      have front : (((Call.svc svcId arguments).header ++ stale).take 4).length = 4 := by
        simp only [List.length_take, List.length_append, header_length, Call.request,
          List.length_cons]
        omega
      rw [result]
      have sent : (respond _ 8).2 = _ :=
        respond_eight (⟨(ios.svc svcId (padded 0#32 8 arguments) console).1,
          ((Call.svc svcId arguments).header ++ stale).take 4 ++
            bytes32 (ios.svc svcId (padded 0#32 8 arguments) console).2 ++
            ((Call.svc svcId arguments).header ++ stale).drop 8, false, .recv⟩ : Server K)
          _ _ _ front rfl
      exact sent ▸ .done (.svc svcId arguments) _ rfl (Or.inl (respond_alive _ 8 rfl))
  | kill =>
      simp only [serverCommand, command 0 (by simp [Call.request])]
      have killed : (respond (⟨console, Call.kill.header ++ stale, true, .recv⟩ : Server K) 4).2 =
          bytes32 0#32 := respond_four _
      exact killed ▸ .done .kill _ rfl (Or.inr ⟨rfl, rfl⟩)
  | memcpy dst src len =>
      simp only [serverCommand, command 0 (by simp [Call.request]),
        command 1 (by simp [Call.request]), command 2 (by simp [Call.request]),
        command 3 (by simp [Call.request])]
      exact respond_done ios console (.memcpy dst src len) _ [] rfl rfl rfl
  | repeatwrite dst val n =>
      simp only [serverCommand, command 0 (by simp [Call.request]),
        command 1 (by simp [Call.request]), command 2 (by simp [Call.request]),
        command 3 (by simp [Call.request])]
      exact respond_done ios console (.repeatwrite dst val n) _ [] rfl rfl rfl

end Stages

section Positions

variable {K : Type} (ios : Ios K)

/-- Where the two sides are, with `console` as it was before the call in flight. -/
inductive Position (console : Console K) :
    Option Call → List (List Byte) → State K → Prop where
  | idle (s : State K) (client : s.client = .idle) (toServer : s.toServer = [])
      (toClient : s.toClient = []) (same : s.server.console = console)
      (pc : (s.server.pc = .recv ∧ s.server.serverKilled = false) ∨
        (s.server.pc = .closed ∧ s.calls = [])) :
      Position console none [] s
  | inFlight (s : State K) (call : Call) (wellFormed : call.WellFormed)
      (last : call = .kill → s.calls = []) (sends : call.commands = [call.header])
      (taken : List (List Byte))
      (rest data input output : List Byte)
      (stage : Stage ios console call s.server input output taken)
      (toServer : s.toServer ++ rest = input) (toClient : data ++ s.toClient = output)
      (client : s.client = .next call rest data)
      (unsent : rest.length ≤ call.payload.length) (room : data.length ≤ call.expected) :
      Position console (some call) taken s

theorem next_send {call call' : Call} {rest rest' data : List Byte}
    (client : Client.next call rest data = .send call' rest') :
    call' = call ∧ rest' = rest ∧ rest ≠ [] := by
  unfold Client.next at client
  split at client
  · cases client
    exact ⟨rfl, rfl, by assumption⟩
  · split at client <;> cases client

theorem next_recv {call call' : Call} {rest data data' : List Byte}
    (client : Client.next call rest data = .recv call' data') :
    call' = call ∧ data' = data ∧ rest = [] ∧ data.length < call.expected := by
  unfold Client.next at client
  split at client
  · cases client
  · rename_i sent
    split at client
    · cases client
      exact ⟨rfl, rfl, Decidable.not_not.mp sent, by assumption⟩
    · cases client

theorem next_response {call call' : Call} {rest data data' : List Byte}
    (client : Client.next call rest data = .response call' data') :
    call' = call ∧ data' = data ∧ rest = [] ∧ call.expected ≤ data.length := by
  unfold Client.next at client
  split at client
  · cases client
  · rename_i sent
    split at client
    · cases client
    · rename_i whole
      cases client
      exact ⟨rfl, rfl, Decidable.not_not.mp sent, Nat.le_of_not_lt whole⟩

theorem next_call (call : Call) (rest data : List Byte) :
    (Client.next call rest data).call = some call := by
  unfold Client.next
  split
  · rfl
  · split <;> rfl

/-- A call that sends data receives none before the response. -/
theorem expected_of_payload (call : Call) (sends : call.payload ≠ []) : call.expected = 0 := by
  cases call <;> first | rfl | exact absurd rfl sends

theorem output_length (console : Console K) (call : Call) :
    call.expected + 4 ≤ (call.output ios console).length ∧
      (call.output ios console).length ≤ call.expected + 8 := by
  cases call <;> simp [Call.expected, Call.output]

/-- The whole response gives the call its result. -/
theorem answer_output (console : Console K) (call : Call) (data response : List Byte)
    (sends : call.commands = [call.header])
    (output : data ++ response = call.output ios console) (whole : data.length = call.expected) :
    call.answer data response = some (call.effect ios console).2 := by
  cases call with
  | read addr length =>
      obtain ⟨loaded, zero⟩ := List.append_inj output (by simpa [Call.expected] using whole)
      subst loaded zero
      rfl
  | svc svcId arguments =>
      have empty : data = [] := List.eq_nil_of_length_eq_zero whole
      subst empty
      rw [List.nil_append] at output
      subst output
      have ret := word_after (bytes32 0#32)
        (bytes32 (ios.svc svcId (padded 0#32 8 arguments) console).2) 0
      simp only [bytes32_length, word_bytes32] at ret
      have first := word_append (bytes32 0#32)
        (bytes32 (ios.svc svcId (padded 0#32 8 arguments) console).2) 0 (by simp)
      simp only [word_bytes32] at first
      simp only [Call.answer, Call.output, first, List.length_append, bytes32_length, if_true]
      simp only [Nat.reduceAdd, Nat.reduceLT, if_false, ret]
      rfl
  | write _ _ | kill | memcpy _ _ _ | repeatwrite _ _ _ =>
      have empty : data = [] := List.eq_nil_of_length_eq_zero whole
      subst empty
      rw [List.nil_append] at output
      subst output
      simp only [Call.answer, Call.output, word_bytes32, bytes32_length, Nat.lt_irrefl, if_false,
        if_true, Call.effect]

/-- What one step of a conforming run does to a call. -/
inductive Moves (console : Console K) (current : Option Call) (taken : List (List Byte))
    (s s' : State K) : Prop where
  | within (new : List (List Byte)) (calls : s'.calls = s.calls) (results : s'.results = s.results)
      (commands : s'.commands = s.commands ++ new)
      (position : Position ios console current (taken ++ new) s')
  | begins (call : Call) (idle : current = none) (calls : s.calls = call :: s'.calls)
      (results : s'.results = s.results) (commands : s'.commands = s.commands)
      (position : Position ios console (some call) taken s')
  | returns (call : Call) (inFlight : current = some call) (calls : s'.calls = s.calls)
      (results : s'.results = s.results ++ [(call.effect ios console).2])
      (commands : s'.commands = s.commands) (whole : taken = call.commands)
      (position : Position ios (call.effect ios console).1 none [] s')
  | passes (call : Call) (idle : current = none) (calls : s.calls = call :: s'.calls)
      (results : s'.results = s.results ++ [(call.effect ios console).2])
      (commands : s'.commands = s.commands) (nothing : taken = [] ∧ call.commands = [])
      (position : Position ios (call.effect ios console).1 none [] s')

theorem call_moves (console : Console K) (s s' : State K) (call : Call) (rest : List Call)
    (calls : s.calls = call :: rest) (wellFormed : call.WellFormed)
    (last : call = .kill → rest = []) (position : Position ios console none [] s)
    (begin : s' = s.begin rest call) : Moves ios console none [] s s' := by
  cases position with
  | idle _ client toServer toClient same pc =>
      have alive : s.server.pc = .recv ∧ s.server.serverKilled = false := by
        rw [calls] at pc
        simpa using pc
      have sends : call.commands = [call.header] →
          s.begin rest call = { s with
            calls := rest, toServer := s.toServer ++ call.header,
            client := .next call call.payload [] } →
          Moves ios console none [] s s' := by
        intro sends result
        rw [result] at begin
        subst begin
        have server : s.server = ⟨console, s.server.commandBuffer, false, .recv⟩ := by
          rw [← same, ← alive.1, ← alive.2]
        refine Moves.begins call rfl calls rfl rfl ?_
        have stage : Stage ios console call s.server (call.header ++ call.payload) [] [] := by
          rw [server]
          exact .requested call _
        refine Position.inFlight _ call wellFormed last sends [] call.payload [] _ [] stage ?_
          toClient rfl (Nat.le_refl _) (Nat.zero_le _)
        rw [toServer]
        rfl
      cases call with
      | write addr data =>
          cases data with
          | nil =>
              subst begin
              refine Moves.passes (.write addr []) rfl calls rfl rfl ⟨rfl, rfl⟩ ?_
              exact .idle _ client toServer toClient same (Or.inl alive)
          | cons b data => exact sends rfl rfl
      | read _ _ | svc _ _ | kill | memcpy _ _ _ | repeatwrite _ _ _ => exact sends rfl rfl

theorem sendData_moves (console : Console K) (current : Option Call) (taken : List (List Byte))
    (s s' : State K) (k : Nat) (position : Position ios console current taken s)
    (taking : step ios s (.sendData k) = some s') : Moves ios console current taken s s' := by
  cases position with
  | idle _ client => simp only [step, client, reduceCtorEq] at taking
  | inFlight _ call wellFormed last sends _ rest data input output stage toServer toClient client
      unsent room =>
      cases hc : s.client with
      | send call' rest' =>
          rw [client] at hc
          obtain ⟨rfl, rfl, some⟩ := next_send hc
          have received : data = [] := by
            have sent : call'.payload ≠ [] := by
              intro none
              rw [none] at unsent
              exact some (List.eq_nil_of_length_eq_zero (Nat.le_zero.mp unsent))
            rw [expected_of_payload call' sent] at room
            exact List.eq_nil_of_length_eq_zero (Nat.le_zero.mp room)
          subst received
          simp only [step, client, hc] at taking
          split at taking
          · cases taking
            refine Moves.within [] rfl rfl (List.append_nil _).symm ?_
            rw [List.append_nil]
            refine Position.inFlight _ call' wellFormed (by exact last) sends taken (rest'.drop k)
              [] input output (by exact stage) ?_ toClient rfl ?_ (Nat.zero_le _)
            · rw [List.append_assoc, List.take_append_drop, toServer]
            · rw [List.length_drop]
              omega
          · cases taking
      | idle | recv _ _ | response _ _ | failed => simp only [step, hc, reduceCtorEq] at taking

theorem arrives_some {stream : List Byte} {room k : Nat} (arrives : Arrives stream false room k) :
    0 < k ∧ k ≤ room ∧ k ≤ stream.length := by
  rcases arrives with some | ended
  · exact some
  · cases ended.2.2

theorem recvData_moves (console : Console K) (current : Option Call) (taken : List (List Byte))
    (s s' : State K) (k : Nat) (position : Position ios console current taken s)
    (taking : step ios s (.recvData k) = some s') : Moves ios console current taken s s' := by
  cases position with
  | idle _ client => simp only [step, client, reduceCtorEq] at taking
  | inFlight _ call wellFormed last sends _ rest data input output stage toServer toClient client
      unsent room =>
      cases hc : s.client with
      | recv call' data' =>
          rw [client] at hc
          obtain ⟨rfl, rfl, rfl, missing⟩ := next_recv hc
          simp only [step, client, hc] at taking
          split at taking
          · rename_i arrives
            cases taking
            have size : k ≤ call'.expected - data'.length := by
              rcases arrives with some | ended
              · exact some.2.1
              · omega
            refine Moves.within [] rfl rfl (List.append_nil _).symm ?_
            rw [List.append_nil]
            refine Position.inFlight _ call' wellFormed (by exact last) sends taken []
              (data' ++ s.toClient.take k) input output (by exact stage) toServer ?_ rfl
              unsent ?_
            · rw [List.append_assoc, List.take_append_drop, toClient]
            · rw [List.length_append, List.length_take]
              omega
          · cases taking
      | idle | send _ _ | response _ _ | failed => simp only [step, hc, reduceCtorEq] at taking

theorem recvResponse_moves (console : Console K) (current : Option Call)
    (taken : List (List Byte)) (s s' : State K) (k : Nat)
    (position : Position ios console current taken s) (conforms : k = s.toClient.length)
    (taking : step ios s (.recvResponse k) = some s') :
    Moves ios console current taken s s' := by
  subst conforms
  cases position with
  | idle _ client => simp only [step, client, reduceCtorEq] at taking
  | inFlight _ call wellFormed last sends _ rest data input output stage toServer toClient client
      unsent room =>
      cases hc : s.client with
      | response call' data' =>
          rw [client] at hc
          obtain ⟨rfl, rfl, rfl, whole⟩ := next_response hc
          have full : data'.length = call'.expected := Nat.le_antisymm room whole
          simp only [step, client, hc] at taking
          split at taking
          · rename_i arrives
            have ended : call'.expected < output.length ∨ s.server.pc = .closed := by
              rcases arrives with some | ⟨-, -, closed⟩
              · left
                rw [← toClient, List.length_append]
                omega
              · exact Or.inr (of_decide_eq_true closed)
            obtain ⟨none, all, took, carriedOut, pc⟩ := stage.response ended
            subst none all
            rw [List.append_nil] at toServer
            rw [List.take_length, List.drop_length,
              answer_output ios console call' data' s.toClient sends toClient full] at taking
            cases taking
            refine Moves.returns call' rfl rfl rfl rfl (took.trans sends.symm) ?_
            refine Position.idle _ rfl toServer rfl carriedOut ?_
            exact pc.imp id fun closed => ⟨closed.1, last closed.2⟩
          · cases taking
      | idle | send _ _ | recv _ _ | failed => simp only [step, hc, reduceCtorEq] at taking

/-- What the server does to a call in flight. -/
theorem serve_moves (console : Console K) (call : Call) (taken new : List (List Byte))
    (s s' : State K) (rest data input output sent : List Byte) (wellFormed : call.WellFormed)
    (last : call = .kill → s.calls = []) (sends : call.commands = [call.header])
    (toClient : data ++ s.toClient = output) (client : s.client = .next call rest data)
    (unsent : rest.length ≤ call.payload.length) (room : data.length ≤ call.expected)
    (stage : Stage ios console call s'.server input (output ++ sent) (taken ++ new))
    (left : s'.toServer ++ rest = input) (gave : s'.toClient = s.toClient ++ sent)
    (commands : s'.commands = s.commands ++ new)
    (same : s'.client = s.client ∧ s'.calls = s.calls ∧ s'.results = s.results) :
    Moves ios console (some call) taken s s' := by
  obtain ⟨sameClient, calls, results⟩ := same
  refine Moves.within new calls results commands ?_
  refine Position.inFlight _ call wellFormed (by rwa [calls]) sends _ rest data input
    (output ++ sent) stage left ?_ (by rwa [sameClient]) unsent room
  rw [gave, ← List.append_assoc, toClient]

theorem recvCommand_moves (console : Console K) (current : Option Call)
    (taken : List (List Byte)) (s s' : State K) (k : Nat)
    (position : Position ios console current taken s)
    (conforms : s.client.call.map (fun call => call.header.length) = some k)
    (taking : step ios s (.recvCommand k true) = some s') :
    Moves ios console current taken s s' := by
  cases position with
  | idle _ client =>
      rw [client] at conforms
      cases conforms
  | inFlight _ call wellFormed last sends _ rest data input output stage toServer toClient client
      unsent room =>
      rw [client, next_call] at conforms
      cases conforms
      cases hpc : s.server.pc with
      | recv =>
          simp only [step, hpc] at taking
          split at taking
          · rename_i arrives
            obtain ⟨some, -, within⟩ := arrives_some arrives
            cases taking
            have more : input ≠ [] := by
              intro none
              rw [none] at toServer
              rw [(List.append_eq_nil_iff.mp toServer).1] at within
              exact absurd within (Nat.not_le_of_lt some)
            obtain ⟨server, all, sent, took⟩ := stage.recv hpc more
            subst all sent took
            have request : s.toServer.take call.header.length = call.header := by
              have front := congrArg (List.take call.header.length) toServer
              rwa [List.take_append_of_le_length within, List.take_left] at front
            have remaining : s.toServer.drop call.header.length ++ rest = call.payload := by
              have back := congrArg (List.drop call.header.length) toServer
              rwa [List.drop_append_of_le_length within, List.drop_left] at back
            have stage' := handler_stage ios console call
              (s.server.commandBuffer.drop call.header.length) wellFormed
            apply serve_moves ios console call [] [call.header] s _ rest data call.payload []
              (serverCommandHandler ios ⟨console,
                call.header ++ s.server.commandBuffer.drop call.header.length, false, .recv⟩
                call.header.length).2 wellFormed last sends toClient client unsent room
            · rw [request, server]
              exact stage'
            · exact remaining
            · rw [request, server]
              rfl
            · rw [request]
              rfl
            · exact ⟨rfl, rfl, rfl⟩
          · cases taking
      | write _ _ _ | read _ _ _ | closed | crashed => simp only [step, hpc, reduceCtorEq] at taking

theorem recvBytes_moves (console : Console K) (current : Option Call)
    (taken : List (List Byte)) (s s' : State K) (k : Nat)
    (position : Position ios console current taken s)
    (conforms : Addressed s) (taking : step ios s (.recvBytes k true) = some s') :
    Moves ios console current taken s s' := by
  cases hpc : s.server.pc with
  | write dst length offset =>
      simp only [Addressed, hpc] at conforms
      cases position with
      | idle _ client _ _ _ pc => simp [hpc] at pc
      | inFlight _ call wellFormed last sends _ rest data input output stage toServer toClient
          client unsent room =>
          obtain ⟨bytes, n, rfl, inside, bound, rfl, rfl, server, all, sent, took⟩ :=
            stage.write hpc
          subst all sent took
          simp only [step, hpc] at taking
          split at taking
          · rename_i arrives
            obtain ⟨-, size, within⟩ := arrives_some arrives
            cases taking
            have fits : n + k ≤ bytes.length := by
              bv_omega
            have received : s.toServer.take k = (bytes.drop n).take k := by
              rw [← toServer, List.take_append_of_le_length within]
            have remaining : s.toServer.drop k ++ rest = bytes.drop (n + k) := by
              have back := congrArg (List.drop k) toServer
              rwa [List.drop_append_of_le_length within, List.drop_drop] at back
            have stage' := writeRound_stage ios console dst bytes n k s.server.commandBuffer
              s.server.pc fits bound conforms
            rw [← server, ← received] at stage'
            exact serve_moves ios console _ _ [] s _ rest data _ [] _ wellFormed last sends
              toClient client unsent room stage' remaining rfl
              (List.append_nil _).symm ⟨rfl, rfl, rfl⟩
          · cases taking
  | recv | read _ _ _ | closed | crashed => simp only [step, hpc, reduceCtorEq] at taking

theorem sendBytes_moves (console : Console K) (current : Option Call)
    (taken : List (List Byte)) (s s' : State K) (k : Nat)
    (position : Position ios console current taken s)
    (taking : step ios s (.sendBytes k true) = some s') :
    Moves ios console current taken s s' := by
  cases hpc : s.server.pc with
  | read src length offset =>
      cases position with
      | idle _ client _ _ _ pc => simp [hpc] at pc
      | inFlight _ call wellFormed last sends _ rest data input output stage toServer toClient
          client unsent room =>
          obtain ⟨n, rfl, inside, rfl, server, all, sent, took⟩ := stage.read hpc
          subst all sent took
          simp only [step, hpc] at taking
          split at taking
          · rename_i takes
            cases taking
            have fits : n + k ≤ length.toNat := by
              bv_omega
            have stage' := readRound_stage ios console src length n k s.server.commandBuffer
              s.server.pc fits
            rw [← server] at stage'
            exact serve_moves ios console _ _ [] s _ rest data _ _ _ wellFormed last sends
              toClient client unsent room stage' toServer rfl
              (List.append_nil _).symm ⟨rfl, rfl, rfl⟩
          · cases taking
  | recv | write _ _ _ | closed | crashed => simp only [step, hpc, reduceCtorEq] at taking

/-- One conforming step. The next call is well formed, and a kill is the last call. -/
theorem step_moves (console : Console K) (current : Option Call) (taken : List (List Byte))
    (s s' : State K) (action : Action) (position : Position ios console current taken s)
    (wellFormed : ∀ call ∈ s.calls, call.WellFormed)
    (last : ∀ rest, s.calls = .kill :: rest → rest = []) (conforms : Conforms s action)
    (taking : step ios s action = some s') : Moves ios console current taken s s' := by
  cases action with
  | call =>
      cases position with
      | idle _ client toServer toClient same pc =>
          cases hcalls : s.calls with
          | nil => simp only [step, client, hcalls, reduceCtorEq] at taking
          | cons call rest =>
              simp only [step, client, hcalls, Option.some.injEq] at taking
              apply call_moves ios console s s' call rest hcalls
              · exact wellFormed call (by rw [hcalls]; exact List.mem_cons_self ..)
              · intro kill
                exact last rest (kill ▸ hcalls)
              · exact .idle _ client toServer toClient same pc
              · exact taking.symm
      | inFlight _ call _ _ _ _ rest data _ _ _ _ _ client =>
          have busy := next_call call rest data
          rw [← client] at busy
          cases hc : s.client with
          | idle =>
              rw [hc] at busy
              cases busy
          | send _ _ | recv _ _ | response _ _ | failed =>
              simp only [step, hc, reduceCtorEq] at taking
  | sendData k => exact sendData_moves ios console current taken s s' k position taking
  | recvData k => exact recvData_moves ios console current taken s s' k position taking
  | recvResponse k =>
      exact recvResponse_moves ios console current taken s s' k position conforms taking
  | recvCommand k replied =>
      obtain ⟨request, rfl⟩ := conforms
      exact recvCommand_moves ios console current taken s s' k position request taking
  | recvBytes k replied =>
      obtain ⟨addressed, rfl⟩ := conforms
      exact recvBytes_moves ios console current taken s s' k position addressed taking
  | sendBytes k replied =>
      obtain rfl := conforms
      exact sendBytes_moves ios console current taken s s' k position taking
  | fails ret replied => exact conforms.elim

theorem arrives_one (b : Byte) (stream : List Byte) (ended : Bool) (room : Nat)
    (some : 0 < room) : Arrives (b :: stream) ended room 1 :=
  Or.inl ⟨Nat.one_pos, some, Nat.succ_le_succ (Nat.zero_le _)⟩

/-- The client gets what the server has sent. -/
theorem response_progress (call : Call) (s : State K) (data : List Byte)
    (client : s.client = .next call [] data) (more : s.toClient ≠ []) :
    ∃ action, (step ios s action).isSome := by
  cases stream : s.toClient with
  | nil => exact absurd stream more
  | cons b rest =>
      by_cases missing : data.length < call.expected
      · have receiving : s.client = .recv call data := client.trans (if_pos missing)
        refine ⟨.recvData 1, ?_⟩
        simp only [step, receiving, stream]
        rw [if_pos (arrives_one b rest _ _ (Nat.sub_pos_of_lt missing))]
        rfl
      · have waiting : s.client = .response call data := client.trans (if_neg missing)
        refine ⟨.recvResponse 1, ?_⟩
        simp only [step, waiting, stream]
        rw [if_pos (arrives_one b rest _ _ (by decide))]
        split <;> rfl

/-- A call in flight can go on. -/
theorem inFlight_progress (console : Console K) (call : Call) (taken : List (List Byte))
    (s : State K) (position : Position ios console (some call) taken s) :
    ∃ action, (step ios s action).isSome := by
  cases position with
  | inFlight _ _ wellFormed last sends _ rest data input output stage toServer toClient client
      unsent room =>
      cases rest with
      | cons b rest =>
          refine ⟨.sendData 1, ?_⟩
          have sending : s.client = .send call (b :: rest) := client
          simp [step, sending]
      | nil =>
          rw [List.append_nil] at toServer
          generalize hserver : s.server = server at stage
          cases stage with
          | requested _ commandBuffer =>
              obtain ⟨b, stream, nonempty⟩ := List.exists_cons_of_length_pos
                (l := call.header ++ call.payload)
                (by rw [List.length_append]; exact Nat.add_pos_left (header_pos call) _)
              refine ⟨.recvCommand 1 true, ?_⟩
              simp only [step, hserver, toServer, nonempty]
              rw [if_pos (arrives_one b stream _ _ (by decide))]
              rfl
          | writing addr bytes offset commandBuffer inside bound =>
              obtain ⟨b, stream, nonempty⟩ := List.exists_cons_of_length_pos
                (l := bytes.drop offset) (by rw [List.length_drop]; omega)
              have room :
                  0 < (BitVec.ofNat 32 bytes.length - BitVec.ofNat 32 offset : Word).toNat := by
                bv_omega
              refine ⟨.recvBytes 1 true, ?_⟩
              simp only [step, hserver, toServer, nonempty]
              rw [if_pos (arrives_one b stream _ _ room)]
              rfl
          | reading addr length offset commandBuffer inside =>
              have room : 0 < 1 ∧ 1 ≤ (length - BitVec.ofNat 32 offset).toNat := by
                bv_omega
              by_cases null : addr + BitVec.ofNat 32 offset = 0#32
              · refine ⟨.fails (-101#32) true, ?_⟩
                simp only [step, hserver]
                rw [if_pos (by decide), if_pos fun _ => trivial]
                rfl
              · refine ⟨.sendBytes 1 true, ?_⟩
                simp only [step, hserver]
                rw [if_pos ⟨null, room⟩]
                rfl
          | done =>
              apply response_progress ios call s data client
              intro none
              have length := (output_length ios console call).1
              rw [none, List.append_nil] at toClient
              rw [← toClient] at length
              omega

theorem effects_concat (console : Console K) (past : List Call) (call : Call) :
    effects ios console (past ++ [call]) =
      ((call.effect ios (effects ios console past).1).1,
        (effects ios console past).2 ++ [(call.effect ios (effects ios console past).1).2]) := by
  induction past generalizing console with
  | nil => rfl
  | cons first past ih => simp only [List.cons_append, effects, ih]

theorem effects_length (console : Console K) (calls : List Call) :
    (effects ios console calls).2.length = calls.length := by
  induction calls generalizing console with
  | nil => rfl
  | cons call rest ih => simp only [effects, List.length_cons, ih]

/-- The calls that returned, the call in flight, and what was taken of it. -/
structure Invariant (calls : List Call) (console : Console K) (past : List Call)
    (current : Option Call) (taken : List (List Byte)) (s : State K) : Prop where
  split : calls = past ++ current.toList ++ s.calls
  results : s.results = (effects ios console past).2
  commands : s.commands = past.flatMap Call.commands ++ taken
  position : Position ios (effects ios console past).1 current taken s

theorem start_invariant (calls : List Call) (console : Console K) (commandBuffer : List Byte) :
    Invariant ios calls console [] none [] (start console commandBuffer calls) :=
  ⟨rfl, rfl, rfl, .idle _ rfl rfl rfl rfl (Or.inl ⟨rfl, rfl⟩)⟩

theorem moves_invariant (calls : List Call) (console : Console K) (past : List Call)
    (current : Option Call) (taken : List (List Byte)) (s s' : State K)
    (inv : Invariant ios calls console past current taken s)
    (moves : Moves ios (effects ios console past).1 current taken s s') :
    ∃ past current taken, Invariant ios calls console past current taken s' := by
  cases moves with
  | within new sameCalls results commands position =>
      refine ⟨past, current, taken ++ new, ?_, ?_, ?_, position⟩
      · rw [sameCalls]
        exact inv.split
      · rw [results]
        exact inv.results
      · rw [commands, inv.commands, List.append_assoc]
  | begins call idle next results commands position =>
      subst idle
      refine ⟨past, some call, taken, ?_, ?_, ?_, position⟩
      · rw [inv.split, next]
        simp
      · rw [results]
        exact inv.results
      · rw [commands]
        exact inv.commands
  | returns call inFlight sameCalls results commands whole position =>
      subst inFlight whole
      refine ⟨past ++ [call], none, [], ?_, ?_, ?_, ?_⟩
      · rw [sameCalls, inv.split]
        simp
      · rw [results, inv.results, effects_concat]
      · rw [commands, inv.commands]
        simp
      · rw [effects_concat]
        exact position
  | passes call idle next results commands nothing position =>
      subst idle
      refine ⟨past ++ [call], none, [], ?_, ?_, ?_, ?_⟩
      · rw [inv.split, next]
        simp
      · rw [results, inv.results, effects_concat]
      · rw [commands, inv.commands, nothing.1]
        simp [nothing.2]
      · rw [effects_concat]
        exact position

theorem run_invariant (calls : List Call) (console : Console K) (actions : List Action)
    (wellFormed : ∀ call ∈ calls, call.WellFormed) (last : KillLast calls) (past : List Call)
    (current : Option Call) (taken : List (List Byte)) (s s' : State K)
    (inv : Invariant ios calls console past current taken s)
    (conforming : Conforming ios s actions) (ran : run ios s actions = some s') :
    ∃ past current taken, Invariant ios calls console past current taken s' := by
  induction actions generalizing past current taken s with
  | nil =>
      cases ran
      exact ⟨past, current, taken, inv⟩
  | cons action rest ih =>
      obtain ⟨conforms, later⟩ := conforming
      cases next : step ios s action with
      | none => simp [run, next] at ran
      | some t =>
          simp only [run, next, Option.bind_some] at ran
          have moves : Moves ios (effects ios console past).1 current taken s t := by
            apply step_moves ios _ current taken s t action inv.position _ _ conforms next
            · intro call member
              apply wellFormed
              rw [inv.split]
              exact List.mem_append_right _ member
            · intro rest kill
              apply last.rest (past ++ current.toList) rest
              rw [inv.split, kill]
          obtain ⟨past, current, taken, inv⟩ := moves_invariant ios calls console past current
            taken s t inv moves
          exact ih past current taken t inv (later t next) ran

theorem position_between (console : Console K) (current : Option Call)
    (taken : List (List Byte)) (s : State K) (position : Position ios console current taken s) :
    Between ios console (current.toList ++ s.calls)[0]? s.server.console taken := by
  cases position with
  | idle _ client toServer toClient same pc =>
      rw [same]
      exact .before _
  | inFlight _ call wellFormed last sends _ rest data input output stage =>
      generalize s.server = server at stage
      cases stage with
      | requested => exact .before _
      | writing addr bytes offset => exact sends ▸ .writing addr bytes offset
      | reading addr length => exact sends ▸ .after (.read addr length)
      | done _ _ carriedOut => exact carriedOut ▸ sends ▸ .after call

theorem position_alive (console : Console K) (current : Option Call)
    (taken : List (List Byte)) (s : State K) (position : Position ios console current taken s) :
    s.client ≠ .failed ∧ s.server.pc ≠ .crashed := by
  cases position with
  | idle _ client toServer toClient same pc =>
      rw [client]
      refine ⟨nofun, fun crashed => ?_⟩
      simp [crashed] at pc
  | inFlight _ call wellFormed last sends _ rest data input output stage toServer toClient client =>
      constructor
      · intro failed
        have busy := next_call call rest data
        rw [← client, failed] at busy
        cases busy
      · generalize s.server = server at stage
        cases stage with
        | requested | writing | reading => exact nofun
        | done _ _ carriedOut pc =>
            intro crashed
            simp [crashed] at pc

theorem invariant_correct (calls : List Call) (console : Console K) (past : List Call)
    (current : Option Call) (taken : List (List Byte)) (s : State K)
    (inv : Invariant ios calls console past current taken s) : Correct ios calls console s := by
  have done : s.results.length = past.length := by
    rw [inv.results, effects_length]
  have returned : calls.take s.results.length = past := by
    rw [done, inv.split, List.append_assoc, List.take_left]
  have next : calls[s.results.length]? = (current.toList ++ s.calls)[0]? := by
    rw [done, inv.split, List.append_assoc, List.getElem?_append_right (Nat.le_refl _),
      Nat.sub_self]
  have alive := position_alive ios _ current taken s inv.position
  refine ⟨?_, ⟨taken, ?_, ?_⟩, alive.1, alive.2, ?_⟩
  · rw [returned]
    exact inv.results
  · rw [returned]
    exact inv.commands
  · rw [returned, next]
    exact position_between ios _ current taken s inv.position
  · intro more
    cases current with
    | some call => exact inFlight_progress ios _ call taken s inv.position
    | none =>
        have split := inv.split
        cases position : inv.position with
        | idle _ client =>
            refine ⟨.call, ?_⟩
            cases hcalls : s.calls with
            | nil => simp [split, hcalls, done] at more
            | cons call rest => simp [step, client, hcalls]

end Positions

section Correctness

variable {K : Type}

theorem Between.taken {ios : Ios K} {console console' : Console K} {call : Option Call}
    {taken : List (List Byte)} (between : Between ios console call console' taken) :
    taken = [] ∨ ∃ c, call = some c ∧ taken = c.commands := by
  cases between with
  | before => exact Or.inl rfl
  | writing addr data => exact Or.inr ⟨_, rfl, rfl⟩
  | after call => exact Or.inr ⟨call, rfl, rfl⟩

def sampleCalls : List Call :=
  [.write 0x1000#32 [1#8, 2#8, 3#8, 4#8], .svc 0x27#32 [0x2a#32], .read 0x1001#32 3#32, .kill]

def sampleActions : List Action :=
  [.call, .sendData 1, .recvCommand 12 true, .recvBytes 1 true, .sendData 3, .recvBytes 3 true,
    .recvResponse 4, .call, .recvCommand 12 true, .recvResponse 8, .call, .recvCommand 12 true,
    .sendBytes 2 true, .recvData 1, .sendBytes 1 true, .recvData 2, .recvResponse 4, .call,
    .recvCommand 4 true, .recvResponse 4]

end Correctness

end Stroopwafel.Wupserver
