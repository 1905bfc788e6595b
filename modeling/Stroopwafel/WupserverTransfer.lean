import Stroopwafel.Wupserver

set_option autoImplicit false

namespace Stroopwafel.Wupserver

open Memory

section Transfer

/-- What one call of `recv` or `send` moved, and what it returned. -/
structure SocketResult where
  bytes : List Byte
  ret : Word

def SocketResult.Failed (r : SocketResult) : Prop := r.ret.toInt ≤ 0

instance (r : SocketResult) : Decidable r.Failed := inferInstanceAs (Decidable (_ ≤ _))

/-- The results that the socket layer has for a buffer of `size` bytes. -/
def SocketResult.Moves (r : SocketResult) (size : Word) : Prop :=
  if r.Failed then r.bytes = []
  else r.bytes.length ≤ size.toNat ∧ r.ret = BitVec.ofNat 32 r.bytes.length

theorem moves_failed (r : SocketResult) (size : Word) (failed : r.Failed) (none : r.bytes = []) :
    r.Moves size := by
  rw [SocketResult.Moves, if_pos failed]
  exact none

theorem moves_bytes (r : SocketResult) (size : Word) (positive : ¬ r.Failed)
    (fits : r.bytes.length ≤ size.toNat) (ret : r.ret = BitVec.ofNat 32 r.bytes.length) :
    r.Moves size := by
  rw [SocketResult.Moves, if_neg positive]
  exact ⟨fits, ret⟩

/-- A transfer, the bytes that it moved in order, and those with the address they are at. -/
structure Transfer (K : Type) where
  server : Server K
  sent : List Byte
  stream : List Byte
  moved : List (Word × Byte)

variable {K : Type}

/-- Byte `k` is at `base + k`. -/
def place (base : Word) (bytes : List Byte) : List (Word × Byte) :=
  bytes.zipIdx.map fun (b, k) => (base + BitVec.ofNat 32 k, b)

/-- One round of the loop that the server is in. -/
def Transfer.next (t : Transfer K) (r : SocketResult) : Transfer K :=
  match t.server.pc with
  | .write dst length offset =>
      let out := writeRound t.server dst length offset r.bytes r.ret
      let stored := if dst + offset = 0#32 then [] else place (dst + offset) r.bytes
      ⟨out.1, t.sent ++ out.2, t.stream ++ r.bytes, t.moved ++ stored⟩
  | .read src length offset =>
      let out := readRound t.server src length offset r.bytes.length r.ret
      ⟨out.1, t.sent ++ out.2, t.stream ++ r.bytes, t.moved ++ place (src + offset) r.bytes⟩
  | _ => t

/-- `send` takes the bytes of its buffer, and returns -101 when that is at address 0. -/
def Transfer.Possible (t : Transfer K) (r : SocketResult) : Prop :=
  match t.server.pc with
  | .write _ length offset => r.Moves (length - offset)
  | .read src length offset =>
      r.Moves (length - offset) ∧
        r.bytes = load t.server.console.mem (src + offset) r.bytes.length ∧
        (src + offset = 0#32 → r.ret = -101#32)
  | _ => True

def Transfer.AllPossible (t : Transfer K) : List SocketResult → Prop
  | [] => True
  | r :: rest => t.Possible r ∧ (t.next r).AllPossible rest

/-- The loop is over, and the response was sent. -/
def Transfer.ended (t : Transfer K) : Prop := t.server.pc = .recv

/-- The command 0 or 1, with its fields. -/
inductive Bulk where
  | write (dst length : Word)
  | read (src length : Word)

def Bulk.base : Bulk → Word
  | .write base _ | .read base _ => base

def Bulk.length : Bulk → Word
  | .write _ length | .read _ length => length

def Bulk.start (bulk : Bulk) (console : Console K) (commandBuffer : List Byte) : Transfer K :=
  let server := ⟨console, commandBuffer, false, .recv⟩
  let out := match bulk with
    | .write dst length => writeLoop server dst length 0#32
    | .read src length => readLoop server src length 0#32
  ⟨out.1, out.2, [], []⟩

def Bulk.cmd : Bulk → Nat
  | .write _ _ => 0
  | .read _ _ => 1

/-- The handler starts the transfer of its command. -/
theorem handler_start (ios : Ios K) (bulk : Bulk) (console : Console K)
    (commandBuffer : List Byte) (received : Nat) (some : 0 < received)
    (cmd : (word commandBuffer 0).toNat = bulk.cmd) (base : word commandBuffer 4 = bulk.base)
    (length : word commandBuffer 8 = bulk.length) :
    serverCommandHandler ios ⟨console, commandBuffer, false, .recv⟩ received =
      ((bulk.start console commandBuffer).server, (bulk.start console commandBuffer).sent) := by
  rw [serverCommandHandler_eq ios _ _ some]
  cases bulk <;> simp only [serverCommand, Nat.mul_zero, Nat.mul_one, Nat.reduceMul, cmd, base,
    length, Bulk.cmd, Bulk.base, Bulk.length, Bulk.start]

/-- The bytes of the stream are those in memory. -/
def Bulk.Contents (bulk : Bulk) (mem : Mem) (t : Transfer K) : Prop :=
  match bulk with
  | .write dst _ => t.server.console.mem = store mem dst t.stream
  | .read src _ => t.server.console.mem = mem ∧ t.stream = load mem src t.stream.length

/-- A transfer after the results `rs`. -/
structure Honest (bulk : Bulk) (mem : Mem) (rs : List SocketResult) (t : Transfer K) : Prop where
  placed : t.moved = place bulk.base t.stream
  within : t.stream.length ≤ bulk.length.toNat
  contents : bulk.Contents mem t
  whole : t.ended → t.stream.length = bulk.length.toNat
  stops : ∀ r ∈ rs, r.Failed → t.ended

/-- The results are positive until all is moved, and no buffer is at address 0. -/
def Positive (base length : Word) (moved : Nat) : List SocketResult → Prop
  | [] => True
  | r :: rest =>
      moved < length.toNat → ¬ r.Failed ∧ base + BitVec.ofNat 32 moved ≠ 0#32 ∧
        Positive base length (moved + r.bytes.length) rest

/-- Where the loop is after `offset` bytes. -/
def Bulk.loop (bulk : Bulk) (offset : Word) : Pc :=
  match bulk with
  | .write dst length => .write dst length offset
  | .read src length => .read src length offset

/-- Every result so far was positive. -/
structure Going (bulk : Bulk) (mem : Mem) (t : Transfer K) : Prop where
  placed : t.moved = place bulk.base t.stream
  within : t.stream.length ≤ bulk.length.toNat
  contents : bulk.Contents mem t
  alive : t.server.serverKilled = false
  pc : t.server.pc =
    if t.stream.length < bulk.length.toNat then bulk.loop (BitVec.ofNat 32 t.stream.length)
    else .recv

end Transfer

section Rounds

variable {K : Type}

theorem place_append (base : Word) (front back : List Byte) :
    place base (front ++ back) =
      place base front ++ place (base + BitVec.ofNat 32 front.length) back := by
  unfold place
  rw [List.zipIdx_append, List.map_append]
  congr 1
  rw [Nat.zero_add, List.zipIdx_eq_map_add, List.map_map]
  apply List.map_congr_left
  intro (b, k) _
  simp only [Function.comp_apply, BitVec.ofNat_add, BitVec.add_assoc]

theorem place_length (base : Word) (bytes : List Byte) :
    (place base bytes).length = bytes.length := by
  rw [place, List.length_map, List.length_zipIdx]

theorem below_iff (length : Word) (n : Nat) (within : n ≤ length.toNat) :
    BitVec.ofNat 32 n < length ↔ n < length.toNat := by
  have bound := length.isLt
  bv_omega

theorem writeLoop_going (server : Server K) (dst length : Word) (n : Nat)
    (within : n ≤ length.toNat) (alive : server.serverKilled = false) :
    let out := writeLoop server dst length (BitVec.ofNat 32 n)
    out.1.console = server.console ∧ out.1.serverKilled = false ∧
      out.1.pc = if n < length.toNat then .write dst length (BitVec.ofNat 32 n) else .recv := by
  intro out
  by_cases more : n < length.toNat
  · simp only [out, writeLoop, if_pos ((below_iff length n within).mpr more), if_pos more, alive,
      and_self]
  · simp only [out, writeLoop, if_neg (fun h => more ((below_iff length n within).mp h)),
      if_neg more]
    exact ⟨rfl, alive, (respond_alive server 4 alive).1⟩

theorem readLoop_going (server : Server K) (src length : Word) (n : Nat)
    (within : n ≤ length.toNat) (alive : server.serverKilled = false) :
    let out := readLoop server src length (BitVec.ofNat 32 n)
    out.1.console = server.console ∧ out.1.serverKilled = false ∧
      out.1.pc = if n < length.toNat then .read src length (BitVec.ofNat 32 n) else .recv := by
  intro out
  by_cases more : n < length.toNat
  · simp only [out, readLoop, if_pos ((below_iff length n within).mpr more), if_pos more, alive,
      and_self]
  · simp only [out, readLoop, if_neg (fun h => more ((below_iff length n within).mp h)),
      if_neg more]
    exact ⟨rfl, alive, (respond_alive server 4 alive).1⟩

theorem start_going (bulk : Bulk) (console : Console K) (commandBuffer : List Byte) :
    Going bulk console.mem (bulk.start console commandBuffer) := by
  cases bulk with
  | write dst length =>
      obtain ⟨same, alive, pc⟩ := writeLoop_going
        (⟨console, commandBuffer, false, .recv⟩ : Server K) dst length 0 (Nat.zero_le _) rfl
      exact ⟨rfl, Nat.zero_le _, congrArg Console.mem same, alive, pc⟩
  | read src length =>
      obtain ⟨same, alive, pc⟩ := readLoop_going
        (⟨console, commandBuffer, false, .recv⟩ : Server K) src length 0 (Nat.zero_le _) rfl
      exact ⟨rfl, Nat.zero_le _, ⟨congrArg Console.mem same, rfl⟩, alive, pc⟩

/-- One positive result. -/
theorem next_going (bulk : Bulk) (mem : Mem) (t : Transfer K) (r : SocketResult)
    (going : Going bulk mem t) (possible : t.Possible r)
    (more : t.stream.length < bulk.length.toNat) (positive : ¬ r.Failed)
    (buffer : bulk.base + BitVec.ofNat 32 t.stream.length ≠ 0#32) :
    Going bulk mem (t.next r) := by
  have pc := going.pc
  rw [if_pos more] at pc
  have bound := bulk.length.isLt
  cases bulk with
  | write dst length =>
      simp only [Bulk.loop] at pc
      simp only [Bulk.length] at more
      simp only [Transfer.Possible, pc, SocketResult.Moves, if_neg positive] at possible
      obtain ⟨size, ret⟩ := possible
      have fits : (t.stream ++ r.bytes).length ≤ length.toNat := by
        rw [List.length_append]
        bv_omega
      have offset : BitVec.ofNat 32 t.stream.length + r.ret =
          BitVec.ofNat 32 (t.stream ++ r.bytes).length := by
        rw [ret, List.length_append, BitVec.ofNat_add]
      have apart : ¬ dst + BitVec.ofNat 32 t.stream.length = 0#32 := buffer
      have stored : recvInto t.server.console.mem (dst + BitVec.ofNat 32 t.stream.length) r.bytes =
          store mem dst (t.stream ++ r.bytes) := by
        have contents : t.server.console.mem = store mem dst t.stream := going.contents
        rw [recvInto, if_neg apart, contents, store_append mem dst t.stream r.bytes]
        rw [← List.length_append]
        exact Nat.le_of_lt (Nat.lt_of_le_of_lt fits bound)
      obtain ⟨same, alive, loop⟩ := writeLoop_going
        { t.server with
          console := { t.server.console with mem := store mem dst (t.stream ++ r.bytes) } }
        dst length (t.stream ++ r.bytes).length fits going.alive
      simp only [Transfer.next, pc, writeRound, offset, stored]
      refine ⟨?_, fits, congrArg Console.mem same, alive, loop⟩
      simp only [if_neg apart, Bulk.base, place_append, going.placed]
  | read src length =>
      simp only [Bulk.loop] at pc
      simp only [Bulk.length] at more
      simp only [Transfer.Possible, pc, SocketResult.Moves, if_neg positive] at possible
      obtain ⟨⟨size, ret⟩, bytes, -⟩ := possible
      have fits : (t.stream ++ r.bytes).length ≤ length.toNat := by
        rw [List.length_append]
        bv_omega
      have offset : BitVec.ofNat 32 t.stream.length + r.ret =
          BitVec.ofNat 32 (t.stream ++ r.bytes).length := by
        rw [ret, List.length_append, BitVec.ofNat_add]
      obtain ⟨sameMem, loaded⟩ : t.server.console.mem = mem ∧
        t.stream = load mem src t.stream.length := going.contents
      obtain ⟨same, alive, loop⟩ := readLoop_going t.server src length
        (t.stream ++ r.bytes).length fits going.alive
      simp only [Transfer.next, pc, readRound, offset]
      refine ⟨?_, fits, ⟨(congrArg Console.mem same).trans sameMem, ?_⟩, alive, loop⟩
      · simp only [Bulk.base, place_append, going.placed]
      · rw [List.length_append, load_append, ← loaded, ← sameMem, ← bytes]

theorem done_next (bulk : Bulk) (mem : Mem) (t : Transfer K) (rs : List SocketResult)
    (going : Going bulk mem t) (done : ¬ t.stream.length < bulk.length.toNat) :
    rs.foldl Transfer.next t = t := by
  have pc := going.pc
  rw [if_neg done] at pc
  induction rs with
  | nil => rfl
  | cons r rest ih =>
      have stays : t.next r = t := by
        simp only [Transfer.next, pc]
      rw [List.foldl_cons, stays, ih]

theorem going_ended (bulk : Bulk) (mem : Mem) (t : Transfer K) (going : Going bulk mem t) :
    t.ended ↔ ¬ t.stream.length < bulk.length.toNat := by
  have pc := going.pc
  constructor
  · intro ended more
    rw [if_pos more, ended] at pc
    cases bulk <;> cases pc
  · intro done
    rwa [if_neg done] at pc

/-- While the results are positive, nothing fails unless the transfer is done. -/
theorem run_going (bulk : Bulk) (mem : Mem) (t : Transfer K) (front back : List SocketResult)
    (going : Going bulk mem t) (possible : t.AllPossible (front ++ back))
    (positive : Positive bulk.base bulk.length t.stream.length (front ++ back)) :
    Going bulk mem (front.foldl Transfer.next t) ∧
      ∀ r ∈ front, r.Failed → (front.foldl Transfer.next t).ended := by
  induction front generalizing t with
  | nil => exact ⟨going, nofun⟩
  | cons r rest ih =>
      by_cases more : t.stream.length < bulk.length.toNat
      · obtain ⟨succeeds, buffer, later⟩ := positive more
        have next := next_going bulk mem t r going possible.1 more succeeds buffer
        have length : (t.next r).stream.length = t.stream.length + r.bytes.length := by
          have pc := going.pc
          rw [if_pos more] at pc
          cases bulk <;> simp only [Transfer.next, pc, Bulk.loop, List.length_append]
        obtain ⟨reached, stops⟩ := ih (t.next r) next possible.2 (by rwa [length])
        refine ⟨reached, fun r' member failed => ?_⟩
        rcases List.mem_cons.mp member with rfl | member
        · exact absurd failed succeeds
        · exact stops r' member failed
      · rw [done_next bulk mem t (r :: rest) going more]
        exact ⟨going, fun _ _ _ => (going_ended bulk mem t going).mpr more⟩

end Rounds

section Honesty

variable {K : Type}

/-- After any number of the results the transfer is honest. -/
def AlwaysHonest (bulk : Bulk) (mem : Mem) (t : Transfer K) (rs : List SocketResult) : Prop :=
  ∀ front back, rs = front ++ back → Honest bulk mem front (front.foldl Transfer.next t)

theorem failed_bytes (bulk : Bulk) (mem : Mem) (t : Transfer K) (r : SocketResult)
    (going : Going bulk mem t) (possible : t.Possible r)
    (more : t.stream.length < bulk.length.toNat) (failed : r.Failed) : r.bytes.length = 0 := by
  have pc := going.pc
  rw [if_pos more] at pc
  cases bulk with
  | write dst length =>
      simp only [Transfer.Possible, pc, Bulk.loop, SocketResult.Moves, if_pos failed] at possible
      rw [possible, List.length_nil]
  | read src length =>
      simp only [Transfer.Possible, pc, Bulk.loop, SocketResult.Moves, if_pos failed] at possible
      rw [possible.1, List.length_nil]

/-- A buffer at address 0 moves nothing. -/
theorem null_failed (bulk : Bulk) (mem : Mem) (t : Transfer K) (r : SocketResult)
    (going : Going bulk mem t) (possible : t.Possible r)
    (more : t.stream.length < bulk.length.toNat)
    (null : bulk.base + BitVec.ofNat 32 t.stream.length = 0#32)
    (placed : (t.next r).moved = place bulk.base (t.next r).stream) : r.Failed := by
  have pc := going.pc
  rw [if_pos more] at pc
  cases bulk with
  | write dst length =>
      have stored : dst + BitVec.ofNat 32 t.stream.length = 0#32 := null
      simp only [Transfer.next, pc, Bulk.loop, if_pos stored, List.append_nil,
        going.placed] at placed
      have lengths := congrArg List.length placed
      rw [place_length, place_length, List.length_append] at lengths
      have none : r.bytes.length = 0 := by omega
      simp only [Transfer.Possible, pc, Bulk.loop, SocketResult.Moves] at possible
      by_cases failed : r.Failed
      · exact failed
      · rw [if_neg failed] at possible
        rw [SocketResult.Failed, possible.2, none]
        decide
  | read src length =>
      simp only [Transfer.Possible, pc, Bulk.loop] at possible
      rw [SocketResult.Failed, possible.2.2 null]
      decide

theorem positive_honest (bulk : Bulk) (mem : Mem) (t : Transfer K) (rs : List SocketResult)
    (going : Going bulk mem t) (possible : t.AllPossible rs)
    (positive : Positive bulk.base bulk.length t.stream.length rs) :
    AlwaysHonest bulk mem t rs := by
  intro front back split
  subst split
  obtain ⟨reached, stops⟩ := run_going bulk mem t front back going possible positive
  refine ⟨reached.placed, reached.within, reached.contents, fun ended => ?_, stops⟩
  have done := (going_ended bulk mem _ reached).mp ended
  exact Nat.le_antisymm reached.within (Nat.le_of_not_lt done)

theorem honest_positive (bulk : Bulk) (mem : Mem) (t : Transfer K) (rs : List SocketResult)
    (going : Going bulk mem t) (possible : t.AllPossible rs)
    (honest : AlwaysHonest bulk mem t rs) :
    Positive bulk.base bulk.length t.stream.length rs := by
  induction rs generalizing t with
  | nil => trivial
  | cons r rest ih =>
      intro more
      have once := honest [r] rest rfl
      simp only [List.foldl_cons, List.foldl_nil] at once
      have pc := going.pc
      rw [if_pos more] at pc
      have length : (t.next r).stream.length = t.stream.length + r.bytes.length := by
        cases bulk <;> simp only [Transfer.next, pc, Bulk.loop, List.length_append]
      have succeeds : ¬ r.Failed := by
        intro failed
        have whole := once.whole (once.stops r (List.mem_singleton.mpr rfl) failed)
        rw [length, failed_bytes bulk mem t r going possible.1 more failed] at whole
        exact Nat.ne_of_lt more whole
      have buffer : bulk.base + BitVec.ofNat 32 t.stream.length ≠ 0#32 :=
        fun null => succeeds (null_failed bulk mem t r going possible.1 more null once.placed)
      refine ⟨succeeds, buffer, ?_⟩
      have next := next_going bulk mem t r going possible.1 more succeeds buffer
      rw [← length]
      apply ih (t.next r) next possible.2
      intro front back split
      have later := honest (r :: front) back (by rw [split]; rfl)
      exact { later with stops := fun r' member => later.stops r' (List.mem_cons_of_mem r member) }

/-- A transfer ends and is honest if and only if every result is positive until it is done. -/
theorem transfer_honest_iff (bulk : Bulk) (console : Console K) (commandBuffer : List Byte)
    (rs : List SocketResult) (possible : (bulk.start console commandBuffer).AllPossible rs) :
    AlwaysHonest bulk console.mem (bulk.start console commandBuffer) rs ↔
      Positive bulk.base bulk.length 0 rs := by
  have going := start_going bulk console commandBuffer
  exact ⟨honest_positive bulk console.mem _ rs going possible,
    positive_honest bulk console.mem _ rs going possible⟩

/-- Four bytes in two parts. -/
theorem transfer_honest_iff_sample :
    AlwaysHonest (.write 0x1000#32 4#32) (fun _ => 0#8)
        ((Bulk.write 0x1000#32 4#32).start (⟨fun _ => 0#8, ()⟩ : Console Unit) [])
        [⟨[1#8, 2#8, 3#8], 3#32⟩, ⟨[4#8], 1#32⟩] ↔
      Positive 0x1000#32 4#32 0 [⟨[1#8, 2#8, 3#8], 3#32⟩, ⟨[4#8], 1#32⟩] := by
  refine transfer_honest_iff (.write 0x1000#32 4#32) (⟨fun _ => 0#8, ()⟩ : Console Unit) []
    [⟨[1#8, 2#8, 3#8], 3#32⟩, ⟨[4#8], 1#32⟩] ⟨?_, ?_, trivial⟩
  · exact moves_bytes ⟨[1#8, 2#8, 3#8], 3#32⟩ 4#32 (by decide) (by decide) rfl
  · exact moves_bytes ⟨[4#8], 1#32⟩ 1#32 (by decide) (by decide) rfl

/-- The request to write four bytes. -/
def writeSample : List Byte := [0#32, 0x1000#32, 4#32].flatMap bytes32

/-- `recv` fails at once, and success is replied with nothing written. -/
theorem failed_recv_replied :
    let t := (Bulk.write 0x1000#32 4#32).start (⟨fun _ => 0#8, ()⟩ : Console Unit) writeSample
    serverCommandHandler echo ⟨⟨fun _ => 0#8, ()⟩, writeSample, false, .recv⟩ 12 =
        (t.server, t.sent) ∧
      t.AllPossible [⟨[], -1#32⟩] ∧ (t.next ⟨[], -1#32⟩).sent = bytes32 0#32 ∧
      ¬ AlwaysHonest (.write 0x1000#32 4#32) (fun _ => 0#8) t [⟨[], -1#32⟩] := by
  refine ⟨?_, ⟨?_, trivial⟩, by decide, fun honest => ?_⟩
  · exact handler_start echo (.write 0x1000#32 4#32) _ writeSample 12 (by decide) (by decide)
      (by decide) (by decide)
  · exact moves_failed ⟨[], -1#32⟩ 4#32 (by decide) rfl
  · have once := honest [⟨[], -1#32⟩] [] rfl
    exact absurd (once.whole rfl) (by decide)

end Honesty

end Stroopwafel.Wupserver
