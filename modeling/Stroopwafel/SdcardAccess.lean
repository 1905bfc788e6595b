import Stroopwafel.Memory

set_option autoImplicit false

namespace Stroopwafel.SdcardAccess

open Memory

structure Sem where
  max : Nat
  count : Nat

/-- Where a thread is in `readWriteCallback_patch` and `sdcard_readwrite`. -/
inductive Pc where
  | idle
  | lock
  | create
  | acquire
  | issue
  | wait
  | fetch
  | destroy
  | unlock
  | callback
  | finish
  deriving DecidableEq

/-- The two frames of a call. `cmd`, `invoked`, `destroyed` and `released` record what was done. -/
structure Frame where
  pc : Pc
  /-- `[r5]` and `[r5, #4]` of `sdcard_readwrite` -/
  sem : Nat
  result : Word
  /-- the word at `out_callback_arg2` -/
  out : Word
  /-- `r4`, the result of the command -/
  ret : Word
  callback : Bool
  cmd : Option Nat
  invoked : List Word
  destroyed : Bool
  released : Bool

def Frame.idle : Frame := ⟨.idle, 0, 0#32, 0#32, 0#32, false, none, [], false, false⟩

structure Cmd (T : Type) where
  id : Nat
  arg : T

/-- `status` is what the driver reported for each command; `calls` are the finished calls. -/
structure State (T : Type) where
  mutex : Nat
  sems : Nat → Option Sem
  frames : T → Frame
  outstanding : List (Cmd T)
  callbacks : List (Cmd T)
  next : Nat
  status : Nat → Option Word
  calls : List Frame

/-- Steps of the threads, and of the driver: `complete` and `signal` are the two halves of
`sdcard_readwrite_callback`. -/
inductive Action (T : Type) where
  | enter (t : T) (callback : Bool)
  | lock (t : T)
  | create (t : T) (id : Nat)
  | acquire (t : T)
  | issue (t : T) (ret : Word)
  | wait (t : T)
  | fetch (t : T)
  | destroy (t : T)
  | unlock (t : T)
  | callback (t : T)
  | finish (t : T)
  | complete (status : Word)
  | signal

section Step

variable {T : Type} [DecidableEq T]

def State.set (s : State T) (t : T) (frame : Frame) : State T :=
  { s with frames := fun u => if u = t then frame else s.frames u }

def State.setSem (s : State T) (id : Nat) (sem : Option Sem) : State T :=
  { s with sems := fun i => if i = id then sem else s.sems i }

def iosWaitSemaphore (s : State T) (id : Nat) : Option (State T) :=
  match s.sems id with
  | some sem => if sem.count = 0 then none else some (s.setSem id (some ⟨sem.max, sem.count - 1⟩))
  | none => none

def iosSignalSemaphore (s : State T) (id : Nat) : State T :=
  match s.sems id with
  | some sem => if sem.count < sem.max then s.setSem id (some ⟨sem.max, sem.count + 1⟩) else s
  | none => s

def step (s : State T) : Action T → Option (State T)
  | .enter t callback =>
      if (s.frames t).pc = .idle then
        some (s.set t { Frame.idle with
          pc := .lock, out := (s.frames t).out, result := (s.frames t).result,
          callback := callback })
      else none
  | .lock t =>
      if (s.frames t).pc = .lock then
        (iosWaitSemaphore s s.mutex).map fun s => s.set t { s.frames t with pc := .create }
      else none
  | .create t id =>
      if (s.frames t).pc = .create ∧ (s.sems id).isNone then
        some ((s.setSem id (some ⟨1, 1⟩)).set t { s.frames t with pc := .acquire, sem := id })
      else none
  | .acquire t =>
      if (s.frames t).pc = .acquire then
        (iosWaitSemaphore s (s.frames t).sem).map fun s =>
          s.set t { s.frames t with pc := .issue }
      else none
  | .issue t ret =>
      if (s.frames t).pc = .issue then
        if ret = 0#32 then
          some { s.set t { s.frames t with pc := .wait, ret := ret, cmd := some s.next } with
            outstanding := ⟨s.next, t⟩ :: s.outstanding, next := s.next + 1 }
        else some (s.set t { s.frames t with pc := .destroy, ret := ret })
      else none
  | .wait t =>
      if (s.frames t).pc = .wait then
        (iosWaitSemaphore s (s.frames t).sem).map fun s =>
          s.set t { s.frames t with pc := .fetch }
      else none
  | .fetch t =>
      if (s.frames t).pc = .fetch then
        some (s.set t { s.frames t with pc := .destroy, out := (s.frames t).result })
      else none
  | .destroy t =>
      if (s.frames t).pc = .destroy then
        some ((s.setSem (s.frames t).sem none).set t
          { s.frames t with pc := .unlock, destroyed := true })
      else none
  | .unlock t =>
      if (s.frames t).pc = .unlock then
        some ((iosSignalSemaphore s s.mutex).set t
          { s.frames t with pc := .callback, released := true })
      else none
  | .callback t =>
      if (s.frames t).pc = .callback then
        let invoked := (s.frames t).ret = 0#32 ∧ (s.frames t).callback = true
        some (s.set t { s.frames t with
          pc := .finish, invoked := if invoked then (s.frames t).out :: (s.frames t).invoked
            else (s.frames t).invoked })
      else none
  | .finish t =>
      if (s.frames t).pc = .finish then
        some { s.set t { s.frames t with pc := .idle } with calls := s.frames t :: s.calls }
      else none
  | .complete status =>
      match s.outstanding with
      | cmd :: rest =>
          some { s.set cmd.arg { s.frames cmd.arg with result := status } with
            outstanding := rest, callbacks := cmd :: s.callbacks
            status := fun id => if id = cmd.id then some status else s.status id }
      | [] => none
  | .signal =>
      match s.callbacks with
      | cmd :: rest =>
          some { iosSignalSemaphore s (s.frames cmd.arg).sem with callbacks := rest }
      | [] => none

def run (s : State T) : List (Action T) → Option (State T)
  | [] => some s
  | a :: rest => (step s a).bind fun s => run s rest

end Step

/-- `sdcard_init` has created the mutex; no thread is in a call. -/
def initial (T : Type) (mutex : Nat) : State T where
  mutex := mutex
  sems id := if id = mutex then some ⟨1, 1⟩ else none
  frames _ := .idle
  outstanding := []
  callbacks := []
  next := 0
  status _ := none
  calls := []

/-- The part of a call in which the thread has `sdcard_access_mutex`. -/
def Pc.critical : Pc → Bool
  | .idle | .lock | .callback | .finish => false
  | _ => true

/-- The part of a call in which the private semaphore exists. -/
def Pc.owns : Pc → Bool
  | .acquire | .issue | .wait | .fetch | .destroy => true
  | _ => false

/-- The result of a call against what the driver reported for its command. -/
def Frame.Outcome (status : Nat → Option Word) (frame : Frame) : Prop :=
  (frame.ret = 0#32 → ∃ id, frame.cmd = some id ∧ status id = some frame.out) ∧
    (frame.ret ≠ 0#32 → frame.cmd = none)

structure Frame.Finished (status : Nat → Option Word) (frame : Frame) : Prop where
  outcome : frame.Outcome status
  invoked : frame.invoked =
    if frame.ret = 0#32 ∧ frame.callback = true then [frame.out] else []
  destroyed : frame.destroyed = true
  released : frame.released = true

structure Serialised {T : Type} (s : State T) : Prop where
  outstanding : s.outstanding.length + s.callbacks.length ≤ 1
  exclusive : ∀ t u, (s.frames t).pc.critical = true → (s.frames u).pc.critical = true → t = u
  mutex : ∃ count, s.sems s.mutex = some ⟨1, count⟩ ∧
    (count = 0 ↔ ∃ t, (s.frames t).pc.critical = true)
  owned : ∀ t, (s.frames t).pc.owns = true → (s.sems (s.frames t).sem).isSome = true
  live : ∀ id, (s.sems id).isSome = true → id = s.mutex ∨
    ∃ t, (s.frames t).pc.owns = true ∧ (s.frames t).sem = id
  invoked : ∀ t, (s.frames t).invoked ≠ [] →
    (s.frames t).pc = .finish ∨ (s.frames t).pc = .idle
  calls : ∀ frame ∈ s.calls, frame.Finished s.status

end Stroopwafel.SdcardAccess
