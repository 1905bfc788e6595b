import Stroopwafel.SdcardAccess

set_option autoImplicit false

namespace Stroopwafel.SdcardAccess

open Memory

/-- What a frame records, by the place of its thread in the call. -/
def Frame.Ok (status : Nat → Option Word) (frame : Frame) : Prop :=
  match frame.pc with
  | .idle => True
  | .lock | .create | .acquire | .issue => frame.invoked = [] ∧ frame.cmd = none
  | .wait | .fetch => frame.invoked = []
  | .destroy => frame.invoked = [] ∧ frame.Outcome status
  | .unlock => frame.invoked = [] ∧ frame.Outcome status ∧ frame.destroyed = true
  | .callback => frame.invoked = [] ∧ frame.Outcome status ∧ frame.destroyed = true ∧
      frame.released = true
  | .finish => frame.Finished status

/-- What the driver knows of the thread that has the mutex, by the place of that thread.
`count` is the count of the private semaphore. -/
inductive Stage {T : Type} (frame : Frame) (t : T) (next : Nat) (status : Nat → Option Word) :
    List (Cmd T) → List (Cmd T) → Nat → Prop where
  | quiet (count : Nat)
      (place : frame.pc ≠ .acquire ∧ frame.pc ≠ .issue ∧ frame.pc ≠ .wait ∧ frame.pc ≠ .fetch) :
      Stage frame t next status [] [] count
  | acquire (place : frame.pc = .acquire) : Stage frame t next status [] [] 1
  | issue (place : frame.pc = .issue) : Stage frame t next status [] [] 0
  | outstanding (id : Nat) (place : frame.pc = .wait) (accepted : frame.ret = 0#32)
      (cmd : frame.cmd = some id) (issued : id < next) (pending : status id = none) :
      Stage frame t next status [⟨id, t⟩] [] 0
  | calledBack (id : Nat) (place : frame.pc = .wait) (accepted : frame.ret = 0#32)
      (cmd : frame.cmd = some id) (reported : status id = some frame.result) :
      Stage frame t next status [] [⟨id, t⟩] 0
  | signalled (id : Nat) (place : frame.pc = .wait) (accepted : frame.ret = 0#32)
      (cmd : frame.cmd = some id) (reported : status id = some frame.result) :
      Stage frame t next status [] [] 1
  | fetch (id : Nat) (place : frame.pc = .fetch) (accepted : frame.ret = 0#32)
      (cmd : frame.cmd = some id) (reported : status id = some frame.result) :
      Stage frame t next status [] [] 0

structure Free {T : Type} (s : State T) : Prop where
  mutex : s.sems s.mutex = some ⟨1, 1⟩
  sems : ∀ id, id ≠ s.mutex → s.sems id = none
  outside : ∀ t, (s.frames t).pc.critical = false
  outstanding : s.outstanding = []
  callbacks : s.callbacks = []

structure Held {T : Type} (s : State T) (t : T) (count : Nat) : Prop where
  mutex : s.sems s.mutex = some ⟨1, 0⟩
  inside : (s.frames t).pc.critical = true
  outside : ∀ u, u ≠ t → (s.frames u).pc.critical = false
  own : (s.frames t).pc.owns = true →
    (s.frames t).sem ≠ s.mutex ∧ s.sems (s.frames t).sem = some ⟨1, count⟩
  sems : ∀ id, id ≠ s.mutex → ((s.frames t).pc.owns = true → id ≠ (s.frames t).sem) →
    s.sems id = none
  stage : Stage (s.frames t) t s.next s.status s.outstanding s.callbacks count

structure Invariant {T : Type} (s : State T) : Prop where
  mutex : Free s ∨ ∃ t count, Held s t count
  frames : ∀ t, (s.frames t).Ok s.status
  calls : ∀ frame ∈ s.calls, frame.Finished s.status
  fresh : ∀ id, s.next ≤ id → s.status id = none

theorem Pc.critical_of_owns (pc : Pc) (owns : pc.owns = true) : pc.critical = true := by
  cases pc <;> first | rfl | cases owns

theorem Invariant.serialised {T : Type} (s : State T) (invariant : Invariant s) :
    Serialised s := by
  obtain ⟨mutex, frames, calls, -⟩ := invariant
  have invoked : ∀ t, (s.frames t).invoked ≠ [] →
      (s.frames t).pc = .finish ∨ (s.frames t).pc = .idle := by
    intro t called
    have ok := frames t
    unfold Frame.Ok at ok
    split at ok <;> simp_all
  rcases mutex with free | ⟨t, count, held⟩
  · refine ⟨?_, ?_, ?_, ?_, ?_, invoked, calls⟩
    · simp [free.outstanding, free.callbacks]
    · intro t u inside
      rw [free.outside t] at inside
      cases inside
    · refine ⟨1, free.mutex, ?_⟩
      simp [free.outside]
    · intro t owns
      have inside := Pc.critical_of_owns _ owns
      rw [free.outside t] at inside
      cases inside
    · intro id live
      by_cases same : id = s.mutex
      · exact Or.inl same
      · rw [free.sems id same] at live
        cases live
  · have unique : ∀ u, (s.frames u).pc.critical = true → u = t := by
      intro u inside
      by_cases same : u = t
      · exact same
      · rw [held.outside u same] at inside
        cases inside
    refine ⟨?_, ?_, ?_, ?_, ?_, invoked, calls⟩
    · have stage := held.stage
      generalize s.outstanding = outstanding at stage
      generalize s.callbacks = callbacks at stage
      cases stage <;> simp
    · intro u v first second
      rw [unique u first, unique v second]
    · exact ⟨0, held.mutex, fun _ => ⟨t, held.inside⟩, fun _ => rfl⟩
    · intro u owns
      have same := unique u (Pc.critical_of_owns _ owns)
      subst same
      rw [(held.own owns).2]
      rfl
    · intro id live
      by_cases same : id = s.mutex
      · exact Or.inl same
      · right
        by_cases mine : (s.frames t).pc.owns = true ∧ (s.frames t).sem = id
        · exact ⟨t, mine⟩
        · have gone := held.sems id same (fun owns eq => mine ⟨owns, eq.symm⟩)
          rw [gone] at live
          cases live

theorem initial_invariant (T : Type) (mutex : Nat) : Invariant (initial T mutex) := by
  refine ⟨Or.inl ⟨?_, ?_, fun _ => rfl, rfl, rfl⟩, fun _ => True.intro, nofun, fun _ _ => rfl⟩
  · simp [initial]
  · intro id other
    simp only [initial] at other ⊢
    rw [if_neg other]

@[simp] theorem setSem_sems_self {T : Type} (s : State T) (id : Nat) (sem : Option Sem) :
    (s.setSem id sem).sems id = sem := if_pos rfl

theorem setSem_sems_other {T : Type} (s : State T) (id i : Nat) (sem : Option Sem)
    (other : i ≠ id) :
    (s.setSem id sem).sems i = s.sems i := if_neg other

theorem setSem_same {T : Type} (s : State T) (id : Nat) (sem : Sem) (live : s.sems id = some sem) :
    (s.setSem id (some sem)).sems = s.sems := by
  funext i
  by_cases same : i = id
  · subst same
    rw [setSem_sems_self, live]
  · exact setSem_sems_other s id i (some sem) same

theorem iosWaitSemaphore_eq {T : Type} (s : State T) (id max count : Nat)
    (live : s.sems id = some ⟨max, count⟩) :
    iosWaitSemaphore s id =
      if count = 0 then none else some (s.setSem id (some ⟨max, count - 1⟩)) := by
  simp only [iosWaitSemaphore, live]

theorem iosSignalSemaphore_eq {T : Type} (s : State T) (id max count : Nat)
    (live : s.sems id = some ⟨max, count⟩) (below : count < max) :
    iosSignalSemaphore s id = s.setSem id (some ⟨max, count + 1⟩) := by
  simp only [iosSignalSemaphore, live, if_pos below]

theorem Frame.Outcome.later {frame : Frame} {status status' : Nat → Option Word}
    (outcome : frame.Outcome status)
    (later : ∀ id result, status id = some result → status' id = some result) :
    frame.Outcome status' := by
  refine ⟨?_, outcome.2⟩
  intro accepted
  obtain ⟨id, cmd, reported⟩ := outcome.1 accepted
  exact ⟨id, cmd, later id frame.out reported⟩

theorem Frame.Finished.later {frame : Frame} {status status' : Nat → Option Word}
    (finished : frame.Finished status)
    (later : ∀ id result, status id = some result → status' id = some result) :
    frame.Finished status' :=
  ⟨finished.outcome.later later, finished.invoked, finished.destroyed, finished.released⟩

theorem Frame.Ok.later {frame : Frame} {status status' : Nat → Option Word}
    (ok : frame.Ok status)
    (later : ∀ id result, status id = some result → status' id = some result) :
    frame.Ok status' := by
  unfold Frame.Ok at ok ⊢
  cases place : frame.pc with
  | destroy =>
      simp only [place] at ok ⊢
      exact ⟨ok.1, ok.2.later later⟩
  | unlock =>
      simp only [place] at ok ⊢
      exact ⟨ok.1, ok.2.1.later later, ok.2.2⟩
  | callback =>
      simp only [place] at ok ⊢
      exact ⟨ok.1, ok.2.1.later later, ok.2.2⟩
  | finish =>
      simp only [place] at ok ⊢
      exact ok.later later
  | idle => simp only
  | _ => simpa only [place] using ok

section Stage

variable {T : Type} {frame : Frame} {t : T} {next : Nat} {status : Nat → Option Word}
  {outstanding callbacks : List (Cmd T)} {count : Nat}

theorem Stage.at_rest (stage : Stage frame t next status outstanding callbacks count)
    (place : frame.pc ≠ .wait) : outstanding = [] ∧ callbacks = [] := by
  cases stage <;> first | exact ⟨rfl, rfl⟩ | contradiction

theorem Stage.at_acquire (stage : Stage frame t next status outstanding callbacks count)
    (place : frame.pc = .acquire) : count = 1 := by
  cases stage with
  | quiet count away => exact absurd place away.1
  | acquire => rfl
  | _ => simp_all

theorem Stage.at_issue (stage : Stage frame t next status outstanding callbacks count)
    (place : frame.pc = .issue) : count = 0 := by
  cases stage with
  | quiet count away => exact absurd place away.2.1
  | issue => rfl
  | _ => simp_all

theorem Stage.at_wait (stage : Stage frame t next status outstanding callbacks count)
    (place : frame.pc = .wait) (signalled : count ≠ 0) :
    outstanding = [] ∧ callbacks = [] ∧ count = 1 ∧ frame.ret = 0#32 ∧
      ∃ id, frame.cmd = some id ∧ status id = some frame.result := by
  cases stage with
  | quiet count away => exact absurd place away.2.2.1
  | signalled id place accepted cmd reported =>
      exact ⟨rfl, rfl, rfl, accepted, id, cmd, reported⟩
  | _ => simp_all

theorem Stage.at_fetch (stage : Stage frame t next status outstanding callbacks count)
    (place : frame.pc = .fetch) :
    count = 0 ∧ frame.ret = 0#32 ∧ ∃ id, frame.cmd = some id ∧ status id = some frame.result := by
  cases stage with
  | quiet count away => exact absurd place away.2.2.2
  | fetch id place accepted cmd reported => exact ⟨rfl, accepted, id, cmd, reported⟩
  | _ => simp_all

theorem Stage.at_outstanding {cmd : Cmd T} {rest : List (Cmd T)}
    (stage : Stage frame t next status (cmd :: rest) callbacks count) :
    rest = [] ∧ callbacks = [] ∧ count = 0 ∧ cmd.arg = t ∧ frame.pc = .wait ∧
      frame.ret = 0#32 ∧ frame.cmd = some cmd.id ∧ cmd.id < next ∧ status cmd.id = none := by
  cases stage with
  | outstanding id place accepted cmd issued pending =>
      exact ⟨rfl, rfl, rfl, rfl, place, accepted, cmd, issued, pending⟩

theorem Stage.at_callbacks {cmd : Cmd T} {rest : List (Cmd T)}
    (stage : Stage frame t next status outstanding (cmd :: rest) count) :
    outstanding = [] ∧ rest = [] ∧ count = 0 ∧ cmd.arg = t ∧ frame.pc = .wait ∧
      frame.ret = 0#32 ∧ frame.cmd = some cmd.id ∧ status cmd.id = some frame.result := by
  cases stage with
  | calledBack id place accepted cmd reported =>
      exact ⟨rfl, rfl, rfl, rfl, place, accepted, cmd, reported⟩

end Stage

section Invariant

variable {T : Type} [DecidableEq T]

@[simp] theorem set_frames_self (s : State T) (t : T) (frame : Frame) :
    (s.set t frame).frames t = frame := if_pos rfl

theorem set_frames_other (s : State T) (t u : T) (frame : Frame) (other : u ≠ t) :
    (s.set t frame).frames u = s.frames u := if_neg other

theorem frames_set (s : State T) (t : T) (frame : Frame)
    (frames : ∀ u, (s.frames u).Ok s.status) (ok : frame.Ok s.status) (u : T) :
    ((s.set t frame).frames u).Ok s.status := by
  by_cases same : u = t
  · subst same
    rw [set_frames_self]
    exact ok
  · rw [set_frames_other s t u frame same]
    exact frames u

theorem Held.outside_set (s : State T) (t : T) (count : Nat) (frame : Frame)
    (held : Held s t count) (u : T) (other : u ≠ t) :
    ((s.set t frame).frames u).pc.critical = false := by
  rw [set_frames_other s t u frame other]
  exact held.outside u other

theorem held_of_critical (s : State T) (invariant : Invariant s) (t : T)
    (inside : (s.frames t).pc.critical = true) : ∃ count, Held s t count := by
  rcases invariant.mutex with free | ⟨u, count, held⟩
  · rw [free.outside t] at inside
    cases inside
  · by_cases same : t = u
    · subst same
      exact ⟨count, held⟩
    · rw [held.outside t same] at inside
      cases inside

/-- A step of a thread that has not got the mutex, and does not take it. -/
theorem mutex_set_outside (s : State T) (t : T) (frame : Frame)
    (mutex : Free s ∨ ∃ t count, Held s t count) (before : (s.frames t).pc.critical = false)
    (after : frame.pc.critical = false) :
    Free (s.set t frame) ∨ ∃ u count, Held (s.set t frame) u count := by
  have outside : ∀ u, (s.frames u).pc.critical = false →
      ((s.set t frame).frames u).pc.critical = false := by
    intro u away
    by_cases same : u = t
    · subst same
      rw [set_frames_self]
      exact after
    · rw [set_frames_other s t u frame same]
      exact away
  rcases mutex with free | ⟨u, count, held⟩
  · left
    exact ⟨free.mutex, free.sems, fun u => outside u (free.outside u), free.outstanding,
      free.callbacks⟩
  · right
    have other : u ≠ t := by
      intro same
      subst same
      rw [held.inside] at before
      cases before
    have unchanged := set_frames_other s t u frame other
    refine ⟨u, count, held.mutex, ?_, fun v away => outside v (held.outside v away), ?_, ?_, ?_⟩
    · rw [unchanged]
      exact held.inside
    · rw [unchanged]
      exact held.own
    · rw [unchanged]
      exact held.sems
    · rw [unchanged]
      exact held.stage

theorem enter_invariant (s s' : State T) (t : T) (callback : Bool) (invariant : Invariant s)
    (stepped : step s (.enter t callback) = some s') : Invariant s' := by
  simp only [step] at stepped
  split at stepped
  next place =>
    obtain rfl := Option.some.inj stepped
    refine ⟨?_, ?_, invariant.calls, invariant.fresh⟩
    · apply mutex_set_outside s t _ invariant.mutex
      · rw [place]
        rfl
      · rfl
    · exact frames_set s t _ invariant.frames ⟨rfl, rfl⟩
  next => cases stepped

theorem lock_invariant (s s' : State T) (t : T) (invariant : Invariant s)
    (stepped : step s (.lock t) = some s') : Invariant s' := by
  simp only [step] at stepped
  split at stepped
  next place =>
    rcases invariant.mutex with free | ⟨u, count, held⟩
    · rw [iosWaitSemaphore_eq s _ _ _ free.mutex] at stepped
      obtain rfl := Option.some.inj stepped
      have clean := invariant.frames t
      simp only [Frame.Ok, place] at clean
      refine ⟨Or.inr ⟨t, 0, ?_⟩, ?_, invariant.calls, invariant.fresh⟩
      · refine ⟨if_pos rfl, ?_, ?_, ?_, ?_, ?_⟩
        · rw [set_frames_self]
          rfl
        · intro v other
          rw [set_frames_other _ t v _ other]
          exact free.outside v
        · intro owns
          rw [set_frames_self] at owns
          cases owns
        · intro id other _
          exact (if_neg other).trans (free.sems id other)
        · rw [set_frames_self]
          show Stage _ t s.next s.status s.outstanding s.callbacks 0
          rw [free.outstanding, free.callbacks]
          exact .quiet 0 ⟨nofun, nofun, nofun, nofun⟩
      · exact frames_set _ t _ invariant.frames clean
    · rw [iosWaitSemaphore_eq s _ _ _ held.mutex] at stepped
      cases stepped
  next => cases stepped

/-- A step in which the private semaphore of the thread with the mutex lives on. -/
theorem Held.move (s s' : State T) (t : T) (count after : Nat) (frame : Frame)
    (held : Held s t count) (owned : (s.frames t).pc.owns = true) (owns : frame.pc.owns = true)
    (sem : frame.sem = (s.frames t).sem) (mutex : s'.mutex = s.mutex)
    (frames : s'.frames = (s.set t frame).frames)
    (sems : s'.sems = (s.setSem frame.sem (some ⟨1, after⟩)).sems)
    (stage : Stage frame t s'.next s'.status s'.outstanding s'.callbacks after) :
    Held s' t after := by
  have own := held.own owned
  have here : s'.frames t = frame := by
    rw [frames, set_frames_self]
  refine ⟨?_, ?_, ?_, ?_, ?_, ?_⟩
  · rw [sems, mutex, setSem_sems_other, held.mutex]
    rw [sem]
    exact own.1.symm
  · rw [here]
    exact Pc.critical_of_owns _ owns
  · intro u other
    rw [frames]
    exact held.outside_set s t count frame u other
  · intro _
    rw [here, mutex, sems, setSem_sems_self, sem]
    exact ⟨own.1, rfl⟩
  · intro id other away
    rw [here] at away
    rw [mutex] at other
    rw [sems, setSem_sems_other s _ id _ (away owns)]
    apply held.sems id other
    intro _
    rw [← sem]
    exact away owns
  · rw [here]
    exact stage

theorem create_invariant (s s' : State T) (t : T) (id : Nat) (invariant : Invariant s)
    (stepped : step s (.create t id) = some s') : Invariant s' := by
  simp only [step] at stepped
  split at stepped
  next able =>
    obtain ⟨place, fresh⟩ := able
    obtain ⟨count, held⟩ := held_of_critical s invariant t (by rw [place]; rfl)
    obtain rfl := Option.some.inj stepped
    have clean := invariant.frames t
    simp only [Frame.Ok, place] at clean
    have other : id ≠ s.mutex := by
      intro same
      rw [same, held.mutex] at fresh
      cases fresh
    have rest := held.stage.at_rest (by rw [place]; nofun)
    refine ⟨Or.inr ⟨t, 1, ?_⟩, frames_set _ t _ invariant.frames clean, invariant.calls,
      invariant.fresh⟩
    refine ⟨?_, ?_, ?_, ?_, ?_, ?_⟩
    · exact (setSem_sems_other s id _ _ other.symm).trans held.mutex
    · rw [set_frames_self]
      rfl
    · exact fun u away => (Held.outside_set s t count _ held u away)
    · intro _
      rw [set_frames_self]
      exact ⟨other, setSem_sems_self s id _⟩
    · intro i away unowned
      rw [set_frames_self] at unowned
      refine (setSem_sems_other s id i _ (unowned rfl)).trans (held.sems i away ?_)
      intro owns
      rw [place] at owns
      cases owns
    · rw [set_frames_self]
      show Stage _ t s.next s.status s.outstanding s.callbacks 1
      rw [rest.1, rest.2]
      exact .acquire rfl
  next => cases stepped

theorem acquire_invariant (s s' : State T) (t : T) (invariant : Invariant s)
    (stepped : step s (.acquire t) = some s') : Invariant s' := by
  simp only [step] at stepped
  split at stepped
  next place =>
    obtain ⟨count, held⟩ := held_of_critical s invariant t (by rw [place]; rfl)
    have owned : (s.frames t).pc.owns = true := by
      rw [place]
      rfl
    have clean := invariant.frames t
    simp only [Frame.Ok, place] at clean
    have rest := held.stage.at_rest (by rw [place]; nofun)
    obtain rfl := held.stage.at_acquire place
    rw [iosWaitSemaphore_eq s _ _ _ (held.own owned).2] at stepped
    obtain rfl := Option.some.inj stepped
    refine ⟨Or.inr ⟨t, 0, ?_⟩, frames_set _ t _ invariant.frames clean, invariant.calls,
      invariant.fresh⟩
    refine Held.move s _ t 1 0 _ held owned ?_ ?_ rfl rfl rfl ?_
    · rfl
    · rfl
    · show Stage _ t s.next s.status s.outstanding s.callbacks 0
      rw [rest.1, rest.2]
      exact .issue rfl
  next => cases stepped

theorem issue_invariant (s s' : State T) (t : T) (ret : Word) (invariant : Invariant s)
    (stepped : step s (.issue t ret) = some s') : Invariant s' := by
  simp only [step] at stepped
  split at stepped
  next place =>
    obtain ⟨count, held⟩ := held_of_critical s invariant t (by rw [place]; rfl)
    have owned : (s.frames t).pc.owns = true := by
      rw [place]
      rfl
    have clean := invariant.frames t
    simp only [Frame.Ok, place] at clean
    have rest := held.stage.at_rest (by rw [place]; nofun)
    obtain rfl := held.stage.at_issue place
    have sems := setSem_same s _ _ (held.own owned).2
    split at stepped
    next accepted =>
      subst accepted
      obtain rfl := Option.some.inj stepped
      refine ⟨Or.inr ⟨t, 0, ?_⟩, frames_set s t _ invariant.frames clean.1, invariant.calls, ?_⟩
      · refine Held.move s _ t 0 0 _ held owned ?_ ?_ rfl rfl sems.symm ?_
        · rfl
        · rfl
        · show Stage _ t (s.next + 1) s.status (⟨s.next, t⟩ :: s.outstanding) s.callbacks 0
          rw [rest.1, rest.2]
          exact .outstanding s.next rfl rfl rfl (Nat.lt_succ_self _)
            (invariant.fresh _ (Nat.le_refl _))
      · intro id later
        exact invariant.fresh id (Nat.le_of_succ_le later)
    next rejected =>
      obtain rfl := Option.some.inj stepped
      refine ⟨Or.inr ⟨t, 0, ?_⟩, ?_, invariant.calls, invariant.fresh⟩
      · refine Held.move s _ t 0 0 _ held owned ?_ ?_ rfl rfl sems.symm ?_
        · rfl
        · rfl
        · show Stage _ t s.next s.status s.outstanding s.callbacks 0
          rw [rest.1, rest.2]
          exact .quiet 0 ⟨nofun, nofun, nofun, nofun⟩
      · apply frames_set s t _ invariant.frames
        exact ⟨clean.1, fun accepted => absurd accepted rejected, fun _ => clean.2⟩
  next => cases stepped

theorem wait_invariant (s s' : State T) (t : T) (invariant : Invariant s)
    (stepped : step s (.wait t) = some s') : Invariant s' := by
  simp only [step] at stepped
  split at stepped
  next place =>
    obtain ⟨count, held⟩ := held_of_critical s invariant t (by rw [place]; rfl)
    have owned : (s.frames t).pc.owns = true := by
      rw [place]
      rfl
    have clean := invariant.frames t
    simp only [Frame.Ok, place] at clean
    rw [iosWaitSemaphore_eq s _ _ _ (held.own owned).2] at stepped
    split at stepped
    next => cases stepped
    next signalled =>
      obtain ⟨outstanding, callbacks, one, accepted, id, cmd, reported⟩ :=
        held.stage.at_wait place signalled
      subst one
      obtain rfl := Option.some.inj stepped
      refine ⟨Or.inr ⟨t, 0, ?_⟩, frames_set _ t _ invariant.frames clean, invariant.calls,
        invariant.fresh⟩
      refine Held.move s _ t 1 0 _ held owned ?_ ?_ rfl rfl rfl ?_
      · rfl
      · rfl
      · show Stage _ t s.next s.status s.outstanding s.callbacks 0
        rw [outstanding, callbacks]
        exact .fetch id rfl accepted cmd reported
  next => cases stepped

theorem fetch_invariant (s s' : State T) (t : T) (invariant : Invariant s)
    (stepped : step s (.fetch t) = some s') : Invariant s' := by
  simp only [step] at stepped
  split at stepped
  next place =>
    obtain ⟨count, held⟩ := held_of_critical s invariant t (by rw [place]; rfl)
    have owned : (s.frames t).pc.owns = true := by
      rw [place]
      rfl
    have clean := invariant.frames t
    simp only [Frame.Ok, place] at clean
    have rest := held.stage.at_rest (by rw [place]; nofun)
    obtain ⟨zero, accepted, id, cmd, reported⟩ := held.stage.at_fetch place
    subst zero
    have sems := setSem_same s _ _ (held.own owned).2
    obtain rfl := Option.some.inj stepped
    refine ⟨Or.inr ⟨t, 0, ?_⟩, ?_, invariant.calls, invariant.fresh⟩
    · refine Held.move s _ t 0 0 _ held owned ?_ ?_ rfl rfl sems.symm ?_
      · rfl
      · rfl
      · show Stage _ t s.next s.status s.outstanding s.callbacks 0
        rw [rest.1, rest.2]
        exact .quiet 0 ⟨nofun, nofun, nofun, nofun⟩
    · apply frames_set s t _ invariant.frames
      exact ⟨clean, fun _ => ⟨id, cmd, reported⟩, fun rejected => absurd accepted rejected⟩
  next => cases stepped

theorem destroy_invariant (s s' : State T) (t : T) (invariant : Invariant s)
    (stepped : step s (.destroy t) = some s') : Invariant s' := by
  simp only [step] at stepped
  split at stepped
  next place =>
    obtain ⟨count, held⟩ := held_of_critical s invariant t (by rw [place]; rfl)
    have owned : (s.frames t).pc.owns = true := by
      rw [place]
      rfl
    have clean := invariant.frames t
    simp only [Frame.Ok, place] at clean
    have rest := held.stage.at_rest (by rw [place]; nofun)
    have own := held.own owned
    obtain rfl := Option.some.inj stepped
    refine ⟨Or.inr ⟨t, 0, ?_⟩, ?_, invariant.calls, invariant.fresh⟩
    · refine ⟨?_, ?_, ?_, ?_, ?_, ?_⟩
      · exact (setSem_sems_other s _ _ _ own.1.symm).trans held.mutex
      · rw [set_frames_self]
        rfl
      · exact fun u away => Held.outside_set s t count _ held u away
      · intro owns
        rw [set_frames_self] at owns
        cases owns
      · intro id away _
        by_cases same : id = (s.frames t).sem
        · subst same
          exact setSem_sems_self s _ _
        · exact (setSem_sems_other s _ id _ same).trans (held.sems id away fun _ => same)
      · rw [set_frames_self]
        show Stage _ t s.next s.status s.outstanding s.callbacks 0
        rw [rest.1, rest.2]
        exact .quiet 0 ⟨nofun, nofun, nofun, nofun⟩
    · exact frames_set _ t _ invariant.frames ⟨clean.1, clean.2, rfl⟩
  next => cases stepped

theorem unlock_invariant (s s' : State T) (t : T) (invariant : Invariant s)
    (stepped : step s (.unlock t) = some s') : Invariant s' := by
  simp only [step] at stepped
  split at stepped
  next place =>
    obtain ⟨count, held⟩ := held_of_critical s invariant t (by rw [place]; rfl)
    have clean := invariant.frames t
    simp only [Frame.Ok, place] at clean
    have rest := held.stage.at_rest (by rw [place]; nofun)
    rw [iosSignalSemaphore_eq s _ _ _ held.mutex (by decide)] at stepped
    obtain rfl := Option.some.inj stepped
    refine ⟨Or.inl ?_, ?_, invariant.calls, invariant.fresh⟩
    · refine ⟨setSem_sems_self s _ _, ?_, ?_, rest.1, rest.2⟩
      · intro id other
        refine (setSem_sems_other s _ id _ other).trans (held.sems id other ?_)
        intro owns
        rw [place] at owns
        cases owns
      · intro u
        by_cases same : u = t
        · subst same
          rw [set_frames_self]
          rfl
        · exact Held.outside_set s t count _ held u same
    · exact frames_set _ t _ invariant.frames ⟨clean.1, clean.2.1, clean.2.2, rfl⟩
  next => cases stepped

theorem callback_invariant (s s' : State T) (t : T) (invariant : Invariant s)
    (stepped : step s (.callback t) = some s') : Invariant s' := by
  simp only [step] at stepped
  split at stepped
  next place =>
    have clean := invariant.frames t
    simp only [Frame.Ok, place] at clean
    obtain ⟨none, outcome, destroyed, released⟩ := clean
    obtain rfl := Option.some.inj stepped
    refine ⟨?_, ?_, invariant.calls, invariant.fresh⟩
    · apply mutex_set_outside s t _ invariant.mutex
      · rw [place]
        rfl
      · rfl
    · apply frames_set s t _ invariant.frames
      refine ⟨outcome, ?_, destroyed, released⟩
      simp only [none]
  next => cases stepped

theorem finish_invariant (s s' : State T) (t : T) (invariant : Invariant s)
    (stepped : step s (.finish t) = some s') : Invariant s' := by
  simp only [step] at stepped
  split at stepped
  next place =>
    have clean := invariant.frames t
    simp only [Frame.Ok, place] at clean
    have mutex := mutex_set_outside s t { s.frames t with pc := .idle } invariant.mutex
      (by rw [place]; rfl) rfl
    obtain rfl := Option.some.inj stepped
    refine ⟨?_, frames_set s t _ invariant.frames True.intro, ?_, invariant.fresh⟩
    · rcases mutex with free | ⟨u, count, held⟩
      · exact Or.inl ⟨free.mutex, free.sems, free.outside, free.outstanding, free.callbacks⟩
      · exact Or.inr ⟨u, count, held.mutex, held.inside, held.outside, held.own, held.sems,
          held.stage⟩
    · intro frame member
      rcases List.mem_cons.mp member with here | there
      · subst here
        exact clean
      · exact invariant.calls frame there
  next => cases stepped

theorem complete_invariant (s s' : State T) (status : Word) (invariant : Invariant s)
    (stepped : step s (.complete status) = some s') : Invariant s' := by
  simp only [step] at stepped
  split at stepped
  next cmd remaining queue =>
    rcases invariant.mutex with free | ⟨t, count, held⟩
    · rw [free.outstanding] at queue
      cases queue
    · have stage := held.stage
      rw [queue] at stage
      obtain ⟨last, callbacks, zero, arg, place, accepted, issuer, issued, pending⟩ :=
        stage.at_outstanding
      subst zero arg last
      have owned : (s.frames cmd.arg).pc.owns = true := by
        rw [place]
        rfl
      have clean := invariant.frames cmd.arg
      simp only [Frame.Ok, place] at clean
      have later : ∀ id result, s.status id = some result →
          (if id = cmd.id then some status else s.status id) = some result := by
        intro id result reported
        have other : id ≠ cmd.id := by
          intro same
          rw [same, pending] at reported
          cases reported
        rw [if_neg other]
        exact reported
      obtain rfl := Option.some.inj stepped
      refine ⟨Or.inr ⟨cmd.arg, 0, ?_⟩, ?_, ?_, ?_⟩
      · refine Held.move s _ cmd.arg 0 0 { s.frames cmd.arg with result := status } held owned
          owned rfl rfl rfl ?_ ?_
        · exact (setSem_same s _ _ (held.own owned).2).symm
        · show Stage _ cmd.arg s.next _ [] (cmd :: s.callbacks) 0
          rw [callbacks]
          exact .calledBack cmd.id place accepted issuer (if_pos rfl)
      · intro u
        apply Frame.Ok.later _ later
        apply frames_set s cmd.arg _ invariant.frames
        simpa only [Frame.Ok, place] using clean
      · intro frame member
        exact (invariant.calls frame member).later later
      · intro id unissued
        have other : id ≠ cmd.id := by
          intro same
          subst same
          exact Nat.lt_irrefl _ (Nat.lt_of_lt_of_le issued unissued)
        exact (if_neg other).trans (invariant.fresh id unissued)
  next => cases stepped

theorem signal_invariant (s s' : State T) (invariant : Invariant s)
    (stepped : step s .signal = some s') : Invariant s' := by
  simp only [step] at stepped
  split at stepped
  next cmd remaining queue =>
    rcases invariant.mutex with free | ⟨t, count, held⟩
    · rw [free.callbacks] at queue
      cases queue
    · have stage := held.stage
      rw [queue] at stage
      obtain ⟨outstanding, last, zero, arg, place, accepted, issuer, reported⟩ :=
        stage.at_callbacks
      subst zero arg last
      have owned : (s.frames cmd.arg).pc.owns = true := by
        rw [place]
        rfl
      rw [iosSignalSemaphore_eq s _ _ _ (held.own owned).2 (by decide)] at stepped
      obtain rfl := Option.some.inj stepped
      refine ⟨Or.inr ⟨cmd.arg, 1, ?_⟩, invariant.frames, invariant.calls, invariant.fresh⟩
      refine Held.move s _ cmd.arg 0 1 (s.frames cmd.arg) held owned owned rfl rfl ?_ rfl ?_
      · funext u
        by_cases same : u = cmd.arg
        · subst same
          exact (set_frames_self s _ _).symm
        · exact (set_frames_other s _ u _ same).symm
      · show Stage _ cmd.arg s.next s.status s.outstanding [] 1
        rw [outstanding]
        exact .signalled cmd.id place accepted issuer reported
  next => cases stepped

theorem step_invariant (s s' : State T) (a : Action T) (invariant : Invariant s)
    (stepped : step s a = some s') : Invariant s' := by
  cases a with
  | enter t callback => exact enter_invariant s s' t callback invariant stepped
  | lock t => exact lock_invariant s s' t invariant stepped
  | create t id => exact create_invariant s s' t id invariant stepped
  | acquire t => exact acquire_invariant s s' t invariant stepped
  | issue t ret => exact issue_invariant s s' t ret invariant stepped
  | wait t => exact wait_invariant s s' t invariant stepped
  | fetch t => exact fetch_invariant s s' t invariant stepped
  | destroy t => exact destroy_invariant s s' t invariant stepped
  | unlock t => exact unlock_invariant s s' t invariant stepped
  | callback t => exact callback_invariant s s' t invariant stepped
  | finish t => exact finish_invariant s s' t invariant stepped
  | complete status => exact complete_invariant s s' status invariant stepped
  | signal => exact signal_invariant s s' invariant stepped

theorem run_invariant (s s' : State T) (actions : List (Action T)) (invariant : Invariant s)
    (ran : run s actions = some s') : Invariant s' := by
  induction actions generalizing s with
  | nil =>
      obtain rfl := Option.some.inj ran
      exact invariant
  | cons a rest ih =>
      obtain ⟨between, stepped, ran⟩ := Option.bind_eq_some_iff.mp ran
      exact ih between (step_invariant s between a invariant stepped) ran

/-- Every order of the steps of any number of threads with those of the driver. -/
theorem run_serialised (mutex : Nat) (actions : List (Action T)) (s : State T)
    (ran : run (initial T mutex) actions = some s) : Serialised s :=
  (run_invariant _ s actions (initial_invariant T mutex) ran).serialised

end Invariant

/-- A call whose callback comes before it waits, while another thread asks for the mutex;
the command of the second is rejected. -/
def sampleActions : List (Action Bool) :=
  [.enter false true, .lock false, .enter true true, .create false 1, .acquire false,
    .issue false 0#32, .complete 7#32, .signal, .wait false, .fetch false, .destroy false,
    .unlock false, .lock true, .callback false, .create true 1, .acquire true,
    .finish false, .issue true 5#32, .destroy true, .unlock true, .callback true, .finish true]

theorem run_serialised_sample :
    ∃ s, run (initial Bool 0) sampleActions = some s ∧ s.calls.length = 2 ∧ Serialised s := by
  have ran : (run (initial Bool 0) sampleActions).isSome = true := by decide
  refine ⟨(run (initial Bool 0) sampleActions).get ran, (Option.some_get ran).symm, rfl, ?_⟩
  exact run_serialised 0 sampleActions _ (Option.some_get ran).symm

end Stroopwafel.SdcardAccess
