import Stroopwafel.Memory

set_option autoImplicit false

namespace Stroopwafel.Scfm

open Memory

inductive Reg where
  | r0 | r1 | r2 | r3 | r4 | r5 | r6 | r7 | r8 | r9 | r10 | r11 | r12 | sp | lr | pc
  deriving DecidableEq

inductive Label where
  | strR
  | strWplus
  | strMntScfmImg
  | strCmptScfmImg
  | strMigrationFailFormat
  | strMigrateProgressFormat

/-- A read or a write of a block, with what it returned -/
structure Transfer where
  fsa : Word
  buf : Word
  size : Word
  count : Word
  offset : Word
  file : Word
  flag : Word
  result : Word

/-- The calls, with their arguments and what they returned -/
inductive Call where
  | fsaOpenFile (fsa name mode result handle : Word)
  | iosMemalign (heap size align result : Word)
  | fsaReadFileOffset (t : Transfer)
  | fsaWriteFileOffset (t : Transfer)
  | fsaCloseFile (fsa file : Word)
  | iosFree (heap ptr : Word)

/-- What the calls return, the reads and writes block by block, and what a call leaves in the
registers that it need not preserve. `frame` stands in the stack below the saved registers. -/
structure Results where
  openSrc : Word
  srcHandle : Word
  openDst : Word
  dstHandle : Word
  buffer : Word
  read : Nat → Word
  write : Nat → Word
  close : Nat → Word
  free : Word
  syslog : Word
  scratch : Nat → Reg → Word
  frame : Nat → Word

/-- The stack is the words from `SP` up. -/
structure State where
  regs : Reg → Word
  stack : Nat → Word
  log : List Call
  messages : List (Word × Word × Word)

def State.set (s : State) (r : Reg) (value : Word) : State :=
  { s with regs := fun i => if i = r then value else s.regs i }

/-- `str`, with the address from `SP` on in words -/
def State.store (s : State) (slot : Nat) (value : Word) : State :=
  { s with stack := fun i => if i = slot then value else s.stack i }

/-- `push` of one register -/
def State.push (s : State) (r : Reg) : State :=
  { s with
    stack := fun i => if i = 0 then s.regs r else s.stack (i - 1)
    regs := fun i => if i = .sp then s.regs .sp - 4#32 else s.regs i }

/-- `pop` of one register -/
def State.pop (s : State) (r : Reg) : State :=
  { s with
    stack := fun i => s.stack (i + 1)
    regs := fun i => if i = .sp then s.regs .sp + 4#32 else if i = r then s.stack 0 else s.regs i }

/-- `sub sp, #4 * n` -/
def State.reserve (s : State) (n : Nat) (frame : Nat → Word) : State :=
  { s with
    stack := fun i => if i < n then frame i else s.stack (i - n)
    regs := fun i => if i = .sp then s.regs .sp - BitVec.ofNat 32 (4 * n) else s.regs i }

/-- `add sp, #4 * n` -/
def State.release (s : State) (n : Nat) : State :=
  { s with
    stack := fun i => s.stack (i + n)
    regs := fun i => if i = .sp then s.regs .sp + BitVec.ofNat 32 (4 * n) else s.regs i }

/-- The registers that a call need not preserve. -/
def scratchRegs : List Reg := [.r1, .r2, .r3, .r12, .lr]

section Functions

variable (address : Label → Word) (results : Results)

def State.returned (s : State) (result : Word) : State :=
  { s with regs := fun i =>
      if i = .r0 then result
      else if i ∈ scratchRegs then results.scratch (s.log.length + s.messages.length) i
      else s.regs i }

def State.call (s : State) (c : Call) (result : Word) : State :=
  { s.returned results result with log := s.log ++ [c] }

/-- `REL_FS_SYSLOG_OUTPUT` -/
def syslogOutput (s : State) : State :=
  { s.returned results results.syslog with
    messages := s.messages ++ [(s.regs .r0, s.regs .r1, s.regs .r2)] }

/-- `REL_FS_FSAOPENFILE`, which stores the handle at `r3` -/
def fsaOpenFile (s : State) (result handle : Word) : State :=
  (s.store ((s.regs .r3 - s.regs .sp).toNat / 4) handle).call results
    (.fsaOpenFile (s.regs .r0) (s.regs .r1) (s.regs .r2) result handle) result

/-- The arguments of `REL_FS_FSAREADFILEOFFSET` and `REL_FS_FSAWRITEFILEOFFSET` -/
def State.transfer (s : State) (result : Word) : Transfer :=
  ⟨s.regs .r0, s.regs .r1, s.regs .r2, s.regs .r3, s.stack 0, s.stack 1, s.stack 2, result⟩

def fsaCloseFile (s : State) (result : Word) : State :=
  s.call results (.fsaCloseFile (s.regs .r0) (s.regs .r1)) result

def scfmMigrationThrowError (s : State) : State :=
  let s := s.set .r2 (s.regs .r0)
  let s := s.set .r0 (address .strMigrationFailFormat)
  syslogOutput results s

/-- `pop {r4-r9,pc}` -/
def popSaved (s : State) : State :=
  [.r4, .r5, .r6, .r7, .r8, .r9, .pc].foldl State.pop s

/-- From `scfm_do_migration_ret` on. The result is popped in the branch with a buffer only. -/
def scfmDoMigrationRet (s : State) : State :=
  let s := s.push .r0
  let s := s.set .r1 (s.regs .r5)
  let s := s.set .r0 (s.regs .r4)
  let s := fsaCloseFile results s (results.close 0)
  let s := s.set .r1 (s.regs .r6)
  let s := s.set .r0 (s.regs .r4)
  let s := fsaCloseFile results s (results.close 1)
  if s.regs .r7 = 0#32 then popSaved (s.release 4)
  else
    let s := s.set .r1 (s.regs .r7)
    let s := s.set .r0 1#32
    let s := s.call results (.iosFree (s.regs .r0) (s.regs .r1)) results.free
    let s := s.pop .r0
    popSaved (s.release 4)

def scfmDoMigrationFailRet (s : State) : State :=
  let s := scfmMigrationThrowError address results s
  let s := s.set .r0 (-1#32)
  scfmDoMigrationRet results s

/-- The arguments of a transfer of the block in `r9` at the offset in `r10` -/
def blockArguments (s : State) (file : Reg) : State :=
  let s := s.store 0 (s.regs .r10)
  let s := s.store 1 (s.regs file)
  let s := s.set .r0 0x20#32
  let s := s.store 2 (s.regs .r0)
  let s := s.set .r0 (s.regs .r4)
  let s := s.set .r1 (s.regs .r7)
  let s := s.set .r2 1#32
  s.set .r3 (s.regs .r9)

/-- A round of `scfm_migrate_copy_loop`, up to the branch back or with the state in which it
branches to `scfm_do_migration_fail_ret`. -/
def copyBlock (k : Nat) (s : State) : Except State State :=
  let s := s.set .r9 (s.regs .r8)
  let s := if 0x100000#32 < s.regs .r9 then s.set .r9 0x100000#32 else s
  let s := blockArguments s .r5
  let s := s.call results (.fsaReadFileOffset (s.transfer (results.read k))) (results.read k)
  if s.regs .r0 ≠ s.regs .r9 then .error (s.set .r1 7#32)
  else
    let s := blockArguments s .r6
    let s := s.call results (.fsaWriteFileOffset (s.transfer (results.write k))) (results.write k)
    if s.regs .r0 ≠ s.regs .r9 then .error (s.set .r1 8#32)
    else
      let s := s.set .r8 (s.regs .r8 - s.regs .r9)
      let s := s.set .r10 (s.regs .r10 + s.regs .r9)
      let s := s.set .r1 (s.regs .r8)
      let s := s.set .r0 (address .strMigrateProgressFormat)
      .ok (syslogOutput results s)

end Functions

section Registers

variable (s : State) (results : Results) (r i : Reg) (value : Word)

@[simp] theorem set_regs : (s.set r value).regs i = if i = r then value else s.regs i := rfl
@[simp] theorem set_stack : (s.set r value).stack = s.stack := rfl
@[simp] theorem set_log : (s.set r value).log = s.log := rfl
@[simp] theorem store_regs (slot : Nat) : (s.store slot value).regs = s.regs := rfl
@[simp] theorem store_stack (slot n : Nat) :
    (s.store slot value).stack n = if n = slot then value else s.stack n := rfl
@[simp] theorem store_log (slot : Nat) : (s.store slot value).log = s.log := rfl
@[simp] theorem call_stack (c : Call) : (s.call results c value).stack = s.stack := rfl
@[simp] theorem call_log (c : Call) : (s.call results c value).log = s.log ++ [c] := rfl
@[simp] theorem call_result (c : Call) : (s.call results c value).regs .r0 = value := rfl

/-- A call preserves the other registers. -/
theorem call_regs (c : Call) (kept : r ∉ .r0 :: scratchRegs) :
    (s.call results c value).regs r = s.regs r := by
  rw [List.mem_cons, not_or] at kept
  change (if r = .r0 then value else if r ∈ scratchRegs then _ else s.regs r) = _
  rw [if_neg kept.1, if_neg kept.2]

theorem syslogOutput_regs (kept : r ∉ .r0 :: scratchRegs) :
    (syslogOutput results s).regs r = s.regs r := by
  rw [List.mem_cons, not_or] at kept
  change (if r = .r0 then _ else if r ∈ scratchRegs then _ else s.regs r) = _
  rw [if_neg kept.1, if_neg kept.2]

@[simp] theorem syslogOutput_stack : (syslogOutput results s).stack = s.stack := rfl
@[simp] theorem syslogOutput_log : (syslogOutput results s).log = s.log := rfl

end Registers

/-- The reads and writes, with whether it is a write -/
def transfers (log : List Call) : List (Bool × Transfer) := log.filterMap fun
  | .fsaReadFileOffset t => some (false, t)
  | .fsaWriteFileOffset t => some (true, t)
  | _ => none

/-- The calls are reads and writes. -/
def OnlyTransfers (calls : List Call) : Prop :=
  ∀ c ∈ calls, ∃ t, c = .fsaReadFileOffset t ∨ c = .fsaWriteFileOffset t

/-- One of the calls does not move all of its block. -/
def FallsShort (calls : List Call) : Prop :=
  OnlyTransfers calls ∧ ∃ w t, (w, t) ∈ transfers calls ∧ t.result ≠ t.count

/-- The registers that the copy does not change -/
def keptRegs : List Reg := [.r4, .r5, .r6, .r7, .r11, .sp]

/-- What the copy keeps -/
structure Keeps (s s' : State) : Prop where
  regs : ∀ r ∈ keptRegs, s'.regs r = s.regs r
  stack : ∀ i, s'.stack (i + 4) = s.stack (i + 4)

/-- The size of the next block when `left` bytes are left -/
def blockSize (left : Word) : Word := if 0x100000#32 < left then 0x100000#32 else left

/-- A transfer of the next block -/
def blockTransfer (s : State) (file : Reg) (result : Word) : Transfer :=
  ⟨s.regs .r4, s.regs .r7, 1#32, blockSize (s.regs .r8), s.regs .r10, s.regs file, 0x20#32, result⟩

section Block

variable (address : Label → Word) (results : Results) (k : Nat) (s : State)

theorem blockArguments_transfer (file : Reg) (result : Word) :
    (blockArguments s file).transfer result =
      ⟨s.regs .r4, s.regs .r7, 1#32, s.regs .r9, s.regs .r10, s.regs file, 0x20#32, result⟩ := by
  unfold blockArguments State.transfer
  simp

theorem blockArguments_regs (file r : Reg) (kept : r ∉ [.r0, .r1, .r2, .r3]) :
    (blockArguments s file).regs r = s.regs r := by
  simp only [List.mem_cons, List.not_mem_nil, or_false, not_or] at kept
  unfold blockArguments
  simp [kept]

theorem blockArguments_stack (file : Reg) (i : Nat) :
    (blockArguments s file).stack (i + 4) = s.stack (i + 4) := by
  unfold blockArguments
  simp

theorem blockArguments_log (file : Reg) : (blockArguments s file).log = s.log := rfl

/-- The block size is in `r9`. -/
def sized : State :=
  let s := s.set .r9 (s.regs .r8)
  if 0x100000#32 < s.regs .r9 then s.set .r9 0x100000#32 else s

theorem sized_r9 : (sized s).regs .r9 = blockSize (s.regs .r8) := by
  unfold sized blockSize
  simp only [set_regs, if_true]
  split <;> simp

theorem sized_regs (r : Reg) (other : r ≠ .r9) : (sized s).regs r = s.regs r := by
  unfold sized
  dsimp only
  split <;> simp [other]

theorem sized_stack : (sized s).stack = s.stack := by
  unfold sized
  dsimp only
  split <;> rfl

theorem sized_log : (sized s).log = s.log := by
  unfold sized
  dsimp only
  split <;> rfl

/-- The block is read into the buffer. -/
def blockRead : State :=
  let s := blockArguments (sized s) .r5
  s.call results (.fsaReadFileOffset (s.transfer (results.read k))) (results.read k)

/-- The block is written. -/
def blockWritten : State :=
  let s := blockArguments (blockRead results k s) .r6
  s.call results (.fsaWriteFileOffset (s.transfer (results.write k))) (results.write k)

/-- The registers that a block may change -/
def blockRegs : List Reg := [.r0, .r1, .r2, .r3, .r9, .r12, .lr]

theorem keptRegs_apart (r : Reg) (kept : r ∈ keptRegs) :
    r ∉ blockRegs ∧ r ≠ .r8 ∧ r ≠ .r10 := by
  revert kept
  cases r <;> decide

theorem blockRead_regs (r : Reg) (kept : r ∉ blockRegs) :
    (blockRead results k s).regs r = s.regs r := by
  simp only [blockRegs, List.mem_cons, List.not_mem_nil, or_false, not_or] at kept
  unfold blockRead
  rw [call_regs _ _ _ _ _ (by simp [scratchRegs, kept]),
    blockArguments_regs _ _ _ (by simp [kept]), sized_regs _ _ (by simp [kept])]

theorem blockRead_r9 : (blockRead results k s).regs .r9 = blockSize (s.regs .r8) := by
  unfold blockRead
  rw [call_regs _ _ _ _ _ (by decide), blockArguments_regs _ _ _ (by decide), sized_r9]

theorem blockRead_stack (i : Nat) : (blockRead results k s).stack (i + 4) = s.stack (i + 4) := by
  unfold blockRead
  rw [call_stack, blockArguments_stack, sized_stack]

theorem blockRead_log : (blockRead results k s).log =
    s.log ++ [.fsaReadFileOffset (blockTransfer s .r5 (results.read k))] := by
  unfold blockRead blockTransfer
  dsimp only
  rw [call_log, blockArguments_log, sized_log, blockArguments_transfer, sized_r9,
    sized_regs _ .r4 (by decide), sized_regs _ .r7 (by decide), sized_regs _ .r10 (by decide),
    sized_regs _ .r5 (by decide)]

theorem blockWritten_regs (r : Reg) (kept : r ∉ blockRegs) :
    (blockWritten results k s).regs r = s.regs r := by
  have same := blockRead_regs results k s r kept
  simp only [blockRegs, List.mem_cons, List.not_mem_nil, or_false, not_or] at kept
  unfold blockWritten
  rw [call_regs _ _ _ _ _ (by simp [scratchRegs, kept]),
    blockArguments_regs _ _ _ (by simp [kept]), same]

theorem blockWritten_r9 : (blockWritten results k s).regs .r9 = blockSize (s.regs .r8) := by
  unfold blockWritten
  rw [call_regs _ _ _ _ _ (by decide), blockArguments_regs _ _ _ (by decide), blockRead_r9]

theorem blockWritten_stack (i : Nat) :
    (blockWritten results k s).stack (i + 4) = s.stack (i + 4) := by
  unfold blockWritten
  rw [call_stack, blockArguments_stack, blockRead_stack]

theorem blockWritten_log : (blockWritten results k s).log =
    s.log ++ [.fsaReadFileOffset (blockTransfer s .r5 (results.read k)),
      .fsaWriteFileOffset (blockTransfer s .r6 (results.write k))] := by
  have same := blockRead_regs results k s
  unfold blockWritten
  dsimp only
  rw [call_log, blockArguments_log, blockRead_log, blockArguments_transfer, blockRead_r9,
    same .r4 (by decide), same .r7 (by decide), same .r10 (by decide), same .r6 (by decide),
    List.append_assoc]
  rfl

theorem copyBlock_eq : copyBlock address results k s =
    if results.read k ≠ (blockRead results k s).regs .r9 then
      .error ((blockRead results k s).set .r1 7#32)
    else if results.write k ≠ (blockWritten results k s).regs .r9 then
      .error ((blockWritten results k s).set .r1 8#32)
    else
      let s := blockWritten results k s
      let s := s.set .r8 (s.regs .r8 - s.regs .r9)
      let s := s.set .r10 (s.regs .r10 + s.regs .r9)
      let s := s.set .r1 (s.regs .r8)
      let s := s.set .r0 (address .strMigrateProgressFormat)
      .ok (syslogOutput results s) := rfl

/-- The block is written, and the size that is left and the offset are moved on. -/
theorem copyBlock_ok (read : results.read k = blockSize (s.regs .r8))
    (written : results.write k = blockSize (s.regs .r8)) :
    ∃ s', copyBlock address results k s = .ok s' ∧ Keeps s s' ∧
      s'.regs .r8 = s.regs .r8 - blockSize (s.regs .r8) ∧
      s'.regs .r10 = s.regs .r10 + blockSize (s.regs .r8) ∧
      s'.log = s.log ++ [.fsaReadFileOffset (blockTransfer s .r5 (results.read k)),
        .fsaWriteFileOffset (blockTransfer s .r6 (results.write k))] := by
  have same := blockWritten_regs results k s
  rw [copyBlock_eq, blockRead_r9, blockWritten_r9, if_neg (fun differs => differs read),
    if_neg (fun differs => differs written)]
  refine ⟨_, rfl, ⟨?_, blockWritten_stack results k s⟩, ?_, ?_, blockWritten_log results k s⟩
  · intro r kept
    obtain ⟨apart, not8, not10⟩ := keptRegs_apart r kept
    rw [← same r apart]
    simp only [blockRegs, List.mem_cons, List.not_mem_nil, or_false, not_or] at apart
    rw [syslogOutput_regs _ _ _ (by simp [scratchRegs, apart])]
    simp [apart, not8, not10]
  · rw [syslogOutput_regs _ _ _ (by decide)]
    simp [same .r8 (by decide), blockWritten_r9]
  · rw [syslogOutput_regs _ _ _ (by decide)]
    simp [same .r10 (by decide), blockWritten_r9]

/-- The copy fails, with the offset of the block that failed. -/
theorem copyBlock_error (failed : ¬ (results.read k = blockSize (s.regs .r8) ∧
      results.write k = blockSize (s.regs .r8))) :
    ∃ s' calls, copyBlock address results k s = .error s' ∧ Keeps s s' ∧
      s'.regs .r10 = s.regs .r10 ∧ s'.log = s.log ++ calls ∧ FallsShort calls := by
  rw [copyBlock_eq, blockRead_r9, blockWritten_r9]
  by_cases read : results.read k = blockSize (s.regs .r8)
  · have written : results.write k ≠ blockSize (s.regs .r8) := fun same => failed ⟨read, same⟩
    rw [if_neg (fun differs => differs read), if_pos written]
    refine ⟨_, _, rfl, ⟨?_, blockWritten_stack results k s⟩, ?_,
      blockWritten_log results k s, ?_, ?_⟩
    · intro r kept
      obtain ⟨apart, _, _⟩ := keptRegs_apart r kept
      rw [set_regs, if_neg (by rintro rfl; exact apart (by decide)),
        blockWritten_regs _ _ _ r apart]
    · exact blockWritten_regs results k s .r10 (by decide)
    · unfold OnlyTransfers
      rw [List.forall_mem_cons, List.forall_mem_singleton]
      exact ⟨⟨_, .inl rfl⟩, ⟨_, .inr rfl⟩⟩
    · exact ⟨true, _, List.mem_cons_of_mem _ List.mem_cons_self, written⟩
  · rw [if_pos read]
    refine ⟨_, _, rfl, ⟨?_, blockRead_stack results k s⟩, ?_, blockRead_log results k s, ?_, ?_⟩
    · intro r kept
      obtain ⟨apart, _, _⟩ := keptRegs_apart r kept
      rw [set_regs, if_neg (by rintro rfl; exact apart (by decide)), blockRead_regs _ _ _ r apart]
    · exact blockRead_regs results k s .r10 (by decide)
    · unfold OnlyTransfers
      rw [List.forall_mem_singleton]
      exact ⟨_, .inl rfl⟩
    · exact ⟨false, _, List.mem_cons_self, read⟩

theorem copyBlock_left {s' : State} (round : copyBlock address results k s = .ok s') :
    s'.regs .r8 = s.regs .r8 - blockSize (s.regs .r8) := by
  by_cases good : results.read k = blockSize (s.regs .r8) ∧
      results.write k = blockSize (s.regs .r8)
  · obtain ⟨_, same, _, left, _⟩ := copyBlock_ok address results k s good.1 good.2
    rw [round] at same
    cases same
    exact left
  · obtain ⟨_, _, same, _⟩ := copyBlock_error address results k s good
    rw [round] at same
    cases same

end Block

section Functions

variable (address : Label → Word) (results : Results)

/-- `scfm_migrate_copy_loop` from the `k`-th block on, and what follows it -/
def copyLoop (k : Nat) (s : State) : State :=
  match round : copyBlock address results k s with
  | .error s' => scfmDoMigrationFailRet address results s'
  | .ok s' =>
      if _ : 0#32 < s'.regs .r8 then copyLoop (k + 1) s'
      else scfmDoMigrationRet results (s'.set .r0 0#32)
termination_by (s.regs .r8).toNat
decreasing_by
  have left := copyBlock_left address results k s round
  unfold blockSize at left
  split at left <;> bv_omega

def openSource (s : State) : State :=
  let s := s.set .r3 (s.regs .sp)
  let s := s.set .r2 (address .strR)
  let s := s.set .r1 (address .strMntScfmImg)
  let s := s.set .r0 (s.regs .r4)
  fsaOpenFile results s results.openSrc results.srcHandle

def openDestination (s : State) : State :=
  let s := s.set .r3 (s.regs .sp + 4#32)
  let s := s.set .r2 (address .strWplus)
  let s := s.set .r1 (address .strCmptScfmImg)
  let s := s.set .r0 (s.regs .r4)
  fsaOpenFile results s results.openDst results.dstHandle

def acquireBuffer (s : State) : State :=
  let s := s.set .r0 1#32
  let s := s.set .r1 0x100000#32
  let s := s.set .r2 0x40#32
  s.call results (.iosMemalign (s.regs .r0) (s.regs .r1) (s.regs .r2) results.buffer) results.buffer

/-- The part of `scfm_do_migration` in front of the first call -/
def migrationStart (s : State) : State :=
  let s := [.lr, .r9, .r8, .r7, .r6, .r5, .r4].foldl State.push s
  let s := s.reserve 4 results.frame
  let s := s.set .r4 (s.regs .r0)
  let s := s.set .r5 (-1#32)
  let s := s.set .r6 (-1#32)
  s.set .r7 0#32

def scfmDoMigration (s : State) : State :=
  let s := migrationStart results s
  let s := openSource address results s
  if s.regs .r0 ≠ 0#32 then scfmDoMigrationFailRet address results (s.set .r1 4#32)
  else
    let s := openDestination address results s
    if s.regs .r0 ≠ 0#32 then scfmDoMigrationFailRet address results (s.set .r1 5#32)
    else
      let s := s.set .r5 (s.stack 0)
      let s := s.set .r6 (s.stack 1)
      let s := acquireBuffer results s
      if s.regs .r0 = 0#32 then scfmDoMigrationFailRet address results (s.set .r1 6#32)
      else
        let s := s.set .r7 (s.regs .r0)
        let s := s.set .r8 0x8004000#32
        let s := s.set .r10 0#32
        copyLoop address results 0 s

end Functions

/-- The handles of the files that were opened -/
def opened (log : List Call) : List Word := log.filterMap fun
  | .fsaOpenFile _ _ _ result handle => if result = 0#32 then some handle else none
  | _ => none

def closed (log : List Call) : List Word := log.filterMap fun
  | .fsaCloseFile _ file => some file
  | _ => none

def allocated (log : List Call) : List Word := log.filterMap fun
  | .iosMemalign _ _ _ result => if result = 0#32 then none else some result
  | _ => none

def freed (log : List Call) : List Word := log.filterMap fun
  | .iosFree _ ptr => some ptr
  | _ => none

/-- The size and the offset of the `k`-th of the blocks that make up 0x8004000 bytes. -/
def sizeAt (k : Nat) : Word := BitVec.ofNat 32 (min 0x100000 (0x8004000 - 0x100000 * k))

def offsetAt (k : Nat) : Word := BitVec.ofNat 32 (min (0x100000 * k) 0x8004000)

/-- Both files were opened, the buffer was obtained, and the blocks were read and written one after
the other. -/
def Complete (log : List Call) : Prop :=
  ∃ fsa src dst buf, opened log = [src, dst] ∧ allocated log = [buf] ∧
    transfers log = (List.range 129).flatMap fun k =>
      [(false, ⟨fsa, buf, 1#32, sizeAt k, offsetAt k, src, 0x20#32, sizeAt k⟩),
        (true, ⟨fsa, buf, 1#32, sizeAt k, offsetAt k, dst, 0x20#32, sizeAt k⟩)]

/-- The function returns to its caller as the calling convention asks for, tells whether the copy is
complete, closes each file that it opened once, and frees what it allocated. -/
structure Unwinds (entry : Reg → Word) (final : State) : Prop where
  returns : final.regs .pc = entry .lr
  stack : final.regs .sp = entry .sp
  saved : ∀ r ∈ [.r4, .r5, .r6, .r7, .r8, .r9, .r10, .r11], final.regs r = entry r
  result : final.regs .r0 = 0#32 ↔ Complete final.log
  closes : ∀ h ∈ opened final.log, (closed final.log).count h = (opened final.log).count h
  frees : freed final.log = allocated final.log

/-- The read and the write of the `k`-th block move all of it. -/
def Good (results : Results) (k : Nat) : Prop :=
  results.read k = sizeAt k ∧ results.write k = sizeAt k

/-- The copy ends in front of the `j`-th block. -/
def CopyEnds (results : Results) (j : Nat) : Prop :=
  j ≤ 129 ∧ (∀ k < j, Good results k) ∧ (j < 129 → ¬ Good results j)

end Stroopwafel.Scfm
