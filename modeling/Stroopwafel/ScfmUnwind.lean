import Stroopwafel.Scfm

set_option autoImplicit false

namespace Stroopwafel.Scfm

open Memory

section Frame

variable (entry : Reg → Word) (stack : Nat → Word) (address : Label → Word) (results : Results)

def pushSaved : State :=
  [.lr, .r9, .r8, .r7, .r6, .r5, .r4].foldl State.push ⟨entry, stack, [], []⟩

/-- The frame of the function is in place. -/
structure Framed (s : State) : Prop where
  sp : s.regs .sp = entry .sp - 44#32
  r11 : s.regs .r11 = entry .r11
  saved : ∀ i, s.stack (i + 4) = (pushSaved entry stack).stack i

theorem popSaved_regs (s : State) (r : Reg) : (popSaved s).regs r =
    match r with
    | .r4 => s.stack 0
    | .r5 => s.stack 1
    | .r6 => s.stack 2
    | .r7 => s.stack 3
    | .r8 => s.stack 4
    | .r9 => s.stack 5
    | .pc => s.stack 6
    | .sp => s.regs .sp + 28#32
    | r => s.regs r := by
  cases r with
  | sp =>
      simp only [popSaved, List.foldl, State.pop, if_true]
      bv_omega
  | _ => rfl

variable {entry stack} {s : State}

theorem Framed.keeps {s' : State} (framed : Framed entry stack s) (keeps : Keeps s s') :
    Framed entry stack s' := by
  refine ⟨?_, ?_, ?_⟩
  · rw [keeps.regs .sp (by decide), framed.sp]
  · rw [keeps.regs .r11 (by decide), framed.r11]
  · intro i
    rw [keeps.stack, framed.saved]

/-- The state in which the buffer is looked at, with the result pushed and both files closed -/
def filesClosed (s : State) : State :=
  let s := s.push .r0
  let s := s.set .r1 (s.regs .r5)
  let s := s.set .r0 (s.regs .r4)
  let s := fsaCloseFile results s (results.close 0)
  let s := s.set .r1 (s.regs .r6)
  let s := s.set .r0 (s.regs .r4)
  fsaCloseFile results s (results.close 1)

theorem filesClosed_regs (r : Reg) (kept : r ∉ Reg.r0 :: scratchRegs) :
    (filesClosed results s).regs r = (s.push .r0).regs r := by
  unfold filesClosed fsaCloseFile
  dsimp only
  rw [call_regs _ _ _ _ _ kept]
  simp only [scratchRegs, List.mem_cons, not_or] at kept
  rw [set_regs, if_neg kept.1, set_regs, if_neg kept.2.1, call_regs _ _ _ _ _ (by
    simp [scratchRegs, kept]), set_regs, if_neg kept.1, set_regs, if_neg kept.2.1]

theorem filesClosed_log : (filesClosed results s).log =
    s.log ++
      [.fsaCloseFile (s.regs .r4) (s.regs .r5), .fsaCloseFile (s.regs .r4) (s.regs .r6)] := by
  unfold filesClosed fsaCloseFile
  simp only [call_log, set_log, set_regs, List.append_assoc]
  simp only [call_regs _ _ _ _ _ (show Reg.r4 ∉ Reg.r0 :: scratchRegs by decide),
    call_regs _ _ _ _ _ (show Reg.r6 ∉ Reg.r0 :: scratchRegs by decide)]
  rfl

theorem filesClosed_sp (framed : Framed entry stack s) :
    (filesClosed results s).regs .sp = entry .sp - 48#32 := by
  rw [filesClosed_regs _ _ (by decide)]
  change s.regs .sp - 4#32 = _
  rw [framed.sp]
  bv_omega

/-- The branch with a buffer, up to the pop of the result -/
def bufferFreed (s : State) : State :=
  let s := s.set .r1 (s.regs .r7)
  let s := s.set .r0 1#32
  let s := s.call results (.iosFree (s.regs .r0) (s.regs .r1)) results.free
  s.pop .r0

theorem bufferFreed_regs (s : State) (r : Reg) (kept : r ∉ Reg.r0 :: scratchRegs)
    (notSp : r ≠ .sp) :
    (bufferFreed results s).regs r = s.regs r := by
  have apart := kept
  simp only [scratchRegs, List.mem_cons, not_or] at apart
  unfold bufferFreed
  simp only [State.pop, notSp, apart.1, if_false]
  rw [call_regs _ _ _ _ _ kept, set_regs, if_neg apart.1, set_regs, if_neg apart.2.1]

/-- With a buffer the frame is left as it was entered, except for `r10`. -/
theorem ret_buffer (framed : Framed entry stack s) (buffer : s.regs .r7 ≠ 0#32) :
    (scfmDoMigrationRet results s).regs .pc = entry .lr ∧
      (scfmDoMigrationRet results s).regs .sp = entry .sp ∧
      (∀ r ∈ [Reg.r4, .r5, .r6, .r7, .r8, .r9, .r11],
        (scfmDoMigrationRet results s).regs r = entry r) ∧
      (scfmDoMigrationRet results s).regs .r10 = s.regs .r10 ∧
      (scfmDoMigrationRet results s).regs .r0 = s.regs .r0 ∧
      (scfmDoMigrationRet results s).log = s.log ++ [.fsaCloseFile (s.regs .r4) (s.regs .r5),
        .fsaCloseFile (s.regs .r4) (s.regs .r6), .iosFree 1#32 (s.regs .r7)] := by
  have r7 : (filesClosed results s).regs .r7 = s.regs .r7 :=
    filesClosed_regs results .r7 (by decide)
  have some_ : (filesClosed results s).regs .r7 ≠ 0#32 := r7 ▸ buffer
  have eq : scfmDoMigrationRet results s =
      popSaved ((bufferFreed results (filesClosed results s)).release 4) := if_neg some_
  have saved : ∀ i, ((bufferFreed results (filesClosed results s)).release 4).stack i =
      (pushSaved entry stack).stack i := fun i => framed.saved i
  have kept : ∀ r, r ∉ Reg.r0 :: scratchRegs → r ≠ .sp →
      ((bufferFreed results (filesClosed results s)).release 4).regs r = s.regs r := by
    intro r kept notSp
    simp only [State.release, notSp, if_false]
    rw [bufferFreed_regs _ _ r kept notSp, filesClosed_regs _ r kept]
    simp only [State.push, notSp, if_false]
  simp only [eq, popSaved_regs, saved]
  refine ⟨rfl, ?_, ?_, kept .r10 (by decide) (by decide), rfl, ?_⟩
  · change (filesClosed results s).regs .sp + 4#32 + 16#32 + 28#32 = _
    rw [filesClosed_sp results framed]
    bv_omega
  · intro r member
    cases r with
    | r11 => exact (kept .r11 (by decide) (by decide)).trans framed.r11
    | r4 => rfl
    | r5 => rfl
    | r6 => rfl
    | r7 => rfl
    | r8 => rfl
    | r9 => rfl
    | _ => exact absurd member (by decide)
  · change (filesClosed results s).log ++ [.iosFree 1#32 ((filesClosed results s).regs .r7)] = _
    rw [filesClosed_log, r7, List.append_assoc]
    rfl

/-- Without one the result is not popped, so the stack pointer is a word too low. -/
theorem ret_no_buffer (framed : Framed entry stack s) (none : s.regs .r7 = 0#32) :
    (scfmDoMigrationRet results s).regs .sp ≠ entry .sp := by
  have r7 : (filesClosed results s).regs .r7 = 0#32 := by
    rw [filesClosed_regs _ _ (by decide)]
    exact none
  have eq : scfmDoMigrationRet results s = popSaved ((filesClosed results s).release 4) :=
    if_pos r7
  rw [eq, popSaved_regs]
  change (filesClosed results s).regs .sp + 16#32 + 28#32 ≠ _
  rw [filesClosed_sp results framed]
  bv_omega

end Frame

theorem Keeps.refl (s : State) : Keeps s s := ⟨fun _ _ => rfl, fun _ => rfl⟩

theorem Keeps.trans {s t u : State} (first : Keeps s t) (second : Keeps t u) : Keeps s u :=
  ⟨fun r kept => (second.regs r kept).trans (first.regs r kept),
    fun i => (second.stack i).trans (first.stack i)⟩

theorem Keeps.set {s t : State} (keeps : Keeps s t) (r : Reg) (value : Word)
    (other : r ∉ keptRegs) : Keeps s (t.set r value) := by
  refine ⟨?_, keeps.stack⟩
  intro i kept
  rw [set_regs, if_neg (by rintro rfl; exact other kept), keeps.regs i kept]

theorem Framed.set {entry : Reg → Word} {stack : Nat → Word} {s : State}
    (framed : Framed entry stack s) (r : Reg) (value : Word) (other : r ∉ keptRegs) :
    Framed entry stack (s.set r value) :=
  framed.keeps ((Keeps.refl s).set r value other)

section Loop

variable (address : Label → Word) (results : Results)

/-- The state before the `k`-th block -/
structure Copying (k : Nat) (s : State) : Prop where
  bound : k ≤ 128
  left : s.regs .r8 = BitVec.ofNat 32 (0x8004000 - 0x100000 * k)
  offset : s.regs .r10 = offsetAt k

variable {k : Nat} {s : State}

theorem Copying.size (copying : Copying k s) : blockSize (s.regs .r8) = sizeAt k := by
  have bound := copying.bound
  have larger : 0x100000#32 < BitVec.ofNat 32 (0x8004000 - 0x100000 * k) ↔
      0x100000 < 0x8004000 - 0x100000 * k := by
    rw [BitVec.lt_def, BitVec.toNat_ofNat, BitVec.toNat_ofNat]
    omega
  rw [copying.left]
  unfold blockSize sizeAt
  by_cases whole : 0x100000 < 0x8004000 - 0x100000 * k
  · rw [if_pos (larger.mpr whole), Nat.min_eq_left (by omega)]
  · rw [if_neg (fun above => whole (larger.mp above)), Nat.min_eq_right (by omega)]

theorem left_succ (bound : k ≤ 128) :
    BitVec.ofNat 32 (0x8004000 - 0x100000 * k) - sizeAt k =
      BitVec.ofNat 32 (0x8004000 - 0x100000 * (k + 1)) := by
  apply BitVec.eq_of_toNat_eq
  unfold sizeAt
  simp only [BitVec.toNat_sub, BitVec.toNat_ofNat]
  omega

theorem offset_succ (bound : k ≤ 128) : offsetAt k + sizeAt k = offsetAt (k + 1) := by
  apply BitVec.eq_of_toNat_eq
  unfold offsetAt sizeAt
  simp only [BitVec.toNat_add, BitVec.toNat_ofNat]
  omega

/-- The read and the write of the `k`-th block when both move all of it -/
def blockCalls (s : State) (k : Nat) : List Call :=
  [.fsaReadFileOffset
      ⟨s.regs .r4, s.regs .r7, 1#32, sizeAt k, offsetAt k, s.regs .r5, 0x20#32, sizeAt k⟩,
    .fsaWriteFileOffset
      ⟨s.regs .r4, s.regs .r7, 1#32, sizeAt k, offsetAt k, s.regs .r6, 0x20#32, sizeAt k⟩]

theorem blockCalls_keeps {t : State} (keeps : Keeps s t) : blockCalls t = blockCalls s := by
  funext k
  unfold blockCalls
  rw [keeps.regs .r4 (by decide), keeps.regs .r5 (by decide), keeps.regs .r6 (by decide),
    keeps.regs .r7 (by decide)]

/-- A good block is followed by the next one, or by the end of the copy. -/
theorem copyLoop_good (copying : Copying k s) (good : Good results k) :
    ∃ s', Keeps s s' ∧ s'.regs .r10 = offsetAt (k + 1) ∧ s'.log = s.log ++ blockCalls s k ∧
      (k < 128 ∧ Copying (k + 1) s' ∧
          copyLoop address results k s = copyLoop address results (k + 1) s' ∨
        k = 128 ∧ copyLoop address results k s =
          scfmDoMigrationRet results (s'.set .r0 0#32)) := by
  have bound := copying.bound
  obtain ⟨s', round, keeps, left, offset, log⟩ := copyBlock_ok address results k s
    (good.1.trans copying.size.symm) (good.2.trans copying.size.symm)
  rw [copying.size, copying.left, left_succ bound] at left
  rw [copying.size, copying.offset, offset_succ bound] at offset
  refine ⟨s', keeps, offset, ?_, ?_⟩
  · rw [log]
    unfold blockTransfer blockCalls
    rw [copying.size, copying.offset, good.1, good.2]
  · have more : 0#32 < s'.regs .r8 ↔ k < 128 := by
      rw [left, BitVec.lt_def, BitVec.toNat_ofNat, BitVec.toNat_ofNat]
      omega
    rw [copyLoop]
    split
    · rename_i failed
      rw [round] at failed
      cases failed
    · rename_i s'' again
      rw [round] at again
      cases again
      by_cases inner : k < 128
      · rw [dif_pos (more.mpr inner)]
        exact .inl ⟨inner, ⟨inner, left, offset⟩, rfl⟩
      · rw [dif_neg (fun positive => inner (more.mp positive))]
        exact .inr ⟨by omega, rfl⟩

/-- When all blocks from the `k`-th one on are good they are copied. -/
theorem copyLoop_copies {k : Nat} {s : State} (copying : Copying k s)
    (good : ∀ i, k ≤ i → i < 129 → Good results i) :
    ∃ s', copyLoop address results k s = scfmDoMigrationRet results s' ∧ Keeps s s' ∧
      s'.regs .r10 = offsetAt 129 ∧ s'.regs .r0 = 0#32 ∧
      s'.log = s.log ++ (List.range' k (129 - k)).flatMap (blockCalls s) := by
  have bound := copying.bound
  obtain ⟨s', keeps, offset, log, inner | last⟩ :=
    copyLoop_good address results copying (good k (Nat.le_refl k) (by omega))
  · obtain ⟨inner, copying', next⟩ := inner
    obtain ⟨t, ends, keeps', offset', result, log'⟩ :=
      copyLoop_copies copying' fun i lower upper => good i (by omega) upper
    refine ⟨t, next.trans ends, keeps.trans keeps', offset', result, ?_⟩
    rw [log', log, blockCalls_keeps keeps, show 129 - k = 129 - (k + 1) + 1 by omega,
      List.range'_succ, List.flatMap_cons, List.append_assoc]
  · obtain ⟨rfl, ends⟩ := last
    refine ⟨_, ends, keeps.set .r0 _ (by decide), offset, rfl, ?_⟩
    rw [set_log, log]
    exact congrArg (s.log ++ ·) (List.append_nil _).symm
termination_by 129 - k

theorem throwError_keeps (s : State) :
    Keeps s (scfmMigrationThrowError address results s) ∧
      (scfmMigrationThrowError address results s).regs .r10 = s.regs .r10 ∧
      (scfmMigrationThrowError address results s).log = s.log := by
  refine ⟨⟨?_, fun i => rfl⟩, ?_, rfl⟩
  · intro r kept
    obtain ⟨apart, _⟩ := keptRegs_apart r kept
    simp only [blockRegs, List.mem_cons, List.not_mem_nil, or_false, not_or] at apart
    unfold scfmMigrationThrowError
    rw [syslogOutput_regs _ _ _ (by simp [scratchRegs, apart])]
    simp [apart]
  · unfold scfmMigrationThrowError
    rw [syslogOutput_regs _ _ _ (by decide)]
    rfl

/-- When a block is not good the copy fails there. -/
theorem copyLoop_stops {k : Nat} {s : State} (copying : Copying k s) (j : Nat) (behind : k ≤ j)
    (inside : j < 129) (good : ∀ i, k ≤ i → i < j → Good results i) (bad : ¬ Good results j) :
    ∃ s' calls, copyLoop address results k s = scfmDoMigrationRet results s' ∧ Keeps s s' ∧
      s'.regs .r10 = offsetAt j ∧ s'.regs .r0 = -1#32 ∧ s'.log = s.log ++ calls ∧
      FallsShort calls := by
  have bound := copying.bound
  rcases Nat.lt_or_eq_of_le behind with later | rfl
  · obtain ⟨s', keeps, _, log, inner | last⟩ :=
      copyLoop_good address results copying (good k (Nat.le_refl k) later)
    · obtain ⟨inner, copying', next⟩ := inner
      obtain ⟨t, calls, ends, keeps', offset, result, log', only, short⟩ :=
        copyLoop_stops copying' j later inside (fun i lower upper => good i (by omega) upper) bad
      refine ⟨t, blockCalls s k ++ calls, next.trans ends, keeps.trans keeps', offset, result, ?_,
        ?_, ?_⟩
      · rw [log', log, List.append_assoc]
      · refine List.forall_mem_append.mpr ⟨?_, only⟩
        unfold blockCalls
        rw [List.forall_mem_cons, List.forall_mem_singleton]
        exact ⟨⟨_, .inl rfl⟩, ⟨_, .inr rfl⟩⟩
      · obtain ⟨w, b, member, less⟩ := short
        unfold transfers
        rw [List.filterMap_append]
        exact ⟨w, b, List.mem_append_right _ member, less⟩
    · omega
  · obtain ⟨s', calls, round, keeps, offset, log, short⟩ := copyBlock_error address results k s (by
      rw [copying.size]
      exact bad)
    obtain ⟨reported, r10, same⟩ := throwError_keeps address results s'
    have ends : copyLoop address results k s = scfmDoMigrationFailRet address results s' := by
      rw [copyLoop]
      split
      · rename_i again
        rw [round] at again
        cases again
        rfl
      · rename_i again
        rw [round] at again
        cases again
    refine ⟨(scfmMigrationThrowError address results s').set .r0 (-1#32),
      calls, ends, (keeps.trans reported).set .r0 _ (by decide), ?_, rfl, same.trans log, short⟩
    rw [set_regs, if_neg (by decide), r10, offset, copying.offset]
termination_by 129 - k

end Loop

section Open

variable (address : Label → Word) (results : Results) (s : State)

theorem openSource_regs (r : Reg) (kept : r ∉ Reg.r0 :: scratchRegs) :
    (openSource address results s).regs r = s.regs r := by
  unfold openSource fsaOpenFile
  rw [call_regs _ _ _ _ _ kept]
  simp only [scratchRegs, List.mem_cons, not_or] at kept
  simp [kept]

theorem openSource_stack (i : Nat) : (openSource address results s).stack i =
    if i = 0 then results.srcHandle else s.stack i := by
  unfold openSource fsaOpenFile
  simp

theorem openDestination_regs (r : Reg) (kept : r ∉ Reg.r0 :: scratchRegs) :
    (openDestination address results s).regs r = s.regs r := by
  unfold openDestination fsaOpenFile
  rw [call_regs _ _ _ _ _ kept]
  simp only [scratchRegs, List.mem_cons, not_or] at kept
  simp [kept]

theorem openDestination_stack (i : Nat) : (openDestination address results s).stack i =
    if i = 1 then results.dstHandle else s.stack i := by
  have slot : ((s.regs .sp + 4#32 - s.regs .sp).toNat / 4) = 1 := by
    rw [BitVec.add_comm, BitVec.add_sub_cancel]
    rfl
  unfold openDestination fsaOpenFile
  simp only [call_stack, store_stack, set_stack, set_regs, reduceCtorEq, if_false, if_true, slot]

theorem acquireBuffer_regs (r : Reg) (kept : r ∉ Reg.r0 :: scratchRegs) :
    (acquireBuffer results s).regs r = s.regs r := by
  unfold acquireBuffer
  dsimp only
  rw [call_regs _ _ _ _ _ kept]
  simp only [scratchRegs, List.mem_cons, not_or] at kept
  simp [kept]

end Open

section Run

variable (entry : Reg → Word) (stack : Nat → Word) (address : Label → Word) (results : Results)

/-- The states behind the opening of the files and the allocation -/
def first : State := openSource address results (migrationStart results ⟨entry, stack, [], []⟩)

def second : State := openDestination address results (first entry stack address results)

def third : State :=
  let s := second entry stack address results
  let s := s.set .r5 (s.stack 0)
  let s := s.set .r6 (s.stack 1)
  acquireBuffer results s

/-- The state in front of the copy -/
def fourth : State :=
  let s := third entry stack address results
  let s := s.set .r7 (s.regs .r0)
  let s := s.set .r8 0x8004000#32
  s.set .r10 0#32

theorem scfmDoMigration_eq : scfmDoMigration address results ⟨entry, stack, [], []⟩ =
    if results.openSrc ≠ 0#32 then
      scfmDoMigrationFailRet address results ((first entry stack address results).set .r1 4#32)
    else if results.openDst ≠ 0#32 then
      scfmDoMigrationFailRet address results ((second entry stack address results).set .r1 5#32)
    else if results.buffer = 0#32 then
      scfmDoMigrationFailRet address results ((third entry stack address results).set .r1 6#32)
    else copyLoop address results 0 (fourth entry stack address results) := rfl

theorem start_framed : Framed entry stack (migrationStart results ⟨entry, stack, [], []⟩) := by
  refine ⟨?_, rfl, fun i => rfl⟩
  change entry .sp - 4#32 - 4#32 - 4#32 - 4#32 - 4#32 - 4#32 - 4#32 - 16#32 = _
  bv_omega

theorem first_framed : Framed entry stack (first entry stack address results) := by
  have framed := start_framed entry stack results
  unfold first
  refine ⟨?_, ?_, ?_⟩
  · rw [openSource_regs _ _ _ _ (by decide), framed.sp]
  · rw [openSource_regs _ _ _ _ (by decide), framed.r11]
  · intro i
    rw [openSource_stack, if_neg (by omega), framed.saved]

theorem second_framed : Framed entry stack (second entry stack address results) := by
  have framed := first_framed entry stack address results
  unfold second
  refine ⟨?_, ?_, ?_⟩
  · rw [openDestination_regs _ _ _ _ (by decide), framed.sp]
  · rw [openDestination_regs _ _ _ _ (by decide), framed.r11]
  · intro i
    rw [openDestination_stack, if_neg (by omega), framed.saved]

theorem third_framed : Framed entry stack (third entry stack address results) := by
  have framed := second_framed entry stack address results
  unfold third
  refine ⟨?_, ?_, framed.saved⟩
  · dsimp only
    rw [acquireBuffer_regs _ _ _ (by decide)]
    exact framed.sp
  · dsimp only
    rw [acquireBuffer_regs _ _ _ (by decide)]
    exact framed.r11

theorem first_r7 : (first entry stack address results).regs .r7 = 0#32 := by
  unfold first
  rw [openSource_regs _ _ _ _ (by decide)]
  rfl

theorem second_r7 : (second entry stack address results).regs .r7 = 0#32 := by
  unfold second
  rw [openDestination_regs _ _ _ _ (by decide), first_r7]

theorem third_r7 : (third entry stack address results).regs .r7 = 0#32 := by
  unfold third
  dsimp only
  rw [acquireBuffer_regs _ _ _ (by decide)]
  exact second_r7 entry stack address results

theorem fourth_framed : Framed entry stack (fourth entry stack address results) := by
  have framed := third_framed entry stack address results
  exact ⟨framed.sp, framed.r11, framed.saved⟩

/-- What is in the registers in front of the copy -/
theorem fourth_regs :
    (fourth entry stack address results).regs .r5 = results.srcHandle ∧
      (fourth entry stack address results).regs .r6 = results.dstHandle ∧
      (fourth entry stack address results).regs .r7 = results.buffer := by
  have slot0 : (second entry stack address results).stack 0 = results.srcHandle := by
    unfold second first
    rw [openDestination_stack, if_neg (by decide), openSource_stack, if_pos rfl]
  have slot1 : (second entry stack address results).stack 1 = results.dstHandle := by
    unfold second
    rw [openDestination_stack, if_pos rfl]
  refine ⟨?_, ?_, rfl⟩
  · change (third entry stack address results).regs .r5 = _
    unfold third
    dsimp only
    rw [acquireBuffer_regs _ _ _ (by decide)]
    exact slot0
  · change (third entry stack address results).regs .r6 = _
    unfold third
    dsimp only
    rw [acquireBuffer_regs _ _ _ (by decide)]
    exact slot1

theorem fourth_copying : Copying 0 (fourth entry stack address results) :=
  ⟨by decide, rfl, rfl⟩

theorem fourth_log : ∃ fsa src dst mode mode', (fourth entry stack address results).log =
    [.fsaOpenFile fsa src mode results.openSrc results.srcHandle,
      .fsaOpenFile fsa dst mode' results.openDst results.dstHandle,
      .iosMemalign 1#32 0x100000#32 0x40#32 results.buffer] :=
  ⟨_, _, _, _, _, rfl⟩

/-- On a failure before there is a buffer the stack pointer is not restored. -/
theorem failRet_no_buffer {s : State} (framed : Framed entry stack s) (none : s.regs .r7 = 0#32)
    (stage : Word) :
    (scfmDoMigrationFailRet address results (s.set .r1 stage)).regs .sp ≠ entry .sp := by
  obtain ⟨keeps, _, _⟩ := throwError_keeps address results (s.set .r1 stage)
  have framed' := framed.set .r1 stage (by decide)
  have none' : (s.set .r1 stage).regs .r7 = 0#32 := none
  apply ret_no_buffer results (framed'.keeps (keeps.set .r0 (-1#32) (by decide)))
  rw [set_regs, if_neg (by decide), keeps.regs .r7 (by decide), none']

end Run

section Books

variable {calls : List Call} (only : OnlyTransfers calls)
include only

theorem transfers_books :
    opened calls = [] ∧ closed calls = [] ∧ allocated calls = [] ∧ freed calls = [] := by
  unfold opened closed allocated freed
  simp only [List.filterMap_eq_nil_iff]
  refine ⟨?_, ?_, ?_, ?_⟩ <;>
  · intro c member
    obtain ⟨t, rfl | rfl⟩ := only c member <;> rfl

/-- The books behind a run in which both files were opened and the buffer was obtained. -/
theorem run_books {fsa src dst mode mode' h h' buf fsa' : Word} (some_ : buf ≠ 0#32) :
    let log := [.fsaOpenFile fsa src mode 0#32 h, .fsaOpenFile fsa dst mode' 0#32 h',
      .iosMemalign 1#32 0x100000#32 0x40#32 buf] ++ calls ++
        [.fsaCloseFile fsa' h, .fsaCloseFile fsa' h', .iosFree 1#32 buf]
    opened log = [h, h'] ∧ closed log = [h, h'] ∧ allocated log = [buf] ∧ freed log = [buf] ∧
      transfers log = transfers calls := by
  obtain ⟨noneOpened, noneClosed, noneAllocated, noneFreed⟩ := transfers_books only
  unfold opened closed allocated freed at *
  unfold transfers
  simp only [List.filterMap_append, noneOpened, noneClosed, noneAllocated, noneFreed]
  simp [some_]

end Books

theorem copyEnds_exists (results : Results) : ∃ j, CopyEnds results j := by
  have search : ∀ n ≤ 129, (∀ k < n, Good results k) ∨ ∃ j, CopyEnds results j := by
    intro n
    induction n with
    | zero => exact fun _ => .inl fun k less => absurd less (Nat.not_lt_zero k)
    | succ n ih =>
        intro bound
        rcases ih (by omega) with good | found
        · by_cases next : Good results n
          · left
            intro k less
            rcases Nat.lt_succ_iff_lt_or_eq.mp less with before | rfl
            · exact good k before
            · exact next
          · exact .inr ⟨n, by omega, good, fun _ => next⟩
        · exact .inr found
  rcases search 129 (Nat.le_refl _) with good | found
  · exact ⟨129, Nat.le_refl _, good, fun less => absurd less (Nat.lt_irrefl _)⟩
  · exact found

theorem blockCalls_only (s : State) (ks : List Nat) :
    OnlyTransfers (ks.flatMap (blockCalls s)) := by
  intro c member
  obtain ⟨k, _, here⟩ := List.mem_flatMap.mp member
  rcases List.mem_cons.mp here with rfl | there
  · exact ⟨_, .inl rfl⟩
  · exact ⟨_, .inr (List.mem_singleton.mp there)⟩

theorem blockCalls_transfers (s : State) (ks : List Nat) :
    transfers (ks.flatMap (blockCalls s)) = ks.flatMap fun k =>
      [(false, ⟨s.regs .r4, s.regs .r7, 1#32, sizeAt k, offsetAt k, s.regs .r5, 0x20#32, sizeAt k⟩),
        (true, ⟨s.regs .r4, s.regs .r7, 1#32, sizeAt k, offsetAt k, s.regs .r6, 0x20#32,
          sizeAt k⟩)] := by
  induction ks with
  | nil => rfl
  | cons k ks ih =>
      rw [List.flatMap_cons, List.flatMap_cons, ← ih]
      unfold transfers
      rw [List.filterMap_append]
      rfl

/-- Every transfer of a complete log moved its block. -/
theorem Complete.full {log : List Call} (complete : Complete log) {w : Bool} {t : Transfer}
    (member : (w, t) ∈ transfers log) : t.result = t.count := by
  obtain ⟨fsa, src, dst, buf, _, _, all⟩ := complete
  rw [all] at member
  obtain ⟨k, _, here⟩ := List.mem_flatMap.mp member
  rcases List.mem_cons.mp here with same | there
  · cases same
    rfl
  · cases List.mem_singleton.mp there
    rfl

section Unwinding

variable (entry : Reg → Word) (stack : Nat → Word) (address : Label → Word) (results : Results)

/-- A copy that ends at the `j`-th block leaves its offset in `r10`, and is fine otherwise. -/
theorem copy_unwinds (j : Nat) (ends : CopyEnds results j) (src : results.openSrc = 0#32)
    (dst : results.openDst = 0#32) (some_ : results.buffer ≠ 0#32) :
    (copyLoop address results 0 (fourth entry stack address results)).regs .r10 = offsetAt j ∧
      (entry .r10 = offsetAt j →
        Unwinds entry (copyLoop address results 0 (fourth entry stack address results))) := by
  have framed := fourth_framed entry stack address results
  have copying := fourth_copying entry stack address results
  obtain ⟨r5, r6, r7⟩ := fourth_regs entry stack address results
  obtain ⟨fsa, srcName, dstName, mode, mode', log⟩ := fourth_log entry stack address results
  obtain ⟨bound, good, bad⟩ := ends
  have copy : ∃ s' calls, copyLoop address results 0 (fourth entry stack address results) =
        scfmDoMigrationRet results s' ∧
      Keeps (fourth entry stack address results) s' ∧ s'.regs .r10 = offsetAt j ∧
      s'.log = (fourth entry stack address results).log ++ calls ∧ OnlyTransfers calls ∧
      (s'.regs .r0 = 0#32 ∧
          calls = (List.range 129).flatMap (blockCalls (fourth entry stack address results)) ∨
        s'.regs .r0 = -1#32 ∧ FallsShort calls) := by
    rcases Nat.lt_or_eq_of_le bound with inside | rfl
    · obtain ⟨s', calls, same, keeps, offset, result, log', only, short⟩ :=
        copyLoop_stops address results copying j (Nat.zero_le j) inside (fun i _ => good i)
          (bad inside)
      exact ⟨s', calls, same, keeps, offset, log', only, .inr ⟨result, only, short⟩⟩
    · obtain ⟨s', same, keeps, offset, result, log'⟩ :=
        copyLoop_copies address results copying fun i _ => good i
      refine ⟨s', _, same, keeps, offset, log', blockCalls_only _ _, .inl ⟨result, ?_⟩⟩
      rw [List.range_eq_range']
  obtain ⟨s', calls, same, keeps, offset, log', only, outcome⟩ := copy
  have buffer : s'.regs .r7 = results.buffer := (keeps.regs .r7 (by decide)).trans r7
  obtain ⟨returns, sp, saved, r10, r0, final⟩ :=
    ret_buffer results (framed.keeps keeps) (by rw [buffer]; exact some_)
  rw [log', log, buffer, keeps.regs .r5 (by decide), keeps.regs .r6 (by decide), r5, r6, src, dst]
    at final
  obtain ⟨opens, closes, allocs, frees, moves⟩ := run_books only some_
  rw [← final] at opens closes allocs frees moves
  rw [same]
  refine ⟨r10.trans offset, fun entry10 => ⟨returns, sp, ?_, ?_, ?_, ?_⟩⟩
  · intro r member
    by_cases ten : r = .r10
    · rw [ten, r10, offset, entry10]
    · apply saved
      revert member ten
      cases r <;> decide
  · rw [r0]
    rcases outcome with ⟨result, all⟩ | ⟨result, _, w, t, member, less⟩
    · refine ⟨fun _ => ⟨(fourth entry stack address results).regs .r4, _, _, _, opens, allocs, ?_⟩,
        fun _ => result⟩
      rw [moves, all, blockCalls_transfers, r5, r6, r7]
    · constructor
      · intro zero
        rw [result] at zero
        exact absurd zero (by decide)
      · intro complete
        rw [← moves] at member
        exact absurd (complete.full member) less
  · intro h _
    rw [opens, closes]
  · rw [frees, allocs]

/-- The function unwinds if and only if both files are opened, the buffer is obtained, and `r10` is
on entry what the copy leaves in it: the offset of the first block that is not moved, or the size of
the file. -/
theorem scfmDoMigration_unwinds_iff :
    Unwinds entry (scfmDoMigration address results ⟨entry, stack, [], []⟩) ↔
      results.openSrc = 0#32 ∧ results.openDst = 0#32 ∧ results.buffer ≠ 0#32 ∧
        ∃ j, CopyEnds results j ∧ entry .r10 = offsetAt j := by
  rw [scfmDoMigration_eq]
  by_cases src : results.openSrc = 0#32
  · by_cases dst : results.openDst = 0#32
    · by_cases none : results.buffer = 0#32
      · rw [if_neg (fun differs => differs src), if_neg (fun differs => differs dst), if_pos none]
        have fails := failRet_no_buffer entry stack address results
          (third_framed entry stack address results) (third_r7 entry stack address results) 6#32
        exact ⟨fun unwinds => absurd unwinds.stack fails, fun holds => absurd none holds.2.2.1⟩
      · rw [if_neg (fun differs => differs src), if_neg (fun differs => differs dst), if_neg none]
        constructor
        · intro unwinds
          obtain ⟨j, ends⟩ := copyEnds_exists results
          obtain ⟨r10, _⟩ := copy_unwinds entry stack address results j ends src dst none
          exact ⟨src, dst, none, j, ends, (unwinds.saved .r10 (by decide)).symm.trans r10⟩
        · rintro ⟨_, _, _, j, ends, r10⟩
          exact (copy_unwinds entry stack address results j ends src dst none).2 r10
    · rw [if_neg (fun differs => differs src), if_pos dst]
      have fails := failRet_no_buffer entry stack address results
          (second_framed entry stack address results) (second_r7 entry stack address results) 5#32
      exact ⟨fun unwinds => absurd unwinds.stack fails, fun holds => absurd holds.2.1 dst⟩
  · rw [if_pos src]
    have fails := failRet_no_buffer entry stack address results
          (first_framed entry stack address results) (first_r7 entry stack address results) 4#32
    exact ⟨fun unwinds => absurd unwinds.stack fails, fun holds => absurd holds.1 src⟩

end Unwinding

/-- The file is not found on slc. -/
def missingSource : Results where
  openSrc := 0xFFFCFFE9#32
  srcHandle := 0#32
  openDst := 0#32
  dstHandle := 0#32
  buffer := 0#32
  read _ := 0#32
  write _ := 0#32
  close _ := 0#32
  free := 0#32
  syslog := 0#32
  scratch _ _ := 0#32
  frame _ := 0#32

/-- Without a file to migrate the stack pointer is a word too low. -/
theorem stack_pointer_low :
    ¬ Unwinds (fun _ => 0#32)
      (scfmDoMigration (fun _ => 0#32) missingSource ⟨fun _ => 0#32, fun _ => 0#32, [], []⟩) := by
  rw [scfmDoMigration_unwinds_iff]
  rintro ⟨src, _⟩
  exact absurd src (by decide)

end Stroopwafel.Scfm
