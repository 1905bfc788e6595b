import Stroopwafel.IpcIoctl

set_option autoImplicit false

namespace Memory

/-- The writes, one after the other. -/
def storeAll (m : Mem) (writes : List (Word × List Byte)) : Mem :=
  writes.foldl (fun m w => store m w.1 w.2) m

theorem storeAll_append (m : Mem) (front back : List (Word × List Byte)) :
    storeAll m (front ++ back) = storeAll (storeAll m front) back :=
  List.foldl_append

/-- What lies apart from every write is kept. -/
theorem storeAll_apart (m : Mem) (a : Word) (n : Nat) (writes : List (Word × List Byte))
    (apart : ∀ w ∈ writes, Apart a n w.1 w.2.length) : Same m (storeAll m writes) a n := by
  induction writes generalizing m with
  | nil => exact Same.refl m a n
  | cons w rest ih =>
      have first := store_apart m a w.1 n w.2 (apart w (by simp))
      exact first.trans (ih _ (fun w' member => apart w' (by simp [member])))

end Memory

namespace Stroopwafel.Ipc

open Memory

abbrev iosErrorInvalidSize : Word := 0xFFFFFFE9#32

/-- `sizeof(ipcmessage)` and `sizeof(IOSVec)` -/
abbrev messageBytes : Nat := 72
abbrev vecBytes : Nat := 12

section Message

variable (m : Mem) (message : Word)

def numIn : Word := read32 m (message + 40#32)

def numIo : Word := read32 m (message + 44#32)

def vector : Word := read32 m (message + 48#32)

/-- `message->ioctlv.vector[i]` -/
def vecAddress (i : Nat) : Word := vector m message + BitVec.ofNat 32 (vecBytes * i)

def vecPtr (i : Nat) : Word := read32 m (vecAddress m message i)

def vecLen (i : Nat) : Word := read32 m (vecAddress m message i + 4#32)

end Message

/-- The result, what was flushed from the data cache, and which vectors were looked at. -/
structure Handled where
  ret : Word
  mem : Mem
  flushed : List (Word × Word)
  vectors : List Nat
  invalidated : Bool

/-- What one pass of the loop leaves: the memory, the flushed ranges, the vectors. -/
structure Progress where
  mem : Mem
  flushed : List (Word × Word)
  vectors : List Nat

def writeOne (message destAddrs : Word) (i : Nat) (p : Progress) : Progress :=
  let dest := read32 p.mem (destAddrs + BitVec.ofNat 32 (4 * i))
  let src := vecPtr p.mem message (i + 1)
  let size := vecLen p.mem message (i + 1)
  if src ≠ 0#32 ∧ size.toNat > 0 then
    ⟨move p.mem dest src size.toNat, p.flushed ++ [(dest, size)], p.vectors ++ [i + 1]⟩
  else { p with vectors := p.vectors ++ [i + 1] }

/-- The loop over the `remaining` writes from the `i`-th on. -/
def writeFrom (message destAddrs : Word) : Nat → Nat → Progress → Progress
  | 0, _, p => p
  | remaining + 1, i, p => writeFrom message destAddrs remaining (i + 1)
      (writeOne message destAddrs i p)

/-- `IOCTLV_WRITE_MEMORY` -/
def ioctlvWriteMemory (m : Mem) (message : Word) : Handled :=
  if (numIn m message).toNat < 1 ∨ numIo m message ≠ 0#32 then
    ⟨iosErrorInvalidArg, m, [], [], false⟩
  else if (vecLen m message 0).toNat % 4 ≠ 0 then ⟨iosErrorInvalidSize, m, [], [0], false⟩
  else
    let destAddrs := vecPtr m message 0
    let numWrites := (vecLen m message 0).toNat / 4
    if numIn m message ≠ 1#32 + BitVec.ofNat 32 numWrites then
      ⟨iosErrorInvalidSize, m, [], [0], false⟩
    else
      let p := writeFrom message destAddrs numWrites 0 ⟨m, [], [0]⟩
      ⟨0#32, p.mem, p.flushed, p.vectors, true⟩

section WriteMemory

variable (m : Mem) (message : Word)

def destAddr (i : Nat) : Word := read32 m (vecPtr m message 0 + BitVec.ofNat 32 (4 * i))

/-- The `i`-th write has a source that is neither null nor empty. -/
def Filled (i : Nat) : Prop :=
  vecPtr m message (i + 1) ≠ 0#32 ∧ (vecLen m message (i + 1)).toNat > 0

instance (i : Nat) : Decidable (Filled m message i) :=
  inferInstanceAs (Decidable (_ ∧ _))

/-- The writes that the message asks for: where, how much, and the bytes of the source. -/
def requested (n : Nat) : List (Word × Word × List Byte) :=
  ((List.range n).filter fun i => Filled m message i).map fun i =>
    (destAddr m message i, vecLen m message (i + 1),
      load m (vecPtr m message (i + 1)) (vecLen m message (i + 1)).toNat)

/-- No destination overlaps the message and its vectors, the list of the destinations, or a
source. -/
structure Disjoint : Prop where
  header : ∀ i, i + 1 < (numIn m message).toNat → Filled m message i →
    Apart message messageBytes (destAddr m message i) (vecLen m message (i + 1)).toNat
  table : ∀ i, i + 1 < (numIn m message).toNat → Filled m message i →
    Apart (vector m message) (vecBytes * (numIn m message).toNat) (destAddr m message i)
      (vecLen m message (i + 1)).toNat
  destinations : ∀ i, i + 1 < (numIn m message).toNat → Filled m message i →
    Apart (vecPtr m message 0) (vecLen m message 0).toNat (destAddr m message i)
      (vecLen m message (i + 1)).toNat
  sources : ∀ i j, i + 1 < (numIn m message).toNat → j + 1 < (numIn m message).toNat →
    Filled m message i → Filled m message j →
    Apart (vecPtr m message (j + 1)) (vecLen m message (j + 1)).toNat (destAddr m message i)
      (vecLen m message (i + 1)).toNat

/-- The message is rejected and nothing is written, or it is sound and all its writes are
carried out in order; its vectors alone are looked at. -/
structure Validated (out : Handled) : Prop where
  outcome : (out.ret ≠ 0#32 ∧ out.mem = m) ∨
    (out.ret = 0#32 ∧ numIo m message = 0#32 ∧ 4 ∣ (vecLen m message 0).toNat ∧
      (numIn m message).toNat = 1 + (vecLen m message 0).toNat / 4 ∧
      let writes := requested m message ((vecLen m message 0).toNat / 4)
      out.mem = storeAll m (writes.map fun w => (w.1, w.2.2)) ∧
        out.flushed = writes.map fun w => (w.1, w.2.1))
  vectors : ∀ i ∈ out.vectors, i < (numIn m message).toNat

variable {m message}

theorem requested_succ (n : Nat) :
    requested m message (n + 1) = requested m message n ++
      if Filled m message n then
        [(destAddr m message n, vecLen m message (n + 1),
          load m (vecPtr m message (n + 1)) (vecLen m message (n + 1)).toNat)]
      else [] := by
  rw [requested, List.range_succ, List.filter_append, List.map_append]
  congr 1
  by_cases filled : Filled m message n
  · simp [filled]
  · simp [filled]

theorem requested_mem {n : Nat} {w : Word × Word × List Byte} (member : w ∈ requested m message n) :
    ∃ i < n, Filled m message i ∧ w.1 = destAddr m message i ∧
      w.2.2.length = (vecLen m message (i + 1)).toNat := by
  obtain ⟨i, inside, rfl⟩ := List.mem_map.mp member
  rw [List.mem_filter, List.mem_range, decide_eq_true_eq] at inside
  exact ⟨i, inside.1, inside.2, rfl, load_length _ _ _⟩

/-- The memory after the first `n` writes. -/
def written (m : Mem) (message : Word) (n : Nat) : Mem :=
  storeAll m ((requested m message n).map fun w => (w.1, w.2.2))

theorem written_same {n k : Nat} {a : Word}
    (apart : ∀ i < n, Filled m message i →
      Apart a k (destAddr m message i) (vecLen m message (i + 1)).toNat) :
    Same m (written m message n) a k := by
  apply storeAll_apart
  intro w member
  obtain ⟨v, asked, rfl⟩ := List.mem_map.mp member
  obtain ⟨i, inside, filled, place, length⟩ := requested_mem asked
  rw [place, length]
  exact apart i inside filled

/-- The message reads the same while its writes are carried out. -/
structure Intact (m m' : Mem) (message : Word) : Prop where
  ptr : ∀ i < (numIn m message).toNat, vecPtr m' message i = vecPtr m message i
  len : ∀ i < (numIn m message).toNat, vecLen m' message i = vecLen m message i
  dest : ∀ i < (vecLen m message 0).toNat / 4,
    read32 m' (vecPtr m message 0 + BitVec.ofNat 32 (4 * i)) = destAddr m message i
  source : ∀ i, i + 1 < (numIn m message).toNat → Filled m message i →
    load m' (vecPtr m message (i + 1)) (vecLen m message (i + 1)).toNat =
      load m (vecPtr m message (i + 1)) (vecLen m message (i + 1)).toNat

theorem written_intact (disjoint : Disjoint m message) {n : Nat}
    (inside : n + 1 ≤ (numIn m message).toNat) : Intact m (written m message n) message := by
  have header : vector (written m message n) message = vector m message := by
    have kept : Same m (written m message n) message messageBytes :=
      written_same fun i before filled => disjoint.header i (by omega) filled
    exact (kept.sub 48 (by decide) : Same m _ (message + 48#32) 4).read32
  have table : Same m (written m message n) (vector m message)
      (vecBytes * (numIn m message).toNat) :=
    written_same fun i before filled => disjoint.table i (by omega) filled
  have entry : ∀ i < (numIn m message).toNat,
      Same m (written m message n) (vecAddress m message i) vecBytes :=
    fun i within => table.sub (vecBytes * i) (by simp only [vecBytes]; omega)
  have address : ∀ i, vecAddress (written m message n) message i = vecAddress m message i := by
    intro i
    rw [vecAddress, header, vecAddress]
  refine ⟨?_, ?_, ?_, ?_⟩
  · intro i within
    rw [vecPtr, address]
    exact ((entry i within).mono (by decide : 4 ≤ vecBytes)).read32
  · intro i within
    rw [vecLen, address]
    exact ((entry i within).sub 4 (by decide) : Same m _ (vecAddress m message i + 4#32) 4).read32
  · intro i within
    have list : Same m (written m message n) (vecPtr m message 0) (vecLen m message 0).toNat :=
      written_same fun j before filled => disjoint.destinations j (by omega) filled
    exact (list.sub (4 * i) (by omega) : Same m _ _ 4).read32
  · intro i within filled
    exact Same.load (written_same fun j before filled' =>
      disjoint.sources j i (by omega) within filled' filled)

/-- What the loop has done before its `n`-th pass. -/
def progress (m : Mem) (message : Word) (n : Nat) : Progress :=
  ⟨written m message n, (requested m message n).map fun w => (w.1, w.2.1), List.range (n + 1)⟩

theorem writeOne_progress (disjoint : Disjoint m message) {n : Nat}
    (inside : n + 1 < (numIn m message).toNat) (listed : n < (vecLen m message 0).toNat / 4) :
    writeOne message (vecPtr m message 0) n (progress m message n) =
      progress m message (n + 1) := by
  have intact := written_intact disjoint (Nat.le_of_lt inside)
  have place := intact.dest n listed
  have ptr := intact.ptr (n + 1) inside
  have len := intact.len (n + 1) inside
  simp only [writeOne, progress, place, ptr, len]
  by_cases filled : Filled m message n
  · have source := intact.source n inside filled
    have carried : vecPtr m message (n + 1) ≠ 0#32 ∧ (vecLen m message (n + 1)).toNat > 0 := filled
    rw [if_pos carried]
    simp only [written, requested_succ, if_pos filled, List.map_append, List.map_cons, List.map_nil,
      storeAll_append, List.range_succ (n := n + 1), Progress.mk.injEq, and_true]
    rw [move, ← written, source]
    rfl
  · have skipped : ¬ (vecPtr m message (n + 1) ≠ 0#32 ∧ (vecLen m message (n + 1)).toNat > 0) :=
      filled
    rw [if_neg skipped]
    simp only [written, requested_succ, if_neg filled, List.append_nil,
      List.range_succ (n := n + 1)]

theorem writeFrom_progress (disjoint : Disjoint m message) (remaining n : Nat)
    (count : (numIn m message).toNat = 1 + (vecLen m message 0).toNat / 4)
    (bound : n + remaining = (vecLen m message 0).toNat / 4) :
    writeFrom message (vecPtr m message 0) remaining n (progress m message n) =
      progress m message (n + remaining) := by
  induction remaining generalizing n with
  | zero => rfl
  | succ remaining ih =>
      rw [writeFrom, writeOne_progress disjoint (by omega) (by omega), ih (n + 1) (by omega),
        Nat.add_right_comm]
      rfl

/-- An error before the loop leaves everything as it was. -/
theorem rejected (code : Word) (vectors : List Nat) (error : code ≠ 0#32)
    (looked : ∀ i ∈ vectors, i < (numIn m message).toNat) :
    Validated m message ⟨code, m, [], vectors, false⟩ :=
  ⟨.inl ⟨error, rfl⟩, looked⟩

end WriteMemory

/-- Two writes, at 0x09000000 and at 0x09000002. -/
def messageSample : Mem :=
  let m := writeWords (fun _ => 0xAA#8) 0x08000028#32 [3#32, 0#32, 0x08000100#32]
  let m := writeWords m 0x08000100#32 [0x08000200#32, 8#32, 0#32, 0x08000300#32, 4#32, 0#32,
    0x08000310#32, 4#32, 0#32]
  writeWords m 0x08000200#32 [0x09000000#32, 0x09000002#32]

theorem messageSample_disjoint : Disjoint messageSample 0x08000000#32 := by
  have count : (numIn messageSample 0x08000000#32).toNat = 3 := by decide +kernel
  refine ⟨?_, ?_, ?_, ?_⟩
  · intro i inside _
    rcases (by omega : i = 0 ∨ i = 1) with rfl | rfl
    · exact apart_of_distance (by decide +kernel) (by decide +kernel)
    · exact apart_of_distance (by decide +kernel) (by decide +kernel)
  · intro i inside _
    rcases (by omega : i = 0 ∨ i = 1) with rfl | rfl
    · exact apart_of_distance (by decide +kernel) (by decide +kernel)
    · exact apart_of_distance (by decide +kernel) (by decide +kernel)
  · intro i inside _
    rcases (by omega : i = 0 ∨ i = 1) with rfl | rfl
    · exact apart_of_distance (by decide +kernel) (by decide +kernel)
    · exact apart_of_distance (by decide +kernel) (by decide +kernel)
  · intro i j inside inside' _ _
    rcases (by omega : i = 0 ∨ i = 1) with rfl | rfl
    · rcases (by omega : j = 0 ∨ j = 1) with rfl | rfl
      · exact apart_of_distance (by decide +kernel) (by decide +kernel)
      · exact apart_of_distance (by decide +kernel) (by decide +kernel)
    · rcases (by omega : j = 0 ∨ j = 1) with rfl | rfl
      · exact apart_of_distance (by decide +kernel) (by decide +kernel)
      · exact apart_of_distance (by decide +kernel) (by decide +kernel)

end Stroopwafel.Ipc
