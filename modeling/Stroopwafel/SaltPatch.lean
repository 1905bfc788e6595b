import Stroopwafel.MemoryHolds

set_option autoImplicit false

namespace Stroopwafel.SaltPatch

open Memory

/-- `(fsize + 3) & ~0x03` -/
def sizeRound (fsize : Nat) : Nat := (fsize + 3) / 4 * 4

/-- The file in a buffer of `sizeRound` zeros. -/
def contents (file : List Byte) : List Byte :=
  file ++ List.replicate (sizeRound file.length - file.length) 0#8

/-- `data[i]`, if it lies in the buffer. -/
def word (data : List Byte) (i : Nat) : Option (List Byte) :=
  if 4 * i + 4 ≤ data.length then some ((data.drop (4 * i)).take 4) else none

/-- The `len` bytes from `&data[i]` on, if they lie in the buffer. -/
def bytesFrom (data : List Byte) (i len : Nat) : Option (List Byte) :=
  if 4 * i + len ≤ data.length then some ((data.drop (4 * i)).take len) else none

def genericChunk (type addr len : Word) : List Byte := bytes32 type ++ bytes32 addr ++ bytes32 len

def patchAddDiff (patch data : List Byte) (i : Nat) (lenWords base : Word) :
    Option (List Byte) := do
  let written ← bytesFrom data i (lenWords * 4#32).toNat
  return patch ++ (genericChunk 0#32 base (lenWords * 4#32) ++ written)

def patchAddMemset (patch : List Byte) (lenWords base : Word) : List Byte :=
  patch ++ genericChunk 1#32 base (lenWords * 4#32)

/-- `while(test(i)) { i++; if(i >= n) break; }` -/
def scan (test : Nat → Option Bool) (n : Nat) : Nat → Nat → Option Nat
  | 0, i => some i
  | fuel + 1, i => do
      if ← test i then
        if i + 1 ≥ n then return i + 1
        else scan test n fuel (i + 1)
      else return i

def isZero (data : List Byte) (i : Nat) : Option Bool := do
  return (← word data i) = [0#8, 0#8, 0#8, 0#8]

/-- `unpatched_data[i] != patched_data[i]` -/
def differ (unpatched patched : List Byte) (i : Nat) : Option Bool := do
  return (← word unpatched i) ≠ (← word patched i)

/-- What `calloc` and `fread` do is up to the host. -/
structure Host where
  unpatchedAllocated : Bool
  patchedAllocated : Bool
  unpatchedRead : Bool
  patchedRead : Bool

section Loops

variable (base : Word) (n : Nat)

def addWords (data : List Byte) : Nat → Nat → List Byte → Option (List Byte)
  | 0, _, patch => some patch
  | fuel + 1, i, patch =>
      if i < n then do
        if ← isZero data i then
          let k ← scan (isZero data) n n i
          addWords data fuel k
            (patchAddMemset patch (BitVec.ofNat 32 (k - i)) (base + BitVec.ofNat 32 (4 * i)))
        else
          let k ← scan (fun i => (isZero data i).map (!·)) n n i
          let patch ← patchAddDiff patch data i (BitVec.ofNat 32 (k - i))
            (base + BitVec.ofNat 32 (4 * i))
          addWords data fuel k patch
      else some patch

def diffWords (unpatched patched : List Byte) : Nat → Nat → List Byte → Option (List Byte)
  | 0, _, patch => some patch
  | fuel + 1, i, patch =>
      if i < n then do
        if ← differ unpatched patched i then
          let k ← scan (differ unpatched patched) n n i
          let patch ← patchAddDiff patch patched i (BitVec.ofNat 32 (k - i))
            (base + BitVec.ofNat 32 (4 * i))
          diffWords unpatched patched fuel k patch
        else diffWords unpatched patched fuel (i + 1) patch
      else some patch

end Loops

/-- The result and the file of patches. There is no result when a word outside of the buffers
is read. -/
def patchAddToFile (host : Host) (patched patch : List Byte) (base : Word) :
    Option (Int × List Byte) :=
  let n := sizeRound patched.length / 4
  if host.patchedAllocated = false then some (-1, patch)
  else if host.patchedRead = false then some (-2, patch)
  else do
    let patch ← addWords base n (contents patched) n 0 patch
    return (0, patch)

def patchDiffToFile (host : Host) (unpatched patched patch : List Byte) (base : Word) :
    Option (Int × List Byte) :=
  let unpatchedSizeRound := sizeRound unpatched.length
  let patchedSizeRound := sizeRound patched.length
  let n := unpatchedSizeRound / 4
  if host.unpatchedAllocated = false ∨ host.patchedAllocated = false then some (-1, patch)
  else if host.unpatchedRead = false then some (-2, patch)
  else if host.patchedRead = false then some (-3, patch)
  else do
    let patch ← diffWords base n (contents unpatched) (contents patched) n 0 patch
    if unpatchedSizeRound ≠ patchedSizeRound then
      let lenWords := (BitVec.ofNat 64 patchedSizeRound - BitVec.ofNat 64 unpatchedSizeRound) / 4#64
      let patch ← patchAddDiff patch (contents patched) n (lenWords.setWidth 32)
        (base + BitVec.ofNat 32 unpatchedSizeRound)
      return (0, patch)
    else return (0, patch)

def execute : Nat → Mem → List Byte → Option Mem
  | _, m, [] => some m
  | fuel + 1, m, t0 :: t1 :: t2 :: t3 :: a0 :: a1 :: a2 :: a3 :: l0 :: l1 :: l2 :: l3 :: rest =>
      let type : Word := (t0 ++ t1) ++ (t2 ++ t3)
      let addr : Word := (a0 ++ a1) ++ (a2 ++ a3)
      let len := ((l0 ++ l1) ++ (l2 ++ l3)).toNat
      if type = 0#32 then
        if len ≤ rest.length then execute fuel (store m addr (rest.take len)) (rest.drop len)
        else none
      else if type = 1#32 then execute fuel (store m addr (List.replicate len 0#8)) rest
      else none
  | _, _, _ => none

/-- `file` stands at `base`, zero-padded to whole words. -/
def Loaded (m : Mem) (base : Word) (file : List Byte) : Prop :=
  Holds m base (sizeRound file.length) (bytesOf (contents file))

structure Host.Works (host : Host) : Prop where
  unpatchedAllocated : host.unpatchedAllocated = true
  patchedAllocated : host.patchedAllocated = true
  unpatchedRead : host.unpatchedRead = true
  patchedRead : host.patchedRead = true

/-- The result is an error, or the chunks appended to `patch` load `file` into every memory
that meets `before`; no word outside of the buffers was read. -/
def Reproduces (result : Option (Int × List Byte)) (patch : List Byte) (base : Word)
    (file : List Byte) (before : Mem → Prop) : Prop :=
  ∃ ret out, result = some (ret, out) ∧ (ret ≠ 0 ∨ ∃ appended, out = patch ++ appended ∧
    ∀ m, before m → ∃ m', execute appended.length m appended = some m' ∧ Loaded m' base file)

end Stroopwafel.SaltPatch
