import Stroopwafel.BlockHash
import Stroopwafel.Memory

set_option autoImplicit false

/- SHA-1 as its standard defines it, on the whole message. -/
namespace Sha1

open Memory

/-- Five words: a hash value, or the variables a to e of a round. -/
structure Work where
  a : Word
  b : Word
  c : Word
  d : Word
  e : Word
  deriving DecidableEq

def f (t : Nat) (x y z : Word) : Word :=
  if t < 20 then (x &&& y) ^^^ (~~~x &&& z)
  else if t < 40 then x ^^^ y ^^^ z
  else if t < 60 then (x &&& y) ^^^ (x &&& z) ^^^ (y &&& z)
  else x ^^^ y ^^^ z

def k (t : Nat) : Word :=
  if t < 20 then 0x5A827999#32
  else if t < 40 then 0x6ED9EBA1#32
  else if t < 60 then 0x8F1BBCDC#32
  else 0xCA62C1D6#32

/-- The words of the message schedule. -/
def schedule (m : Nat → Word) (t : Nat) : Word :=
  if t < 16 then m t
  else
    (schedule m (t - 3) ^^^ schedule m (t - 8) ^^^ schedule m (t - 14) ^^^
      schedule m (t - 16)).rotateLeft 1

def round (t : Nat) (w : Word) (x : Work) : Work :=
  ⟨x.a.rotateLeft 5 + f t x.b x.c x.d + x.e + k t + w, x.a, x.b.rotateLeft 30, x.c, x.d⟩

/-- The first `n` rounds. -/
def rounds (m : Nat → Word) (x : Work) : Nat → Work
  | 0 => x
  | n + 1 => round n (schedule m n) (rounds m x n)

/-- Byte `p` of the message, with zeros behind its end. -/
def byteOf (xs : List Byte) (p : Nat) : Byte := xs[p]?.getD 0#8

def wordOf (xs : List Byte) (i : Nat) : Word :=
  (byteOf xs (4 * i) ++ byteOf xs (4 * i + 1)) ++ (byteOf xs (4 * i + 2) ++ byteOf xs (4 * i + 3))

def compress (h : Work) (block : List Byte) : Work :=
  let x := rounds (wordOf block) h 80
  ⟨h.a + x.a, h.b + x.b, h.c + x.c, h.d + x.d, h.e + x.e⟩

def initial : Work := ⟨0x67452301#32, 0xEFCDAB89#32, 0x98BADCFE#32, 0x10325476#32, 0xC3D2E1F0#32⟩

/-- The length in bits. -/
def lengthBytes (n : Nat) : List Byte :=
  bytes32 ((BitVec.ofNat 64 (8 * n)).extractLsb' 32 32) ++
    bytes32 ((BitVec.ofNat 64 (8 * n)).extractLsb' 0 32)

/-- As many zeros as it takes for whole blocks. -/
def padding (n : Nat) : List Byte :=
  0x80#8 :: List.replicate ((119 - n % 64) % 64) 0#8 ++ lengthBytes n

def Work.bytes (h : Work) : List Byte :=
  bytes32 h.a ++ bytes32 h.b ++ bytes32 h.c ++ bytes32 h.d ++ bytes32 h.e

def digest (message : List Byte) : List Byte :=
  (BlockHash.blocks compress 64 initial (message ++ padding message.length)).bytes

theorem digest_length (message : List Byte) : (digest message).length = 20 := rfl

@[simp] theorem lengthBytes_length (n : Nat) : (lengthBytes n).length = 8 := rfl

theorem schedule_input (m : Nat → Word) {t : Nat} (input : t < 16) : schedule m t = m t := by
  rw [schedule, if_pos input]

theorem schedule_later (m : Nat → Word) {t : Nat} (later : 16 ≤ t) :
    schedule m t = (schedule m (t - 3) ^^^ schedule m (t - 8) ^^^ schedule m (t - 14) ^^^
      schedule m (t - 16)).rotateLeft 1 := by
  rw [schedule, if_neg (by omega)]

theorem byteOf_front (xs ys : List Byte) {p : Nat} (inside : p < xs.length) :
    byteOf (xs ++ ys) p = byteOf xs p := by
  unfold byteOf
  rw [List.getElem?_append_left inside]

theorem byteOf_behind (xs ys : List Byte) {p : Nat} (behind : xs.length ≤ p) :
    byteOf (xs ++ ys) p = byteOf ys (p - xs.length) := by
  unfold byteOf
  rw [List.getElem?_append_right behind]

theorem byteOf_end (xs : List Byte) {p : Nat} (outside : xs.length ≤ p) : byteOf xs p = 0#8 := by
  unfold byteOf
  rw [List.getElem?_eq_none outside, Option.getD_none]

theorem byteOf_zeros (n p : Nat) : byteOf (List.replicate n 0#8) p = 0#8 := by
  unfold byteOf
  rw [List.getElem?_replicate]
  split <;> rfl

theorem wordOf_congr {xs ys : List Byte} {i j : Nat}
    (same : ∀ q < 4, byteOf xs (4 * i + q) = byteOf ys (4 * j + q)) :
    wordOf xs i = wordOf ys j := by
  unfold wordOf
  rw [← Nat.add_zero (4 * i), ← Nat.add_zero (4 * j), same 0 (by decide), same 1 (by decide),
    same 2 (by decide), same 3 (by decide)]

end Sha1
