import Stroopwafel.CString
import Stroopwafel.Scan

set_option autoImplicit false

namespace Stroopwafel.C2wPtrs

open Memory CString Scan

section Seeprom

/-- Wii SEEPROM address -/
def wiiSeeprom : Word := 0xFFF07F00#32
def seepromCopy : Word := 0xFFF07B00#32

def fixupRound (a : Word) (m : Mem) : Option (ForInStep Mem) :=
  if read32 m a = wiiSeeprom then return .done (write32 m a seepromCopy) else return .yield m

def c2wBootHookFixupC2wPtrs (m : Mem) : Option Mem :=
  scan 0x01F80000#32 4#32 fixupRound 0x3E0001 0x01000000#32 m

/-- A word of c2w.elf. -/
def InC2w (a : Word) : Prop :=
  a.toNat % 4 = 0 ∧ 0x01000000 ≤ a.toNat ∧ a.toNat < 0x01F80000

structure Redirected (m m' : Mem) : Prop where
  gone : ∀ a, InC2w a → read32 m' a ≠ wiiSeeprom
  replaced : ∀ a, InC2w a → read32 m a = wiiSeeprom → read32 m' a = seepromCopy
  kept : ∀ a, a.toNat % 4 = 0 → ¬ (InC2w a ∧ read32 m a = wiiSeeprom) → read32 m' a = read32 m a

/-- There is one pointer to replace, or none. -/
def AtMostOne (m : Mem) : Prop :=
  ∀ a b, InC2w a → InC2w b → read32 m a = wiiSeeprom → read32 m b = wiiSeeprom → a = b

def wordOf (i : Nat) : Word := 0x01000000#32 + BitVec.ofNat 32 (4 * i)

theorem inC2w_iff (a : Word) : InC2w a ↔ ∃ i < 0x3E0000, a = wordOf i := by
  constructor
  · intro ⟨aligned, lower, upper⟩
    refine ⟨(a.toNat - 0x01000000) / 4, by omega, ?_⟩
    unfold wordOf
    bv_omega
  · intro ⟨i, inside, address⟩
    subst address
    have value : (wordOf i).toNat = 0x01000000 + 4 * i := by
      unfold wordOf
      bv_omega
    unfold InC2w
    omega

/-- Two words that are aligned are one or apart. -/
theorem words_apart (a b : Word) (alignedA : a.toNat % 4 = 0) (alignedB : b.toNat % 4 = 0)
    (other : a ≠ b) : Apart a 4 b 4 := by
  have values : a.toNat ≠ b.toNat := fun same => other (BitVec.eq_of_toNat_eq same)
  rcases Nat.lt_or_gt_of_ne values with below | above
  · exact apart_of_order (by omega) (by omega)
  · exact (apart_of_order (by omega) (by omega)).comm

/-- The loop replaces the first pointer and breaks. -/
theorem fixup_first (m : Mem) : ∃ m', c2wBootHookFixupC2wPtrs m = some m' ∧
    ((∃ a, InC2w a ∧ read32 m a = wiiSeeprom ∧ m' = write32 m a seepromCopy) ∨
      (∀ a, InC2w a → read32 m a ≠ wiiSeeprom) ∧ m' = m) := by
  apply scan_ok fixupRound 0x01F80000#32 4#32 0x01000000#32 0x3E0000 0x3E0001
    (by decide) (by decide) (by decide)
    (fun i m' => (∀ j < i, read32 m (wordOf j) ≠ wiiSeeprom) ∧ m' = m)
  · exact ⟨fun j inside => absurd inside (Nat.not_lt_zero j), rfl⟩
  · intro i inside m' ⟨before, unchanged⟩
    subst unchanged
    change (∃ s', fixupRound (wordOf i) m' = some (.yield s') ∧ _) ∨
      ∃ s', fixupRound (wordOf i) m' = some (.done s') ∧ _
    unfold fixupRound
    by_cases here : read32 m' (wordOf i) = wiiSeeprom
    · right
      refine ⟨_, if_pos here, .inl ⟨wordOf i, ?_, here, rfl⟩⟩
      exact (inC2w_iff _).mpr ⟨i, inside, rfl⟩
    · left
      refine ⟨_, if_neg here, ?_, rfl⟩
      intro j later
      by_cases last : j = i
      · rwa [last]
      · exact before j (by omega)
  · intro m' ⟨before, unchanged⟩
    refine .inr ⟨?_, unchanged⟩
    intro a inside
    obtain ⟨i, bound, address⟩ := (inC2w_iff a).mp inside
    rw [address]
    exact before i bound

theorem fixup_redirected_iff (m : Mem) :
    (∃ m', c2wBootHookFixupC2wPtrs m = some m' ∧ Redirected m m') ↔ AtMostOne m := by
  obtain ⟨m', ran, found | ⟨absent, unchanged⟩⟩ := fixup_first m
  · obtain ⟨a, inside, pointer, written⟩ := found
    have elsewhere : ∀ b, b.toNat % 4 = 0 → b ≠ a → read32 m' b = read32 m b := by
      intro b aligned other
      rw [written]
      exact (write32_apart m b a 4 seepromCopy (words_apart b a aligned inside.1 other)).read32
    have here : read32 m' a = seepromCopy := by rw [written, read32_write32]
    rw [ran]
    constructor
    · intro ⟨_, result, redirected⟩
      cases result
      have only : ∀ b, InC2w b → read32 m b = wiiSeeprom → b = a := by
        intro b insideB pointerB
        by_cases same : b = a
        · exact same
        · have left := redirected.gone b insideB
          rw [elsewhere b insideB.1 same] at left
          exact absurd pointerB left
      intro b c insideB insideC pointerB pointerC
      rw [only b insideB pointerB, only c insideC pointerC]
    · intro atMostOne
      refine ⟨m', rfl, ?_, ?_, ?_⟩
      · intro b insideB
        by_cases same : b = a
        · rw [same, here]
          decide
        · rw [elsewhere b insideB.1 same]
          exact fun pointerB => same (atMostOne b a insideB inside pointerB pointer)
      · intro b insideB pointerB
        rw [atMostOne b a insideB inside pointerB pointer, here]
      · intro b aligned unheld
        apply elsewhere b aligned
        intro same
        rw [same] at unheld
        exact unheld ⟨inside, pointer⟩
  · rw [ran, unchanged]
    constructor
    · intro _ b _ insideB _ pointerB _
      exact absurd pointerB (absent b insideB)
    · intro _
      refine ⟨m, rfl, absent, ?_, fun _ _ _ => rfl⟩
      intro b insideB pointerB
      exact absurd pointerB (absent b insideB)

end Seeprom

section Mlc

def haiMlcStr : List Byte := chars "/dev/sdio/MLC01".toList
def haiSlotStr : List Byte := chars "/dev/sdio/slot0".toList

def redirectRound (a : Word) (m : Mem) : Option (ForInStep Mem) :=
  if load m a 16 = haiMlcStr ++ [0#8] then return .yield (strcpy m a haiSlotStr)
  else return .yield m

def haiRedirectMlc2sd (m : Mem) : Option Mem :=
  let iosPaddr := read32 m 0x1018#32
  let iosEnd := iosPaddr + 0x260000#32
  scan iosEnd 2#32 redirectRound 0x130001 iosPaddr m

/-- The strings of an image that have to be replaced. -/
def InImage (m : Mem) (a : Word) : Prop :=
  a.toNat % 2 = 0 ∧ (read32 m 0x1018#32).toNat ≤ a.toNat ∧
    a.toNat + 16 ≤ (read32 m 0x1018#32).toNat + 0x260000

/-- Exactly the strings at the addresses of a set are replaced. -/
structure Replaced (at' : Word → Prop) (m m' : Mem) : Prop where
  slot : ∀ a, at' a → Str m' a haiSlotStr
  kept : ∀ x, (∀ a, at' a → 16 ≤ (x - a).toNat) → m' x = m x

def AllReplaced (m m' : Mem) : Prop :=
  Replaced (fun a => InImage m a ∧ Str m a haiMlcStr) m m'

/-- The addresses that the loop looks at. -/
def Scanned (m : Mem) (a : Word) : Prop :=
  (read32 m 0x1018#32).toNat + 0x260000 < 2 ^ 32 ∧
    ∃ i < 0x130000, a = read32 m 0x1018#32 + BitVec.ofNat 32 (2 * i)

def AllScanned (m : Mem) : Prop := ∀ a, Str m a haiMlcStr → (Scanned m a ↔ InImage m a)

theorem compared_iff (m : Mem) (a : Word) :
    load m a 16 = haiMlcStr ++ [0#8] ↔ Str m a haiMlcStr :=
  load_eq_iff_str a haiMlcStr (by decide) (by decide)

/-- Both strings have 15 characters, so that all four pairs of them are one or apart. -/
theorem strings_apart {m : Mem} {a b : Word} {s s' : List Byte} (str : Str m a s)
    (str' : Str m b s') (length : s.length = 15) (length' : s'.length = 15) (other : a ≠ b) :
    Apart a 16 b 16 := by
  have apart := str.apart str' (length'.trans length.symm) other
  rwa [length] at apart

section Set

variable {at' : Word → Prop} {m m' : Mem}

theorem Replaced.same (replaced : Replaced at' m m') (a : Word)
    (apart : ∀ b, at' b → Apart a 16 b 16) : Same m m' a 16 := by
  intro i inside
  apply replaced.kept
  intro b isAt
  apply Nat.le_of_not_lt
  intro within
  apply apart b isAt i inside _ within
  bv_omega

/-- What is not replaced compares as before, also where it overlaps with what is. -/
theorem Replaced.compared_iff (replaced : Replaced at' m m')
    (held : ∀ a, at' a → Str m a haiMlcStr) (a : Word) (outside : ¬ at' a) :
    Str m' a haiMlcStr ↔ Str m a haiMlcStr := by
  have other : ∀ b, at' b → a ≠ b := fun b isAt same => outside (same ▸ isAt)
  constructor
  · intro str
    have same := replaced.same a fun b isAt =>
      strings_apart str (replaced.slot b isAt) rfl rfl (other b isAt)
    exact str.congr fun i inside => (same i (Nat.lt_succ_of_le inside)).symm
  · intro str
    have same := replaced.same a fun b isAt =>
      strings_apart str (held b isAt) rfl rfl (other b isAt)
    exact str.congr fun i inside => same i (Nat.lt_succ_of_le inside)

theorem Replaced.strcpy (replaced : Replaced at' m m') (held : ∀ a, at' a → Str m a haiMlcStr)
    (a : Word) (outside : ¬ at' a) (str : Str m a haiMlcStr) :
    Replaced (fun b => at' b ∨ b = a) m (strcpy m' a haiSlotStr) := by
  constructor
  · intro b isAt
    rcases isAt with isAt | same
    · have apart : Apart b 16 a 16 :=
        strings_apart (held b isAt) str rfl rfl fun same => outside (same ▸ isAt)
      have same := store_apart m' b a 16 (haiSlotStr ++ [0#8]) apart
      exact (replaced.slot b isAt).congr fun i inside => same i (Nat.lt_succ_of_le inside)
    · rw [same]
      exact strcpy_str m' a haiSlotStr (by decide) (by decide)
  · intro x others
    have far : 16 ≤ (x - a).toNat := others a (.inr rfl)
    rw [CString.strcpy, store_outside m' a x (haiSlotStr ++ [0#8]) far]
    exact replaced.kept x fun b isAt => others b (.inl isAt)

/-- The memory behind tells which strings were replaced. -/
theorem Replaced.subset {at'' : Word → Prop} (replaced : Replaced at' m m')
    (replaced' : Replaced at'' m m') (held : ∀ a, at' a → Str m a haiMlcStr)
    (held' : ∀ a, at'' a → Str m a haiMlcStr) (a : Word) (isAt : at' a) : at'' a := by
  by_cases isAt' : at'' a
  · exact isAt'
  · have str := (replaced'.compared_iff held' a isAt').mpr (held a isAt)
    exact absurd (str.unique (replaced.slot a isAt)) (by decide)

theorem Replaced.congr {at'' : Word → Prop} (replaced : Replaced at' m m')
    (same : ∀ a, at'' a ↔ at' a) : Replaced at'' m m' where
  slot a isAt := replaced.slot a ((same a).mp isAt)
  kept x others := replaced.kept x fun a isAt => others a ((same a).mpr isAt)

theorem Replaced.none (m : Mem) (never : ∀ a, ¬ at' a) : Replaced at' m m where
  slot a isAt := absurd isAt (never a)
  kept _ _ := rfl

end Set

/-- The strings at the first `i` addresses from `start` on. -/
def Before (m : Mem) (start : Word) (i : Nat) (a : Word) : Prop :=
  (∃ j < i, a = start + BitVec.ofNat 32 (2 * j)) ∧ Str m a haiMlcStr

theorem redirectRound_ok (m m' : Mem) (start : Word) (i : Nat) (bound : 2 * i < 2 ^ 32)
    (before : Replaced (Before m start i) m m') :
    ∃ m'', redirectRound (start + BitVec.ofNat 32 (2 * i)) m' = some (.yield m'') ∧
      Replaced (Before m start (i + 1)) m m'' := by
  have held : ∀ a, Before m start i a → Str m a haiMlcStr := fun _ => And.right
  have new : ¬ Before m start i (start + BitVec.ofNat 32 (2 * i)) := by
    intro ⟨⟨j, earlier, same⟩, _⟩
    bv_omega
  have split : ∀ a, (∃ j < i + 1, a = start + BitVec.ofNat 32 (2 * j)) ↔
      (∃ j < i, a = start + BitVec.ofNat 32 (2 * j)) ∨ a = start + BitVec.ofNat 32 (2 * i) := by
    intro a
    constructor
    · intro ⟨j, within, same⟩
      by_cases last : j = i
      · exact .inr (last ▸ same)
      · exact .inl ⟨j, by omega, same⟩
    · intro either
      rcases either with ⟨j, within, same⟩ | same
      · exact ⟨j, by omega, same⟩
      · exact ⟨i, Nat.lt_succ_self i, same⟩
  unfold redirectRound
  by_cases found : load m' (start + BitVec.ofNat 32 (2 * i)) 16 = haiMlcStr ++ [0#8]
  · have str := (before.compared_iff held _ new).mp ((compared_iff m' _).mp found)
    refine ⟨_, if_pos found, (before.strcpy held _ new str).congr fun a => ?_⟩
    unfold Before
    rw [split, or_and_right]
    constructor
    · exact Or.imp_right And.left
    · exact Or.imp_right fun same => ⟨same, same ▸ str⟩
  · have absent : ¬ Str m (start + BitVec.ofNat 32 (2 * i)) haiMlcStr := fun str =>
      found ((compared_iff m' _).mpr ((before.compared_iff held _ new).mpr str))
    refine ⟨_, if_neg found, before.congr fun a => ?_⟩
    unfold Before
    rw [split, or_and_right]
    constructor
    · intro either
      rcases either with old | ⟨same, str⟩
      · exact old
      · exact absurd (same ▸ str) absent
    · exact .inl

/-- The loop replaces what it looks at. -/
theorem redirect_scanned (m : Mem) : ∃ m', haiRedirectMlc2sd m = some m' ∧
    Replaced (fun a => Scanned m a ∧ Str m a haiMlcStr) m m' := by
  unfold haiRedirectMlc2sd Scanned
  by_cases room : (read32 m 0x1018#32).toNat + 0x260000 < 2 ^ 32
  · apply scan_ok redirectRound _ 2#32 _ 0x130000 0x130001 (by decide) (by decide) (by bv_omega)
      (fun i m' => Replaced (Before m (read32 m 0x1018#32) i) m m')
    · exact Replaced.none m fun _ ⟨⟨j, inside, _⟩, _⟩ => Nat.not_lt_zero j inside
    · intro i inside m' before
      exact .inl (redirectRound_ok m m' _ i (by omega) before)
    · intro m' all
      exact all.congr fun a => and_congr_left fun _ => and_iff_right room
  · refine ⟨m, scan_past _ _ _ _ _ m (by decide) (by bv_omega), ?_⟩
    exact Replaced.none m fun _ ⟨⟨fits, _⟩, _⟩ => room fits

theorem redirect_replaced_iff (m : Mem) :
    (∃ m', haiRedirectMlc2sd m = some m' ∧ AllReplaced m m') ↔ AllScanned m := by
  obtain ⟨m', ran, scanned⟩ := redirect_scanned m
  rw [ran]
  constructor
  · intro ⟨_, result, all⟩ a str
    cases result
    constructor
    · intro isScanned
      exact (scanned.subset all (fun _ => And.right) (fun _ => And.right) a ⟨isScanned, str⟩).1
    · intro inImage
      exact (all.subset scanned (fun _ => And.right) (fun _ => And.right) a ⟨inImage, str⟩).1
  · intro allScanned
    refine ⟨m', rfl, scanned.congr fun a => ?_⟩
    exact and_congr_left fun str => (allScanned a str).symm

end Mlc

section Redirected

/-- Both loops replace everything and nothing else if and only if there is at most one pointer, and
no string beyond the end of the image or at an address of the other parity. -/
theorem redirected_iff (m : Mem) :
    ((∃ m', c2wBootHookFixupC2wPtrs m = some m' ∧ Redirected m m') ↔ AtMostOne m) ∧
      ((∃ m', haiRedirectMlc2sd m = some m' ∧ AllReplaced m m') ↔ AllScanned m) :=
  ⟨fixup_redirected_iff m, redirect_replaced_iff m⟩

/-- Two pointers, one after the other. -/
def twoMem : Mem := writeWords (fun _ => 0#8) 0x01000000#32 [wiiSeeprom, wiiSeeprom]

/-- The second pointer stays. -/
theorem second_left : ¬ ∃ m', c2wBootHookFixupC2wPtrs twoMem = some m' ∧ Redirected twoMem m' := by
  intro redirected
  have one := (fixup_redirected_iff twoMem).mp redirected
  exact absurd (one 0x01000000#32 0x01000004#32 (by unfold InC2w; decide) (by unfold InC2w; decide)
    (by decide) (by decide)) (by decide)

end Redirected

end Stroopwafel.C2wPtrs
