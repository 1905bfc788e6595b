import Stroopwafel.CString

set_option autoImplicit false

namespace Stroopwafel.Prsh

open Memory CString

/-- The window that is scanned for a header. -/
abbrev windowStart : Word := 0x10000400#32
abbrev windowWords : Nat := 0x7C00 / 4

/-- `PRSH` -/
abbrev magic : Word := 0x50525348#32

/-- `sizeof(prsh_header)`, `sizeof(prsh_entry)` and `sizeof(entry->name)` -/
abbrev headerBytes : Nat := 28
abbrev entryBytes : Nat := 0x12C
abbrev nameBytes : Nat := 0x100

abbrev maxEntries : Nat := 0x100

section Layout

variable (m : Mem) (header : Word)

def totalEntries : Word := read32 m (header + 20#32)

def entries : Word := read32 m (header + 24#32)

/-- `&header->entry[i]`; the name comes first. -/
def entryAddress (i : Nat) : Word := header + BitVec.ofNat 32 (headerBytes + entryBytes * i)

def entryData (i : Nat) : Word := read32 m (entryAddress header i + 0x100#32)

def entrySize (i : Nat) : Word := read32 m (entryAddress header i + 0x104#32)

end Layout

/-- The static variables. A pointer that is 0 is `NULL`. -/
structure State where
  prst : Word
  header : Word
  initialized : Bool

/-- What is read through the header pointer. -/
inductive Access where
  /-- A field of the header at `base`. -/
  | header (base : Word)
  /-- Fields of one entry. -/
  | entry (i : Nat)
  /-- `count` bytes from the name of an entry on. -/
  | text (i count : Nat)
  deriving DecidableEq

def prshReset : State := ⟨0#32, 0#32, false⟩

/-- The place of the magic among the next `remaining` words. -/
def findMagic (m : Mem) : Nat → Word → Option Word
  | 0, _ => none
  | remaining + 1, buffer =>
      if read32 m buffer = magic then some buffer else findMagic m remaining (buffer + 4#32)

/-- The bytes `%s` reads of an entry's name, with the terminator. -/
def nameText (m : Mem) (header : Word) (i : Nat) : Nat :=
  strlen m (entryAddress header i) (2 ^ 32) + 1

/-- The names are listed by `debug_printf`, which looks at them only while it is enabled. -/
def listNames (debug : Bool) (m : Mem) (header : Word) : List Access :=
  if debug then
    (List.range (entries m header).toNat).map fun i => .text i (nameText m header i)
  else []

/-- A header whose count is corrupt is searched for again. -/
def checkCorrupt (m : Mem) (s : State) : State × List Access :=
  if s.header ≠ 0#32 then
    (if (totalEntries m s.header).toNat > maxEntries then { s with initialized := false } else s,
      [.header s.header])
  else (s, [])

def prshInit (debug : Bool) (m : Mem) (s : State) : State × List Access :=
  let (s, checked) := checkCorrupt m s
  if s.initialized then (s, checked)
  else
    let (s, located) : State × List Access :=
      match findMagic m windowWords windowStart with
      | none => (⟨0#32, 0#32, true⟩, [])
      | some buffer =>
          let header := buffer - 4#32
          (⟨entryAddress header (totalEntries m header).toNat, header, true⟩, [.header header])
    (s, checked ++ located ++ .header s.header :: listNames debug m s.header)

/-- The loop over the `remaining` entries from index `i` on: the entry that has the
name, and the entries that were looked at. -/
def searchFrom (m : Mem) (header name : Word) : Nat → Nat → Option Nat × List Access
  | 0, _ => (none, [])
  | remaining + 1, i =>
      if strncmp m name (entryAddress header i) nameBytes = 0 then (some i, [.entry i])
      else
        let (found, accesses) := searchFrom m header name remaining (i + 1)
        (found, .entry i :: accesses)

/-- The result, `*data` and `*size` where they were passed, and what was read. -/
structure Outcome where
  ret : Int
  data : Option Word
  size : Option Word
  state : State
  accesses : List Access

section Lookup

variable (debug : Bool) (m : Mem) (s : State) (name : Word) (data size : Option Word)

def prshGetEntry : Outcome :=
  let (s, accesses) := prshInit debug m s
  if name = 0#32 then ⟨-1, data, size, s, accesses⟩
  else if s.header = 0#32 then ⟨-2, data, size, s, accesses⟩
  else
    let accesses := accesses ++ [.header s.header]
    if (totalEntries m s.header).toNat > maxEntries then ⟨-1, data, size, s, accesses⟩
    else
      let (found, visited) := searchFrom m s.header name (entries m s.header).toNat 0
      match found with
      | some i =>
          ⟨0, data.map fun _ => entryData m s.header i, size.map fun _ => entrySize m s.header i, s,
            accesses ++ visited⟩
      | none => ⟨-2, data, size, s, accesses ++ visited⟩

end Lookup

/-- The header that belongs to the first word-aligned magic of the window. -/
def Located (m : Mem) (header : Word) : Prop :=
  ∃ k < windowWords, read32 m (windowStart + BitVec.ofNat 32 (4 * k)) = magic ∧
    (∀ j < k, read32 m (windowStart + BitVec.ofNat 32 (4 * j)) ≠ magic) ∧
    header + 4#32 = windowStart + BitVec.ofNat 32 (4 * k)

/-- Entry `i` is in use and has the requested name. -/
def Matches (m : Mem) (header name : Word) (i : Nat) : Prop :=
  i < (entries m header).toNat ∧ Equal m name (entryAddress header i) nameBytes

/-- An access that stays with a header and its first `total_entries` entries. -/
def Access.Allowed (m : Mem) : Access → Prop
  | .header base => base ≠ 0#32
  | .entry i => ∃ header, Located m header ∧ i < (totalEntries m header).toNat
  | .text i count => ∃ header, Located m header ∧
      entryBytes * i + count ≤ entryBytes * (totalEntries m header).toNat

/-- The lookup is exact and safe. -/
structure Exact (m : Mem) (name : Word) (data size : Option Word) (out : Outcome) : Prop where
  zero_iff : out.ret = 0 ↔ ∃ header, Located m header ∧
    (totalEntries m header).toNat ≤ maxEntries ∧ ∃ i, Matches m header name i
  delivers : out.ret = 0 → ∃ header i, Located m header ∧ Matches m header name i ∧
    (∀ j < i, ¬ Matches m header name j) ∧
    out.data = data.map (fun _ => entryData m header i) ∧
    out.size = size.map (fun _ => entrySize m header i)
  rejects : out.ret ≠ 0 → out.ret < 0 ∧ out.data = data ∧ out.size = size
  safe : ∀ access ∈ out.accesses, access.Allowed m

/-- There is a header; with debug output the names end within its entries; and a
search does not go on behind `total_entries`. -/
def Orderly (debug : Bool) (m : Mem) (name : Word) : Prop :=
  ∃ header, Located m header ∧
    (debug = true → ∀ i < (entries m header).toNat,
      entryBytes * i + nameText m header i ≤ entryBytes * (totalEntries m header).toNat) ∧
    ((totalEntries m header).toNat ≤ maxEntries →
      (totalEntries m header).toNat < (entries m header).toNat →
      ∃ i < (totalEntries m header).toNat, Matches m header name i)

theorem next_word (start : Word) (j : Nat) :
    start + 4#32 + BitVec.ofNat 32 (4 * j) = start + BitVec.ofNat 32 (4 * (j + 1)) := by
  rw [show (4#32 : Word) = BitVec.ofNat 32 4 from rfl, ofNat_add_ofNat, Nat.mul_succ, Nat.add_comm]

theorem findMagic_eq_some_iff (m : Mem) (remaining : Nat) (start buffer : Word) :
    findMagic m remaining start = some buffer ↔
      ∃ k < remaining, read32 m (start + BitVec.ofNat 32 (4 * k)) = magic ∧
        (∀ j < k, read32 m (start + BitVec.ofNat 32 (4 * j)) ≠ magic) ∧
        buffer = start + BitVec.ofNat 32 (4 * k) := by
  induction remaining generalizing start with
  | zero => simp [findMagic]
  | succ remaining ih =>
      rw [findMagic]
      by_cases here : read32 m start = magic
      · rw [if_pos here, Option.some.injEq]
        constructor
        · intro found
          exact ⟨0, by omega, by simpa using here,
            fun j inside => absurd inside (Nat.not_lt_zero j), by simp [found]⟩
        · rintro ⟨k, _, _, before, rfl⟩
          cases k with
          | zero => simp
          | succ k => exact absurd (by simpa using here) (before 0 (by omega))
      · rw [if_neg here, ih (start + 4#32)]
        simp only [next_word]
        constructor
        · rintro ⟨k, bound, found, before, rfl⟩
          refine ⟨k + 1, by omega, found, ?_, rfl⟩
          intro j inside
          cases j with
          | zero => simpa using here
          | succ j => exact before j (by omega)
        · rintro ⟨k, bound, found, before, rfl⟩
          cases k with
          | zero => exact absurd (by simpa using found) here
          | succ k => exact ⟨k, by omega, found, fun j inside => before (j + 1) (by omega), rfl⟩

theorem located_iff (m : Mem) (header : Word) :
    Located m header ↔ findMagic m windowWords windowStart = some (header + 4#32) := by
  rw [findMagic_eq_some_iff]
  rfl

theorem Located.unique {m : Mem} {header header' : Word} (located : Located m header)
    (located' : Located m header') : header' = header := by
  rw [located_iff] at located located'
  rw [located, Option.some.injEq] at located'
  exact (BitVec.add_left_inj _).mp located'.symm

/-- A header is never at address 0. -/
theorem Located.nonzero {m : Mem} {header : Word} (located : Located m header) : header ≠ 0#32 := by
  obtain ⟨k, bound, _, _, place⟩ := located
  rintro rfl
  have value := congrArg BitVec.toNat place
  rw [BitVec.toNat_add, BitVec.toNat_add, BitVec.toNat_ofNat] at value
  simp only [BitVec.toNat_ofNat, windowWords] at value bound
  omega

/-- The search finds the first match, and looks at the entries up to it. -/
theorem searchFrom_spec (m : Mem) (header name : Word) (remaining i : Nat) :
    (∃ j, (searchFrom m header name remaining i).1 = some j ∧ i ≤ j ∧ j < i + remaining ∧
        Equal m name (entryAddress header j) nameBytes ∧
        (∀ l, i ≤ l → l < j → ¬ Equal m name (entryAddress header l) nameBytes) ∧
        ∀ access, access ∈ (searchFrom m header name remaining i).2 ↔
          ∃ l, i ≤ l ∧ l ≤ j ∧ access = .entry l) ∨
      ((searchFrom m header name remaining i).1 = none ∧
        (∀ l, i ≤ l → l < i + remaining → ¬ Equal m name (entryAddress header l) nameBytes) ∧
        ∀ access, access ∈ (searchFrom m header name remaining i).2 ↔
          ∃ l, i ≤ l ∧ l < i + remaining ∧ access = .entry l) := by
  induction remaining generalizing i with
  | zero =>
      right
      refine ⟨rfl, fun l lower upper => by omega, fun access => ?_⟩
      simp only [searchFrom, List.not_mem_nil, false_iff]
      rintro ⟨l, lower, upper, _⟩
      omega
  | succ remaining ih =>
      rw [searchFrom]
      by_cases here : strncmp m name (entryAddress header i) nameBytes = 0
      · rw [if_pos here]
        left
        refine ⟨i, rfl, Nat.le_refl i, by omega, (strncmp_eq_zero_iff _ _ _ _).mp here,
          fun l lower upper => by omega, fun access => ?_⟩
        rw [List.mem_singleton]
        constructor
        · rintro rfl
          exact ⟨i, Nat.le_refl i, Nat.le_refl i, rfl⟩
        · rintro ⟨l, lower, upper, rfl⟩
          rw [Nat.le_antisymm upper lower]
      · rw [if_neg here]
        have differs : ¬ Equal m name (entryAddress header i) nameBytes :=
          fun equal => here ((strncmp_eq_zero_iff _ _ _ _).mpr equal)
        rcases ih (i + 1) with
          ⟨j, found, lower, upper, equal, before, visited⟩ | ⟨found, none, visited⟩
        · left
          refine ⟨j, found, by omega, by omega, equal, ?_, ?_⟩
          · intro l low high
            rcases Nat.eq_or_lt_of_le low with rfl | later
            · exact differs
            · exact before l later high
          · intro access
            simp only [List.mem_cons, visited]
            constructor
            · rintro (rfl | ⟨l, low, high, rfl⟩)
              · exact ⟨i, Nat.le_refl i, by omega, rfl⟩
              · exact ⟨l, by omega, high, rfl⟩
            · rintro ⟨l, low, high, rfl⟩
              rcases Nat.eq_or_lt_of_le low with rfl | later
              · exact .inl rfl
              · exact .inr ⟨l, later, high, rfl⟩
        · right
          refine ⟨found, ?_, ?_⟩
          · intro l low high
            rcases Nat.eq_or_lt_of_le low with rfl | later
            · exact differs
            · exact none l later (by omega)
          · intro access
            simp only [List.mem_cons, visited]
            constructor
            · rintro (rfl | ⟨l, low, high, rfl⟩)
              · exact ⟨i, Nat.le_refl i, by omega, rfl⟩
              · exact ⟨l, by omega, by omega, rfl⟩
            · rintro ⟨l, low, high, rfl⟩
              rcases Nat.eq_or_lt_of_le low with rfl | later
              · exact .inl rfl
              · exact .inr ⟨l, later, by omega, rfl⟩

/-- The static variables after an initialisation. -/
def settled (m : Mem) : State :=
  match findMagic m windowWords windowStart with
  | none => ⟨0#32, 0#32, true⟩
  | some buffer =>
      ⟨entryAddress (buffer - 4#32) (totalEntries m (buffer - 4#32)).toNat, buffer - 4#32, true⟩

theorem settled_initialized (m : Mem) : (settled m).initialized = true := by
  unfold settled
  split <;> rfl

theorem Located.settled_header {m : Mem} {header : Word} (located : Located m header) :
    (settled m).header = header := by
  rw [located_iff] at located
  rw [settled, located]
  exact BitVec.add_sub_cancel _ _

theorem settled_header_zero {m : Mem} (missing : ¬ ∃ header, Located m header) :
    (settled m).header = 0#32 := by
  unfold settled
  split
  · rfl
  · rename_i buffer found
    refine absurd ⟨buffer - 4#32, ?_⟩ missing
    rw [located_iff, found, BitVec.sub_add_cancel]

/-- Initialisation depends on the memory alone, once before any lookup and again. -/
theorem prshInit_settled (debug : Bool) (m : Mem) (s : State)
    (before : s = prshReset ∨ s = settled m) : (prshInit debug m s).1 = settled m := by
  have scanned : ∀ checked : State, checked.initialized = false →
      (match findMagic m windowWords windowStart with
        | none => ((⟨0#32, 0#32, true⟩ : State), ([] : List Access))
        | some buffer =>
            (⟨entryAddress (buffer - 4#32) (totalEntries m (buffer - 4#32)).toNat, buffer - 4#32,
              true⟩, [.header (buffer - 4#32)])).1 = settled m := by
    intro checked _
    unfold settled
    split <;> rfl
  rcases before with rfl | rfl
  · exact scanned prshReset rfl
  · have fresh := settled_initialized m
    unfold prshInit checkCorrupt
    by_cases present : (settled m).header = 0#32
    · simp only [present, ne_eq, not_true_eq_false, if_false, fresh, if_true]
    · by_cases corrupt : (totalEntries m (settled m).header).toNat > maxEntries
      · simp only [ne_eq, present, not_false_eq_true, if_true, corrupt, Bool.false_eq_true,
          if_false]
        exact scanned prshReset rfl
      · simp only [ne_eq, present, not_false_eq_true, if_true, corrupt, if_false, fresh]

/-- What a first initialisation looks at. -/
theorem prshInit_accesses (debug : Bool) (m : Mem) (access : Access) :
    access ∈ (prshInit debug m prshReset).2 ↔
      access = .header (settled m).header ∨ access ∈ listNames debug m (settled m).header := by
  unfold prshInit checkCorrupt settled
  simp only [prshReset, ne_eq, not_true_eq_false, if_false, Bool.false_eq_true]
  split
  · simp
  · simp

theorem listNames_mem (debug : Bool) (m : Mem) (header : Word) (access : Access) :
    access ∈ listNames debug m header ↔ debug = true ∧
      ∃ i < (entries m header).toNat, access = .text i (nameText m header i) := by
  unfold listNames
  cases debug with
  | false => simp
  | true =>
      simp only [if_true, List.mem_map, List.mem_range, true_and]
      constructor
      · rintro ⟨i, inside, rfl⟩
        exact ⟨i, inside, rfl⟩
      · rintro ⟨i, inside, rfl⟩
        exact ⟨i, inside, rfl⟩

section Result

variable (debug : Bool) (m : Mem) (s : State) (name : Word) (data size : Option Word)
  (before : s = prshReset ∨ s = settled m) (named : name ≠ 0#32)
include before

theorem prshGetEntry_state : (prshGetEntry debug m s name data size).state = settled m := by
  have state := prshInit_settled debug m s before
  simp only [prshGetEntry, state]
  split
  · rfl
  · split
    · rfl
    · split
      · rfl
      · split <;> rfl

include named

theorem prshGetEntry_missing (missing : ¬ ∃ header, Located m header) :
    let out := prshGetEntry debug m s name data size
    out.ret = -2 ∧ out.data = data ∧ out.size = size ∧ out.accesses = (prshInit debug m s).2 := by
  have state := prshInit_settled debug m s before
  have header := settled_header_zero missing
  simp only [prshGetEntry, state, if_neg named, header, if_true, and_self]

variable {header : Word} (located : Located m header)
include located

theorem prshGetEntry_corrupt (corrupt : maxEntries < (totalEntries m header).toNat) :
    let out := prshGetEntry debug m s name data size
    out.ret = -1 ∧ out.data = data ∧ out.size = size ∧
      out.accesses = (prshInit debug m s).2 ++ [.header header] := by
  have state := prshInit_settled debug m s before
  have nonzero := located.nonzero
  simp only [prshGetEntry, state, if_neg named, located.settled_header, if_neg nonzero,
    if_pos corrupt, and_self]

theorem prshGetEntry_found (sound : (totalEntries m header).toNat ≤ maxEntries) {i : Nat}
    (first : (searchFrom m header name (entries m header).toNat 0).1 = some i) :
    let out := prshGetEntry debug m s name data size
    out.ret = 0 ∧ out.data = data.map (fun _ => entryData m header i) ∧
      out.size = size.map (fun _ => entrySize m header i) ∧
      out.accesses = (prshInit debug m s).2 ++ [.header header] ++
        (searchFrom m header name (entries m header).toNat 0).2 := by
  have state := prshInit_settled debug m s before
  have nonzero := located.nonzero
  simp only [prshGetEntry, state, if_neg named, located.settled_header, if_neg nonzero,
    if_neg (Nat.not_lt.mpr sound), first, and_self]

theorem prshGetEntry_absent (sound : (totalEntries m header).toNat ≤ maxEntries)
    (absent : (searchFrom m header name (entries m header).toNat 0).1 = none) :
    let out := prshGetEntry debug m s name data size
    out.ret = -2 ∧ out.data = data ∧ out.size = size ∧
      out.accesses = (prshInit debug m s).2 ++ [.header header] ++
        (searchFrom m header name (entries m header).toNat 0).2 := by
  have state := prshInit_settled debug m s before
  have nonzero := located.nonzero
  simp only [prshGetEntry, state, if_neg named, located.settled_header, if_neg nonzero,
    if_neg (Nat.not_lt.mpr sound), absent, and_self]

end Result

/-- Whatever the table, the result is the specified one; only the accesses can be wrong. -/
theorem prshGetEntry_exact (debug : Bool) (m : Mem) (name : Word) (data size : Option Word)
    (named : name ≠ 0#32)
    (safe : ∀ access ∈ (prshGetEntry debug m prshReset name data size).accesses, access.Allowed m) :
    Exact m name data size (prshGetEntry debug m prshReset name data size) := by
  by_cases found : ∃ header, Located m header
  · obtain ⟨header, located⟩ := found
    have only : ∀ {other}, Located m other → other = header := fun other => located.unique other
    by_cases sound : (totalEntries m header).toNat ≤ maxEntries
    · rcases searchFrom_spec m header name (entries m header).toNat 0 with
        ⟨i, first, _, inside, equal, earlier, _⟩ | ⟨none, absent, _⟩
      · obtain ⟨ret, data', size', _⟩ := prshGetEntry_found debug m prshReset name data size
          (.inl rfl) named located sound first
        have used : Matches m header name i := ⟨by omega, equal⟩
        refine ⟨?_, ?_, fun rejected => absurd ret rejected, safe⟩
        · exact ⟨fun _ => ⟨header, located, sound, i, used⟩, fun _ => ret⟩
        · exact fun _ => ⟨header, i, located, used,
            fun j lower other => earlier j (Nat.zero_le j) lower other.2, data', size'⟩
      · obtain ⟨ret, data', size', _⟩ := prshGetEntry_absent debug m prshReset name data size
          (.inl rfl) named located sound none
        refine ⟨?_, fun zero => absurd (ret.symm.trans zero) (by decide),
          fun _ => ⟨by rw [ret]; decide, data', size'⟩, safe⟩
        constructor
        · exact fun zero => absurd (ret.symm.trans zero) (by decide)
        · rintro ⟨other, located', _, i, used⟩
          rw [only located'] at used
          exact absurd used.2 (absent i (Nat.zero_le i) (by have := used.1; omega))
    · obtain ⟨ret, data', size', _⟩ := prshGetEntry_corrupt debug m prshReset name data size
        (.inl rfl) named located (Nat.lt_of_not_le sound)
      refine ⟨?_, fun zero => absurd (ret.symm.trans zero) (by decide),
        fun _ => ⟨by rw [ret]; decide, data', size'⟩, safe⟩
      constructor
      · exact fun zero => absurd (ret.symm.trans zero) (by decide)
      · rintro ⟨other, located', sound', _⟩
        rw [only located'] at sound'
        exact absurd sound' sound
  · obtain ⟨ret, data', size', _⟩ := prshGetEntry_missing debug m prshReset name data size
      (.inl rfl) named found
    refine ⟨?_, fun zero => absurd (ret.symm.trans zero) (by decide),
      fun _ => ⟨by rw [ret]; decide, data', size'⟩, safe⟩
    constructor
    · exact fun zero => absurd (ret.symm.trans zero) (by decide)
    · rintro ⟨header, located, _⟩
      exact absurd ⟨header, located⟩ found

/-- The lookup is exact and safe exactly for orderly tables. -/
theorem prshGetEntry_exact_iff (debug : Bool) (m : Mem) (name : Word) (data size : Option Word)
    (named : name ≠ 0#32) :
    Exact m name data size (prshGetEntry debug m prshReset name data size) ↔
      Orderly debug m name := by
  have visible : ∀ access, access ∈ (prshInit debug m prshReset).2 →
      access ∈ (prshGetEntry debug m prshReset name data size).accesses := by
    intro access member
    by_cases found : ∃ header, Located m header
    · obtain ⟨header, located⟩ := found
      by_cases sound : (totalEntries m header).toNat ≤ maxEntries
      · cases result : (searchFrom m header name (entries m header).toNat 0).1 with
        | some i =>
            rw [(prshGetEntry_found debug m prshReset name data size (.inl rfl) named located sound
              result).2.2.2]
            simp [member]
        | none =>
            rw [(prshGetEntry_absent debug m prshReset name data size (.inl rfl) named located sound
              result).2.2.2]
            simp [member]
      · rw [(prshGetEntry_corrupt debug m prshReset name data size (.inl rfl) named located
          (Nat.lt_of_not_le sound)).2.2.2]
        simp [member]
    · rwa [(prshGetEntry_missing debug m prshReset name data size (.inl rfl) named found).2.2.2]
  constructor
  · intro exact
    have headerRead := exact.safe _ (visible _ ((prshInit_accesses debug m _).mpr (.inl rfl)))
    by_cases found : ∃ header, Located m header
    · obtain ⟨header, located⟩ := found
      refine ⟨header, located, ?_, ?_⟩
      · intro enabled i inside
        have listed :
            Access.text i (nameText m header i) ∈ listNames debug m (settled m).header := by
          rw [located.settled_header]
          exact (listNames_mem debug m header _).mpr ⟨enabled, i, inside, rfl⟩
        obtain ⟨other, located', within⟩ :=
          exact.safe _ (visible _ ((prshInit_accesses debug m _).mpr (.inr listed)))
        rwa [located.unique located'] at within
      · intro sound beyond
        rcases searchFrom_spec m header name (entries m header).toNat 0 with
          ⟨i, first, _, inside, equal, _, visited⟩ | ⟨none, _, visited⟩
        · have accesses := (prshGetEntry_found debug m prshReset name data size (.inl rfl) named
            located sound first).2.2.2
          have last := (visited (.entry i)).mpr ⟨i, Nat.zero_le i, Nat.le_refl i, rfl⟩
          obtain ⟨other, located', within⟩ := exact.safe (.entry i) (by rw [accesses]; simp [last])
          rw [located.unique located'] at within
          exact ⟨i, within, by omega, equal⟩
        · have accesses := (prshGetEntry_absent debug m prshReset name data size (.inl rfl) named
            located sound none).2.2.2
          have beyondRead := (visited (.entry (totalEntries m header).toNat)).mpr
            ⟨_, Nat.zero_le _, by omega, rfl⟩
          obtain ⟨other, located', within⟩ :=
            exact.safe (.entry (totalEntries m header).toNat) (by rw [accesses]; simp [beyondRead])
          rw [located.unique located'] at within
          exact absurd within (Nat.lt_irrefl _)
    · exact absurd (settled_header_zero found) headerRead
  · rintro ⟨header, located, names, stops⟩
    apply prshGetEntry_exact debug m name data size named
    have initial : ∀ access ∈ (prshInit debug m prshReset).2, access.Allowed m := by
      intro access member
      rcases (prshInit_accesses debug m access).mp member with rfl | listed
      · rw [located.settled_header]
        exact located.nonzero
      · rw [located.settled_header] at listed
        obtain ⟨enabled, i, inside, rfl⟩ := (listNames_mem debug m header access).mp listed
        exact ⟨header, located, names enabled i inside⟩
    by_cases sound : (totalEntries m header).toNat ≤ maxEntries
    · rcases searchFrom_spec m header name (entries m header).toNat 0 with
        ⟨i, first, _, inside, equal, earlier, visited⟩ | ⟨none, absent, visited⟩
      · have accesses := (prshGetEntry_found debug m prshReset name data size (.inl rfl) named
          located sound first).2.2.2
        have bound : i < (totalEntries m header).toNat := by
          by_cases beyond : (totalEntries m header).toNat < (entries m header).toNat
          · obtain ⟨j, within, used⟩ := stops sound beyond
            by_cases later : i ≤ j
            · omega
            · exact absurd used.2 (earlier j (Nat.zero_le j) (by omega))
          · omega
        intro access member
        rw [accesses, List.mem_append, List.mem_append, List.mem_singleton, visited] at member
        rcases member with (member | rfl) | ⟨l, _, upper, rfl⟩
        · exact initial access member
        · exact located.nonzero
        · exact ⟨header, located, by omega⟩
      · have accesses := (prshGetEntry_absent debug m prshReset name data size (.inl rfl) named
          located sound none).2.2.2
        have bound : (entries m header).toNat ≤ (totalEntries m header).toNat := by
          by_cases beyond : (totalEntries m header).toNat < (entries m header).toNat
          · obtain ⟨j, _, used⟩ := stops sound beyond
            exact absurd used.2 (absent j (Nat.zero_le j) (by have := used.1; omega))
          · omega
        intro access member
        rw [accesses, List.mem_append, List.mem_append, List.mem_singleton, visited] at member
        rcases member with (member | rfl) | ⟨l, _, upper, rfl⟩
        · exact initial access member
        · exact located.nonzero
        · exact ⟨header, located, by omega⟩
    · have accesses := (prshGetEntry_corrupt debug m prshReset name data size (.inl rfl) named
        located (Nat.lt_of_not_le sound)).2.2.2
      intro access member
      rw [accesses, List.mem_append, List.mem_singleton] at member
      rcases member with member | rfl
      · exact initial access member
      · exact located.nonzero

/-- A table with one entry, `otp`, and the name that is looked up -/
def sampleMem : Mem :=
  let m := writeWords (fun _ => 0#8) 0x100003FC#32 [0#32, magic, 0#32, 0#32, 0#32, 1#32, 1#32]
  let m := store m (entryAddress 0x100003FC#32 0) [0x6F#8, 0x74#8, 0x70#8]
  let m := writeWords m (entryAddress 0x100003FC#32 0 + 0x100#32) [0x08000000#32, 0x400#32]
  store m 0x08001000#32 [0x6F#8, 0x74#8, 0x70#8]

theorem sampleMem_orderly : Orderly true sampleMem 0x08001000#32 := by
  refine ⟨0x100003FC#32, ⟨0, by decide, by decide, nofun, by decide⟩, ?_, ?_⟩
  · intro _ i inside
    have one : (entries sampleMem 0x100003FC#32).toNat = 1 := by decide
    obtain rfl : i = 0 := by omega
    decide +kernel
  · intro _ beyond
    exact absurd beyond (by decide)

theorem prshGetEntry_exact_iff_sample :
    Exact sampleMem 0x08001000#32 (some 0#32) (some 0#32)
      (prshGetEntry true sampleMem prshReset 0x08001000#32 (some 0#32) (some 0#32)) :=
  (prshGetEntry_exact_iff true sampleMem 0x08001000#32 (some 0#32) (some 0#32) (by decide)).mpr
    sampleMem_orderly

/-- Without a header its `entries` field is still read. -/
theorem prshGetEntry_reads_null :
    ¬ Exact (fun _ => 0#8) 0x08000000 none none
      (prshGetEntry false (fun _ => 0#8) prshReset 0x08000000 none none) := by
  intro exact
  have missing : ¬ ∃ header, Located (fun _ => 0#8) header := by
    rintro ⟨header, k, _, found, _⟩
    have zero : read32 (fun _ => 0#8) (windowStart + BitVec.ofNat 32 (4 * k)) = 0#32 := by
      simp [read32, read16]
    exact absurd (zero.symm.trans found) (by decide)
  have accesses := (prshGetEntry_missing false (fun _ => 0#8) prshReset 0x08000000 none none
    (.inl rfl) (by decide) missing).2.2.2
  have read : Access.header (settled fun _ => 0#8).header ∈
      (prshGetEntry false (fun _ => 0#8) prshReset 0x08000000 none none).accesses := by
    rw [accesses]
    exact (prshInit_accesses false _ _).mpr (.inl rfl)
  exact exact.safe _ read (settled_header_zero missing)

end Stroopwafel.Prsh
