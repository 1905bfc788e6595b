import Stroopwafel.Memory

set_option autoImplicit false

/- C strings in memory, and the library functions on them. -/
namespace CString

open Memory

def chars (text : List Char) : List Byte := text.map fun c => BitVec.ofNat 8 c.toNat

/-- The characters `s` and a terminator stand at `a`. -/
structure Str (m : Mem) (a : Word) (s : List Byte) : Prop where
  char : ∀ i, (inside : i < s.length) → m (a + BitVec.ofNat 32 i) = s[i]
  terminated : m (a + BitVec.ofNat 32 s.length) = 0#8
  nonzero : 0#8 ∉ s
  bound : s.length < 2 ^ 32

/-- The count of characters before the terminator, of `fuel` at most. -/
def strlen (m : Mem) (a : Word) : Nat → Nat
  | 0 => 0
  | fuel + 1 => if m a = 0#8 then 0 else 1 + strlen m (a + 1#32) fuel

def strncmp (m : Mem) (a b : Word) : Nat → Int
  | 0 => 0
  | n + 1 =>
      if m a ≠ m b then ((m a).toNat : Int) - (m b).toNat
      else if m a = 0#8 then 0
      else strncmp m (a + 1#32) (b + 1#32) n

def fillZero (m : Mem) (a : Word) : Nat → Mem
  | 0 => m
  | n + 1 => fillZero (store m a [0#8]) (a + 1#32) n

/-- One character after the other; the rest of the `n` bytes is filled with zero. -/
def strncpy (m : Mem) (dst src : Word) : Nat → Mem
  | 0 => m
  | n + 1 =>
      if m src = 0#8 then fillZero m dst (n + 1)
      else strncpy (store m dst [m src]) (dst + 1#32) (src + 1#32) n

/-- `strcpy` of a literal. -/
def strcpy (m : Mem) (dst : Word) (s : List Byte) : Mem := store m dst (s ++ [0#8])

/-- The last place of `c` among `fuel` bytes or up to the terminator, or else `last`. -/
def strrchrFrom (m : Mem) (c : Byte) : Nat → Word → Option Word → Option Word
  | 0, _, last => last
  | fuel + 1, a, last =>
      let last := if m a = c then some a else last
      if m a = 0#8 then last else strrchrFrom m c fuel (a + 1#32) last

def strrchr (m : Mem) (a : Word) (c : Byte) : Option Word := strrchrFrom m c (2 ^ 32) a none

/-- Both strings have the same first `n` bytes, or the same bytes up to a terminator. -/
def Equal (m : Mem) (a b : Word) (n : Nat) : Prop :=
  ∃ k ≤ n, (∀ i < k, m (a + BitVec.ofNat 32 i) = m (b + BitVec.ofNat 32 i) ∧
      m (a + BitVec.ofNat 32 i) ≠ 0#8) ∧
    (k = n ∨ m (a + BitVec.ofNat 32 k) = 0#8 ∧ m (b + BitVec.ofNat 32 k) = 0#8)

theorem succ_offset (a : Word) (i : Nat) :
    a + 1#32 + BitVec.ofNat 32 i = a + BitVec.ofNat 32 (i + 1) := by
  rw [show (1#32 : Word) = BitVec.ofNat 32 1 from rfl, ofNat_add_ofNat, Nat.add_comm]

theorem equal_succ (m : Mem) (a b : Word) (n : Nat) :
    Equal m a b (n + 1) ↔ m a = m b ∧ (m a = 0#8 ∨ Equal m (a + 1#32) (b + 1#32) n) := by
  constructor
  · rintro ⟨k, bound, same, ends⟩
    cases k with
    | zero =>
        simp only [BitVec.add_zero] at ends
        rcases ends with full | ⟨first, second⟩
        · omega
        · exact ⟨first.trans second.symm, .inl first⟩
    | succ k =>
        have first := (same 0 (by omega)).1
        simp only [BitVec.add_zero] at first
        refine ⟨first, .inr ⟨k, by omega, ?_, ?_⟩⟩
        · intro i inside
          rw [succ_offset, succ_offset]
          exact same (i + 1) (by omega)
        · rw [succ_offset, succ_offset]
          exact ends.imp (fun full => by omega) id
  · rintro ⟨same, zero | ⟨k, bound, rest, ends⟩⟩
    · refine ⟨0, by omega, fun i inside => absurd inside (Nat.not_lt_zero i), .inr ?_⟩
      simp only [BitVec.add_zero]
      exact ⟨zero, same.symm.trans zero⟩
    · by_cases zero : m a = 0#8
      · refine ⟨0, by omega, fun i inside => absurd inside (Nat.not_lt_zero i), .inr ?_⟩
        simp only [BitVec.add_zero]
        exact ⟨zero, same.symm.trans zero⟩
      · refine ⟨k + 1, by omega, ?_, ?_⟩
        · intro i inside
          cases i with
          | zero =>
              simp only [BitVec.add_zero]
              exact ⟨same, zero⟩
          | succ i =>
              rw [← succ_offset a i, ← succ_offset b i]
              exact rest i (by omega)
        · rw [succ_offset, succ_offset] at ends
          exact ends.imp (fun full => by omega) id

theorem strncmp_eq_zero_iff (m : Mem) (a b : Word) (n : Nat) :
    strncmp m a b n = 0 ↔ Equal m a b n := by
  induction n generalizing a b with
  | zero =>
      simp only [strncmp, true_iff]
      exact ⟨0, Nat.le_refl 0, fun i inside => absurd inside (Nat.not_lt_zero i), .inl rfl⟩
  | succ n ih =>
      rw [strncmp, equal_succ]
      by_cases same : m a = m b
      · rw [if_neg (by simp [same])]
        by_cases zero : m a = 0#8
        · simp [same, ← zero]
        · rw [if_neg zero, ih]
          simp only [same, true_and]
          rw [same] at zero
          simp only [zero, false_or]
      · rw [if_pos same]
        have values : (m a).toNat ≠ (m b).toNat := fun equal => same (BitVec.eq_of_toNat_eq equal)
        simp only [same, false_and, iff_false]
        omega

section Copy

variable (m : Mem)

theorem store_byte (a x : Word) (v : Byte) : store m a [v] x = if x = a then v else m x := by
  by_cases here : x = a
  · subst here
    have inside := store_inside m x [v] 0 (by simp) (by simp)
    simp only [BitVec.add_zero] at inside
    rw [inside, if_pos rfl]
    rfl
  · rw [if_neg here]
    apply store_outside
    have distance : (x - a).toNat ≠ 0 := by
      intro zero
      apply here
      bv_omega
    simp only [List.length_cons, List.length_nil]
    omega

/-- An address that is none of the `n` from `a` on. -/
theorem fillZero_outside (a x : Word) (n : Nat) (outside : ∀ i < n, x ≠ a + BitVec.ofNat 32 i) :
    fillZero m a n x = m x := by
  induction n generalizing m a with
  | zero => rfl
  | succ n ih =>
      have first := outside 0 (by omega)
      rw [BitVec.add_zero] at first
      rw [fillZero, ih, store_byte, if_neg first]
      intro i inside
      rw [succ_offset]
      exact outside (i + 1) (by omega)

theorem fillZero_inside (a : Word) (n i : Nat) (inside : i < n) (bound : n ≤ 2 ^ 32) :
    fillZero m a n (a + BitVec.ofNat 32 i) = 0#8 := by
  induction n generalizing m a i with
  | zero => exact absurd inside (Nat.not_lt_zero i)
  | succ n ih =>
      rw [fillZero]
      cases i with
      | zero =>
          rw [BitVec.add_zero, fillZero_outside, store_byte, if_pos rfl]
          intro j later
          bv_omega
      | succ i =>
          rw [← succ_offset a i]
          exact ih _ _ i (by omega) (by omega)

theorem strncpy_outside (dst src x : Word) (n : Nat)
    (outside : ∀ i < n, x ≠ dst + BitVec.ofNat 32 i) : strncpy m dst src n x = m x := by
  induction n generalizing m dst src with
  | zero => rfl
  | succ n ih =>
      rw [strncpy]
      split
      · exact fillZero_outside m dst x (n + 1) outside
      · have first := outside 0 (by omega)
        rw [BitVec.add_zero] at first
        rw [ih, store_byte, if_neg first]
        intro i inside
        rw [succ_offset]
        exact outside (i + 1) (by omega)

/-- The first `k` characters are copied, whatever the bytes behind them are. -/
theorem strncpy_copied (dst src : Word) (n k : Nat) (fewer : k ≤ n) (bound : n ≤ 2 ^ 32)
    (apart : Apart src k dst k) (nonzero : ∀ i < k, m (src + BitVec.ofNat 32 i) ≠ 0#8) (i : Nat)
    (inside : i < k) :
    strncpy m dst src n (dst + BitVec.ofNat 32 i) = m (src + BitVec.ofNat 32 i) := by
  induction k generalizing m dst src n i with
  | zero => exact absurd inside (Nat.not_lt_zero i)
  | succ k ih =>
      obtain ⟨n, rfl⟩ := Nat.exists_eq_add_of_le' (show 1 ≤ n by omega)
      have first := nonzero 0 (by omega)
      rw [BitVec.add_zero] at first
      rw [strncpy, if_neg first]
      cases i with
      | zero =>
          rw [BitVec.add_zero, BitVec.add_zero, strncpy_outside, store_byte, if_pos rfl]
          intro j later
          bv_omega
      | succ i =>
          have kept : ∀ j < k, store m dst [m src] (src + 1#32 + BitVec.ofNat 32 j) =
              m (src + 1#32 + BitVec.ofNat 32 j) := by
            intro j later
            rw [store_byte, if_neg]
            have distinct := apart (j + 1) (by omega) 0 (by omega)
            rwa [BitVec.add_zero, ← succ_offset src j] at distinct
          rw [← succ_offset dst i, ← succ_offset src i,
            ih _ _ _ n (by omega) (by omega) _ _ i (by omega), kept i (by omega)]
          · intro j later k' later'
            rw [succ_offset, succ_offset]
            exact apart (j + 1) (by omega) (k' + 1) (by omega)
          · intro j later
            rw [kept j later, succ_offset]
            exact nonzero (j + 1) (by omega)

/-- A whole string: its characters, and zero behind them. -/
theorem strncpy_str (dst src : Word) (n : Nat) (s : List Byte) (str : Str m src s)
    (bound : n ≤ 2 ^ 32) (apart : Apart src (s.length + 1) dst n) (i : Nat) (inside : i < n) :
    strncpy m dst src n (dst + BitVec.ofNat 32 i) = s.getD i 0#8 := by
  induction s generalizing m dst src n i with
  | nil =>
      obtain ⟨n, rfl⟩ := Nat.exists_eq_add_of_le' (show 1 ≤ n by omega)
      have zero := str.terminated
      rw [List.length_nil, BitVec.add_zero] at zero
      rw [strncpy, if_pos zero, fillZero_inside m dst (n + 1) i inside bound]
      rfl
  | cons c rest ih =>
      obtain ⟨n, rfl⟩ := Nat.exists_eq_add_of_le' (show 1 ≤ n by omega)
      have first := str.char 0 (by simp)
      rw [BitVec.add_zero, List.getElem_cons_zero] at first
      have nonzero : c ≠ 0#8 := fun zero => str.nonzero (by simp [zero])
      rw [strncpy, if_neg (by rwa [first]), first]
      cases i with
      | zero =>
          rw [BitVec.add_zero, strncpy_outside, store_byte, if_pos rfl]
          · rfl
          · intro j later
            bv_omega
      | succ i =>
          have kept : ∀ j ≤ rest.length, store m dst [c] (src + 1#32 + BitVec.ofNat 32 j) =
              m (src + BitVec.ofNat 32 (j + 1)) := by
            intro j later
            rw [store_byte, if_neg, succ_offset]
            have distinct := apart (j + 1) (by rw [List.length_cons]; omega) 0 (by omega)
            rwa [BitVec.add_zero, ← succ_offset src j] at distinct
          have length := str.bound
          rw [List.length_cons] at length
          have tail : Str (store m dst [c]) (src + 1#32) rest := by
            refine ⟨?_, ?_, fun member => str.nonzero (by simp [member]), by omega⟩
            · intro j later
              rw [kept j (by omega), str.char (j + 1) (by rw [List.length_cons]; omega)]
              rfl
            · rw [kept _ (Nat.le_refl _)]
              exact str.terminated
          rw [← succ_offset dst i, ih _ _ _ n tail (by omega) _ i (by omega)]
          · rfl
          · intro j later k' later'
            rw [succ_offset, succ_offset]
            exact apart (j + 1) (by rw [List.length_cons]; omega) (k' + 1) (by omega)

end Copy

section Search

variable {m : Mem} {c : Byte}

theorem Str.empty {a : Word} (zero : m a = 0#8) : Str m a [] where
  char i inside := absurd inside (Nat.not_lt_zero i)
  terminated := by rw [List.length_nil, BitVec.add_zero, zero]
  nonzero := List.not_mem_nil
  bound := Nat.two_pow_pos 32

theorem Str.tail {a : Word} {d : Byte} {s : List Byte} (str : Str m a (d :: s)) :
    Str m (a + 1#32) s where
  char i inside := by
    rw [succ_offset, str.char (i + 1) (by rw [List.length_cons]; omega)]
    rfl
  terminated := by
    rw [succ_offset]
    exact str.terminated
  nonzero member := str.nonzero (by simp [member])
  bound := by
    have length := str.bound
    rw [List.length_cons] at length
    omega

theorem Str.head {a : Word} {d : Byte} {s : List Byte} (str : Str m a (d :: s)) :
    m a = d ∧ d ≠ 0#8 := by
  have first := str.char 0 (by simp)
  rw [BitVec.add_zero, List.getElem_cons_zero] at first
  exact ⟨first, fun zero => str.nonzero (by simp [zero])⟩

/-- The end of a string is a string. -/
theorem Str.drop {a : Word} (front : List Byte) {back : List Byte} (str : Str m a (front ++ back)) :
    Str m (a + BitVec.ofNat 32 front.length) back := by
  induction front generalizing a with
  | nil => rwa [List.length_nil, BitVec.add_zero]
  | cons d rest ih =>
      have tail := ih (Str.tail str)
      rwa [succ_offset] at tail

/-- The bytes of the string alone decide that it is there. -/
theorem Str.congr {m' : Mem} {a : Word} {s : List Byte} (str : Str m a s)
    (same : ∀ i ≤ s.length, m' (a + BitVec.ofNat 32 i) = m (a + BitVec.ofNat 32 i)) :
    Str m' a s where
  char i inside := (same i (Nat.le_of_lt inside)).trans (str.char i inside)
  terminated := (same _ (Nat.le_refl _)).trans str.terminated
  nonzero := str.nonzero
  bound := str.bound

theorem Str.char_nonzero {a : Word} {s : List Byte} (str : Str m a s) (i : Nat)
    (inside : i < s.length) : m (a + BitVec.ofNat 32 i) ≠ 0#8 := by
  rw [str.char i inside]
  exact fun zero => str.nonzero (zero ▸ List.getElem_mem inside)

/-- Two strings of one length do not overlap, unless they are at one address. -/
theorem Str.apart {a b : Word} {s s' : List Byte} (str : Str m a s) (str' : Str m b s')
    (length : s'.length = s.length) (other : a ≠ b) :
    Apart a (s.length + 1) b (s.length + 1) := by
  -- the terminator of one would be a character of the other
  have ordered : ∀ {a b : Word} {s s' : List Byte}, Str m a s → Str m b s' →
      s'.length = s.length → a ≠ b → ∀ i j, i ≤ j → j ≤ s.length →
      a + BitVec.ofNat 32 i ≠ b + BitVec.ofNat 32 j := by
    intro a b s s' str str' length other i j order inside same
    obtain ⟨d, rfl⟩ := Nat.exists_eq_add_of_le order
    have shift : a = b + BitVec.ofNat 32 d := by bv_omega
    have distance : d ≠ 0 := by
      intro zero
      rw [zero, BitVec.add_zero] at shift
      exact other shift
    have end' : a + BitVec.ofNat 32 (s.length - d) = b + BitVec.ofNat 32 s'.length := by
      rw [shift, ofNat_add_ofNat]
      congr 2
      omega
    apply str.char_nonzero (s.length - d) (by omega)
    rw [end']
    exact str'.terminated
  intro i inside j inside'
  rcases Nat.le_total i j with order | order
  · exact ordered str str' length other i j order (by omega)
  · exact (ordered str' str length.symm other.symm j i order (by omega)).symm

/-- One string stands at an address. -/
theorem Str.unique {a : Word} {s s' : List Byte} (str : Str m a s) (str' : Str m a s') :
    s = s' := by
  induction s generalizing a s' with
  | nil =>
      cases s' with
      | nil => rfl
      | cons d rest =>
          have zero := str.terminated
          rw [List.length_nil, BitVec.add_zero] at zero
          obtain ⟨first, nonzero⟩ := Str.head str'
          exact absurd (first.symm.trans zero) nonzero
  | cons c rest ih =>
      obtain ⟨first, nonzero⟩ := Str.head str
      cases s' with
      | nil =>
          have zero := str'.terminated
          rw [List.length_nil, BitVec.add_zero] at zero
          exact absurd (first.symm.trans zero) nonzero
      | cons d rest' =>
          rw [← first, ← (Str.head str').1, ih (Str.tail str) (Str.tail str')]

/-- Whole strings compare equal exactly when they are the same. -/
theorem strncmp_str_iff {a b : Word} {s s' : List Byte} (str : Str m a s) (str' : Str m b s') :
    strncmp m a b (2 ^ 32) = 0 ↔ s = s' := by
  have counted : ∀ n, s.length < n → (strncmp m a b n = 0 ↔ s = s') := by
    induction s generalizing a b s' with
    | nil =>
        intro n long
        obtain ⟨n, rfl⟩ := Nat.exists_eq_add_of_le' (show 1 ≤ n from long)
        have zero := str.terminated
        rw [List.length_nil, BitVec.add_zero] at zero
        cases s' with
        | nil =>
            have zero' := str'.terminated
            rw [List.length_nil, BitVec.add_zero] at zero'
            simp [strncmp, zero, zero']
        | cons d rest =>
            obtain ⟨first, nonzero⟩ := Str.head str'
            rw [strncmp_eq_zero_iff, equal_succ, zero, first]
            simp [Ne.symm nonzero]
    | cons c rest ih =>
        intro n long
        obtain ⟨n, rfl⟩ := Nat.exists_eq_add_of_le' (show 1 ≤ n by omega)
        rw [List.length_cons] at long
        obtain ⟨first, nonzero⟩ := Str.head str
        cases s' with
        | nil =>
            have zero := str'.terminated
            rw [List.length_nil, BitVec.add_zero] at zero
            rw [strncmp_eq_zero_iff, equal_succ, zero, first]
            simp [nonzero]
        | cons d rest' =>
            rw [strncmp_eq_zero_iff, equal_succ, ← strncmp_eq_zero_iff, first, (Str.head str').1,
              ih (Str.tail str) (Str.tail str') n (by omega), List.cons.injEq]
            simp [nonzero]
  exact counted _ str.bound

/-- `memcmp` with a literal, its terminator included. -/
theorem load_eq_iff_str (a : Word) (s : List Byte) (nonzero : 0#8 ∉ s) (bound : s.length < 2 ^ 32) :
    load m a (s.length + 1) = s ++ [0#8] ↔ Str m a s := by
  constructor
  · intro same
    have byte : ∀ i < s.length + 1, some (m (a + BitVec.ofNat 32 i)) = (s ++ [0#8])[i]? := by
      intro i inside
      rw [← same, List.getElem?_eq_getElem (by rwa [load_length]), load_getElem]
    refine ⟨?_, ?_, nonzero, bound⟩
    · intro i inside
      have char := byte i (by omega)
      rw [List.getElem?_append_left inside, List.getElem?_eq_getElem inside] at char
      exact Option.some.inj char
    · have last := byte s.length (by omega)
      rw [List.getElem?_concat_length] at last
      exact Option.some.inj last
  · intro str
    apply List.ext_getElem
    · simp
    · intro i _ inside
      rw [load_getElem]
      by_cases char : i < s.length
      · rw [List.getElem_append_left char]
        exact str.char i char
      · have last : i = s.length := by
          rw [List.length_append, List.length_singleton] at inside
          omega
        subst last
        rw [str.terminated]
        simp

/-- A string that was copied stands at its new place. -/
theorem strcpy_str (m : Mem) (dst : Word) (s : List Byte) (nonzero : 0#8 ∉ s)
    (bound : s.length < 2 ^ 32) : Str (strcpy m dst s) dst s := by
  refine ⟨?_, ?_, nonzero, bound⟩
  · intro i inside
    rw [strcpy, store_inside m dst _ i (by rw [List.length_append]; omega)
      (by rw [List.length_append]; exact bound), List.getElem_append_left inside]
  · rw [strcpy, store_inside m dst _ _ (by simp) (by rw [List.length_append]; exact bound)]
    simp

/-- A comparison with a string does not depend on where the string stands. -/
theorem strncmp_congr {m' : Mem} {a a' : Word} {s : List Byte} (str : Str m a s)
    (str' : Str m' a' s) (b : Word) (n : Nat)
    (same : ∀ i < n, m' (b + BitVec.ofNat 32 i) = m (b + BitVec.ofNat 32 i)) :
    strncmp m' a' b n = strncmp m a b n := by
  induction n generalizing s a a' b with
  | zero => rfl
  | succ n ih =>
      have here := same 0 (by omega)
      rw [BitVec.add_zero] at here
      rw [strncmp, strncmp, here]
      cases s with
      | nil =>
          have zero := str.terminated
          have zero' := str'.terminated
          rw [List.length_nil, BitVec.add_zero] at zero zero'
          simp only [zero, zero', if_true]
      | cons d rest =>
          obtain ⟨first, nonzero⟩ := Str.head str
          obtain ⟨first', _⟩ := Str.head str'
          rw [first, first', if_neg nonzero, if_neg nonzero,
            ih (Str.tail str) (Str.tail str') (b + 1#32)]
          intro i inside
          rw [succ_offset]
          exact same (i + 1) (by omega)

theorem strrchrFrom_absent (character : c ≠ 0#8) (a : Word) (s : List Byte) (str : Str m a s)
    (fuel : Nat) (enough : s.length < fuel) (last : Option Word) (absent : c ∉ s) :
    strrchrFrom m c fuel a last = last := by
  induction s generalizing a fuel last with
  | nil =>
      obtain ⟨fuel, rfl⟩ := Nat.exists_eq_add_of_le' (show 1 ≤ fuel by omega)
      have zero := str.terminated
      rw [List.length_nil, BitVec.add_zero] at zero
      simp only [strrchrFrom, zero, character.symm, if_false, if_true]
  | cons d rest ih =>
      obtain ⟨fuel, rfl⟩ := Nat.exists_eq_add_of_le' (show 1 ≤ fuel by omega)
      obtain ⟨first, nonzero⟩ := str.head
      rw [List.mem_cons, not_or] at absent
      rw [List.length_cons] at enough
      simp only [strrchrFrom, first, Ne.symm absent.1, nonzero, if_false]
      exact ih _ str.tail fuel (by omega) last absent.2

theorem strrchrFrom_last (character : c ≠ 0#8) (a : Word) (dir base : List Byte)
    (str : Str m a (dir ++ c :: base)) (fuel : Nat) (enough : (dir ++ c :: base).length < fuel)
    (last : Option Word) (absent : c ∉ base) :
    strrchrFrom m c fuel a last = some (a + BitVec.ofNat 32 dir.length) := by
  induction dir generalizing a fuel last with
  | nil =>
      obtain ⟨fuel, rfl⟩ := Nat.exists_eq_add_of_le' (show 1 ≤ fuel by omega)
      obtain ⟨first, nonzero⟩ := Str.head str
      simp only [List.nil_append, List.length_cons] at enough
      simp only [strrchrFrom, first, nonzero, if_true, if_false]
      rw [strrchrFrom_absent character _ base (Str.tail str) fuel (by omega) _ absent,
        List.length_nil, BitVec.add_zero]
  | cons d rest ih =>
      obtain ⟨fuel, rfl⟩ := Nat.exists_eq_add_of_le' (show 1 ≤ fuel by omega)
      obtain ⟨first, nonzero⟩ := Str.head str
      simp only [List.cons_append, List.length_cons] at enough
      simp only [strrchrFrom, first, nonzero, if_false]
      rw [ih _ (Str.tail str) fuel (by omega), succ_offset, List.length_cons]

theorem strrchr_absent (character : c ≠ 0#8) (a : Word) (s : List Byte) (str : Str m a s)
    (absent : c ∉ s) : strrchr m a c = none :=
  strrchrFrom_absent character a s str _ str.bound none absent

theorem strrchr_last (character : c ≠ 0#8) (a : Word) (dir base : List Byte)
    (str : Str m a (dir ++ c :: base)) (absent : c ∉ base) :
    strrchr m a c = some (a + BitVec.ofNat 32 dir.length) :=
  strrchrFrom_last character a dir base str _ str.bound none absent

end Search

end CString
