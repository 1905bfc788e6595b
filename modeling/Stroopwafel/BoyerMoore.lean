import Stroopwafel.Loops
import Stroopwafel.Matching
import Stroopwafel.Memory

set_option autoImplicit false

namespace Stroopwafel.BoyerMoore

open Memory Matching

section Model

/-- Overflow of a signed `int` is not defined. -/
def int (x : Int) : Option Int := if -2 ^ 31 ≤ x ∧ x < 2 ^ 31 then some x else none

/-- A read outside of the buffer fails. -/
def at8 (b : List Byte) (i : Int) : Option Byte := if 0 ≤ i then b[i.toNat]? else none

def set {ι : Type} [DecidableEq ι] (table : ι → Int) (i : ι) (x : Int) : ι → Int :=
  fun k => if k = i then x else table k

def makeDelta1 (pat : List Byte) : Option (Byte → Int) :=
  (List.range (pat.length - 1)).foldlM (fun delta1 (i : Nat) => do
    let c ← at8 pat i
    return set delta1 c (pat.length - 1 - i)) fun _ => pat.length

/-- The loop of `is_prefix` from `i` on, with `n` rounds left. -/
def isPrefixLoop (word : List Byte) (pos : Nat) : Nat → Nat → Option Bool
  | 0, _ => some true
  | n + 1, i => do
      let a ← at8 word i
      let b ← at8 word (pos + i)
      if a ≠ b then return false else isPrefixLoop word pos n (i + 1)

def isPrefix (word : List Byte) (pos : Nat) : Option Bool :=
  isPrefixLoop word pos (word.length - pos) 0

def suffixLengthLoop (word : List Byte) (pos : Nat) : Nat → Nat → Option Nat
  | 0, _ => none
  | fuel + 1, i => do
      let a ← at8 word (pos - i)
      let b ← at8 word (word.length - 1 - i)
      if a = b ∧ i < pos then suffixLengthLoop word pos fuel (i + 1) else return i

def suffixLength (word : List Byte) (pos : Nat) : Option Nat :=
  suffixLengthLoop word pos (pos + 1) 0

/-- A round of the first loop of `make_delta2`, on `last_prefix_index` and `delta2`. -/
def delta2First (pat : List Byte) (state : Int × (Nat → Int)) (p : Nat) :
    Option (Int × (Nat → Int)) := do
  let lastPrefixIndex := if ← isPrefix pat (p + 1) then (p + 1 : Int) else state.1
  let entry ← int (lastPrefixIndex + (pat.length - 1 - p))
  return (lastPrefixIndex, set state.2 p entry)

def delta2Second (pat : List Byte) (delta2 : Nat → Int) (p : Nat) : Option (Nat → Int) := do
  let slen ← suffixLength pat p
  let a ← at8 pat (p - slen)
  let b ← at8 pat (pat.length - 1 - slen)
  if a ≠ b then do
    let entry ← int (pat.length - 1 - p + slen)
    return set delta2 (pat.length - 1 - slen) entry
  else return delta2

def makeDelta2 (pat : List Byte) : Option (Nat → Int) := do
  let (_, delta2) ←
    (List.range pat.length).reverse.foldlM (delta2First pat) (pat.length - 1, fun _ => 0)
  (List.range (pat.length - 1)).foldlM (delta2Second pat) delta2

/-- The inner loop; the first argument is `j + 1`. -/
def matchBack (str pat : List Byte) : Nat → Int → Option (Int × Nat)
  | 0, i => some (i, 0)
  | n + 1, i => do
      let a ← at8 str i
      let b ← at8 pat n
      if a = b then matchBack str pat n (i - 1) else return (i, n + 1)

/-- The outer loop. The result is the offset of what is found. -/
def searchLoop (str pat : List Byte) (delta1 : Byte → Int) (delta2 : Nat → Int) :
    Nat → Int → Option (Option Int)
  | 0, _ => none
  | fuel + 1, i =>
      if i < str.length then do
        let (i, n) ← matchBack str pat pat.length i
        match n with
        | 0 => return some (i + 1)
        | j + 1 =>
            let c ← at8 str i
            let shift := if delta1 c < delta2 j then delta2 j else delta1 c
            let i ← int (i + shift)
            searchLoop str pat delta1 delta2 fuel i
      else return none

/-- `none` where the search reads outside of its buffers, overflows or runs out of fuel. -/
def search (fuel : Nat) (str pat : List Byte) : Option (Option Int) := do
  let delta1 ← makeDelta1 pat
  let delta2 ← makeDelta2 pat
  searchLoop str pat delta1 delta2 fuel (pat.length - 1)

/-- What `boyer_moore_search` returns; 0 is `NULL`. -/
def boyerMooreSearch (fuel : Nat) (m : Mem) (string : Word) (stringlen : Nat) (pat : List Byte) :
    Option Word := do
  let found ← search fuel (load m string stringlen) pat
  match found with
  | some i => return string + BitVec.ofInt 32 i
  | none => return 0#32

end Model

section Reads

variable (b : List Byte)

theorem at8_nat (i : Nat) : at8 b i = b[i]? := by
  unfold at8
  rw [if_pos (Int.natCast_nonneg i), Int.toNat_natCast]

theorem at8_eq (x : Int) (i : Nat) (same : x = i) : at8 b x = b[i]? := by
  rw [same, at8_nat]

theorem int_some (x : Int) (lower : 0 ≤ x) (upper : x < 2 ^ 31) : int x = some x :=
  if_pos ⟨by omega, upper⟩

end Reads

section Delta1

variable (pat : List Byte)

/-- The last character that is `c` comes not sooner to its end than the table says. -/
structure Delta1Ok (c : Byte) (n : Nat) (d : Int) : Prop where
  nonneg : 0 ≤ d
  bound : d ≤ pat.length
  nearest : ∀ i < n, pat[i]? = some c → d ≤ pat.length - 1 - i

theorem makeDelta1_ok :
    ∃ delta1, makeDelta1 pat = some delta1 ∧ ∀ c, Delta1Ok pat c (pat.length - 1) (delta1 c) := by
  apply Loops.foldlM_range _ fun n (delta1 : Byte → Int) => ∀ c, Delta1Ok pat c n (delta1 c)
  · intro c
    exact ⟨Int.natCast_nonneg _, Int.le_refl _, fun i inside => absurd inside (Nat.not_lt_zero i)⟩
  · intro i inside delta1 ok
    have read : at8 pat i = some pat[i] := by
      rw [at8_nat, List.getElem?_eq_getElem]
    refine ⟨set delta1 pat[i] (pat.length - 1 - i), by rw [read]; rfl, fun c => ?_⟩
    unfold set
    split
    · refine ⟨by omega, by omega, fun k below _ => by omega⟩
    · rename_i other
      refine ⟨(ok c).nonneg, (ok c).bound, fun k below same => ?_⟩
      apply (ok c).nearest k _ same
      have apart : k ≠ i := by
        intro eq
        rw [eq, List.getElem?_eq_getElem (by omega : i < pat.length)] at same
        exact other (Option.some.inj same).symm
      omega

end Delta1

section Delta2

variable (pat : List Byte)

/-- The suffix from `q` on is a prefix. -/
def Border (q : Nat) : Prop := ∀ k < pat.length, q ≤ k → pat[k - q]? = pat[k]?

theorem isPrefixLoop_ok (pos n i : Nat) (ends : pos + i + n = pat.length) :
    ∃ r, isPrefixLoop pat pos n i = some r ∧
      (r = true ↔ ∀ t, i ≤ t → t < i + n → pat[t]? = pat[pos + t]?) := by
  induction n generalizing i with
  | zero => exact ⟨true, rfl, fun _ t lower upper => by omega, fun _ => rfl⟩
  | succ n ih =>
      have readA := at8_nat pat i
      have readB := at8_eq pat (pos + i) (pos + i) (by omega)
      rw [List.getElem?_eq_getElem (by omega : i < pat.length)] at readA
      rw [List.getElem?_eq_getElem (by omega : pos + i < pat.length)] at readB
      unfold isPrefixLoop
      simp only [readA, readB, Option.bind_eq_bind, Option.bind_some]
      by_cases same : pat[i] = pat[pos + i]
      · obtain ⟨r, ran, meaning⟩ := ih (i + 1) (by omega)
        refine ⟨r, by rw [if_neg (not_not_intro same), ran], meaning.trans ⟨?_, ?_⟩⟩
        · intro all t lower upper
          rcases Nat.eq_or_lt_of_le lower with rfl | more
          · rw [List.getElem?_eq_getElem (by omega), List.getElem?_eq_getElem (by omega), same]
          · exact all t more (by omega)
        · intro all t lower upper
          exact all t (by omega) (by omega)
      · refine ⟨false, by rw [if_pos same]; rfl, nofun, fun all => ?_⟩
        have here := all i (Nat.le_refl i) (by omega)
        rw [List.getElem?_eq_getElem (by omega), List.getElem?_eq_getElem (by omega)] at here
        exact absurd (Option.some.inj here) same

theorem isPrefix_ok (pos : Nat) (within : pos ≤ pat.length) :
    ∃ r, isPrefix pat pos = some r ∧ (r = true ↔ Border pat pos) := by
  obtain ⟨r, ran, meaning⟩ := isPrefixLoop_ok pat pos (pat.length - pos) 0 (by omega)
  refine ⟨r, ran, meaning.trans ⟨?_, ?_⟩⟩
  · intro all k inside lower
    rw [all (k - pos) (Nat.zero_le _) (by omega)]
    congr 1
    omega
  · intro border t _ upper
    have same := border (pos + t) (by omega) (Nat.le_add_right _ _)
    rwa [Nat.add_sub_cancel_left] at same

/-- What `suffix_length` counts: the items that agree below `pos` and below the end. -/
structure SuffixOk (pos n : Nat) : Prop where
  bound : n ≤ pos
  agree : ∀ t < n, pat[pos - t]? = pat[pat.length - 1 - t]?
  stop : n = pos ∨ pat[pos - n]? ≠ pat[pat.length - 1 - n]?

theorem suffixLengthLoop_ok (pos fuel i : Nat) (inside : pos < pat.length)
    (enough : pos + 1 = fuel + i) (left : 0 < fuel)
    (agree : ∀ t < i, pat[pos - t]? = pat[pat.length - 1 - t]?) :
    ∃ n, suffixLengthLoop pat pos fuel i = some n ∧ SuffixOk pat pos n := by
  induction fuel generalizing i with
  | zero => cases left
  | succ fuel ih =>
      have readA := at8_eq pat (pos - i) (pos - i) (by omega)
      have readB := at8_eq pat (pat.length - 1 - i) (pat.length - 1 - i) (by omega)
      have atA := List.getElem?_eq_getElem (by omega : pos - i < pat.length)
      have atB := List.getElem?_eq_getElem (by omega : pat.length - 1 - i < pat.length)
      rw [atA] at readA
      rw [atB] at readB
      unfold suffixLengthLoop
      simp only [readA, readB, Option.bind_eq_bind, Option.bind_some]
      by_cases more : pat[pos - i] = pat[pat.length - 1 - i] ∧ i < pos
      · rw [if_pos more]
        apply ih (i + 1) (by omega) (by omega)
        intro t below
        rcases Nat.eq_or_lt_of_le (Nat.le_of_lt_succ below) with rfl | below
        · rw [atA, atB, more.1]
        · exact agree t below
      · rw [if_neg more]
        refine ⟨i, rfl, by omega, agree, ?_⟩
        by_cases last : i = pos
        · exact Or.inl last
        · right
          rw [atA, atB]
          intro same
          exact more ⟨Option.some.inj same, by omega⟩

theorem suffixLength_ok (pos : Nat) (inside : pos < pat.length) :
    ∃ n, suffixLength pat pos = some n ∧ SuffixOk pat pos n :=
  suffixLengthLoop_ok pat pos (pos + 1) 0 inside rfl (Nat.succ_pos _)
    fun t below => absurd below (Nat.not_lt_zero t)

/-- The first border behind `j`. -/
structure NextBorder (j q : Nat) : Prop where
  behind : j < q
  within : q ≤ pat.length
  border : Border pat q
  least : ∀ q', j < q' → q' ≤ pat.length → Border pat q' → q ≤ q'

theorem border_length : Border pat pat.length :=
  fun _ inside behind => absurd inside (Nat.not_lt_of_le behind)

/-- What the first loop has done when `i` rounds are left. -/
def FirstOk (i : Nat) (state : Int × (Nat → Int)) : Prop :=
  (i < pat.length → ∃ q : Nat, state.1 = q ∧ NextBorder pat i q) ∧
    ∀ j, i ≤ j → j < pat.length →
      ∃ q : Nat, NextBorder pat j q ∧ state.2 j = q + (pat.length - 1 - j)

theorem delta2First_ok (short : 2 * pat.length < 2 ^ 31) (p : Nat) (inside : p < pat.length)
    (state : Int × (Nat → Int)) (ok : FirstOk pat (p + 1) state) :
    ∃ state', delta2First pat state p = some state' ∧ FirstOk pat p state' := by
  obtain ⟨r, ran, border⟩ := isPrefix_ok pat (p + 1) inside
  have next : ∃ q : Nat, (if r then (p + 1 : Int) else state.1) = q ∧ NextBorder pat p q := by
    by_cases isBorder : r = true
    · refine ⟨p + 1, by rw [if_pos isBorder]; rfl, Nat.lt_succ_self p, inside,
        border.mp isBorder, fun q' behind _ _ => behind⟩
    · have more : p + 1 < pat.length := by
        apply Nat.lt_of_le_of_ne inside
        intro whole
        have all : Border pat (p + 1) := by
          rw [show p + 1 = pat.length from whole]
          exact border_length pat
        exact isBorder (border.mpr all)
      obtain ⟨q, last, nextBorder⟩ := ok.1 more
      refine ⟨q, by rw [if_neg isBorder, last], Nat.lt_of_succ_lt nextBorder.behind,
        nextBorder.within, nextBorder.border, fun q' behind within isBorder' => ?_⟩
      apply nextBorder.least q' _ within isBorder'
      apply Nat.lt_of_le_of_ne behind
      intro same
      have here : Border pat (p + 1) := by
        rw [show p + 1 = q' from same]
        exact isBorder'
      exact isBorder (border.mpr here)
  obtain ⟨q, last, nextBorder⟩ := next
  have within := nextBorder.within
  have entry : int ((q : Int) + (pat.length - 1 - p)) =
      some (q + (pat.length - 1 - p) : Int) := by
    apply int_some <;> omega
  refine ⟨(q, set state.2 p (q + (pat.length - 1 - p))), ?_, fun _ => ⟨q, rfl, nextBorder⟩, ?_⟩
  · simp only [delta2First, ran, Option.bind_eq_bind, Option.bind_some, last, entry]
    rfl
  · intro j lower upper
    by_cases same : j = p
    · subst same
      exact ⟨q, nextBorder, if_pos rfl⟩
    · obtain ⟨q', nextBorder', value⟩ := ok.2 j (by omega) upper
      refine ⟨q', nextBorder', ?_⟩
      rw [← value]
      exact if_neg same

/-- The suffix behind `j` ends at `p` too, behind another item than at `j`. -/
structure Reoccurs (p j : Nat) : Prop where
  bound : pat.length - 1 - j ≤ p
  agree : ∀ t < pat.length - 1 - j, pat[p - t]? = pat[pat.length - 1 - t]?
  differ : pat[p - (pat.length - 1 - j)]? ≠ pat[j]?

/-- What the table says for a mismatch at `j`, when the second loop has come to `n`. -/
structure Delta2Ok (n j : Nat) (d : Int) : Prop where
  advances : pat.length - j ≤ d
  border : ∀ q, j < q → q ≤ pat.length → Border pat q → d ≤ q + (pat.length - 1 - j)
  nearest : ∀ p < n, Reoccurs pat p j → d ≤ pat.length - 1 - p + (pat.length - 1 - j)

/-- Only one index is said by a suffix that stops at different items. -/
theorem Reoccurs.index {p n j : Nat} (reoccurs : Reoccurs pat p j) (suffix : SuffixOk pat p n)
    (inside : j < pat.length) :
    j = pat.length - 1 - n ∧ pat[p - n]? ≠ pat[pat.length - 1 - n]? := by
  obtain ⟨bound, agree, differ⟩ := reoccurs
  have index : pat.length - 1 - (pat.length - 1 - j) = j := by omega
  have more : ¬ pat.length - 1 - j < n := by
    intro below
    have same := suffix.agree _ below
    rw [index] at same
    exact differ same
  have fewer : ¬ n < pat.length - 1 - j := by
    intro below
    rcases suffix.stop with last | stops
    · omega
    · exact stops (agree n below)
  have same : n = pat.length - 1 - j := by omega
  subst same
  exact ⟨index.symm, by rwa [index]⟩

theorem delta2Second_ok (short : 2 * pat.length < 2 ^ 31) (p : Nat)
    (inside : p < pat.length - 1) (delta2 : Nat → Int)
    (ok : ∀ j < pat.length, Delta2Ok pat p j (delta2 j)) :
    ∃ delta2', delta2Second pat delta2 p = some delta2' ∧
      ∀ j < pat.length, Delta2Ok pat (p + 1) j (delta2' j) := by
  obtain ⟨n, ran, suffix⟩ := suffixLength_ok pat p (by omega)
  have bound := suffix.bound
  have readA := at8_eq pat (p - n) (p - n) (by omega)
  have readB := at8_eq pat (pat.length - 1 - n) (pat.length - 1 - n) (by omega)
  have atA := List.getElem?_eq_getElem (by omega : p - n < pat.length)
  have atB := List.getElem?_eq_getElem (by omega : pat.length - 1 - n < pat.length)
  simp only [delta2Second, ran, readA, readB, atA, atB, Option.bind_eq_bind, Option.bind_some]
  by_cases same : pat[p - n] = pat[pat.length - 1 - n]
  · -- The suffix goes on to the start of the pattern: it is a prefix, and the first loop has it.
    refine ⟨delta2, if_neg (not_not_intro same), fun j below => ?_⟩
    refine ⟨(ok j below).advances, (ok j below).border, fun p' lower reoccurs => ?_⟩
    rcases Nat.eq_or_lt_of_le (Nat.le_of_lt_succ lower) with rfl | lower
    · have stops := (reoccurs.index pat suffix below).2
      rw [atA, atB, same] at stops
      exact absurd rfl stops
    · exact (ok j below).nearest p' lower reoccurs
  · have entry : int (pat.length - 1 - p + n) = some (pat.length - 1 - p + n : Int) := by
      apply int_some <;> omega
    refine ⟨set delta2 (pat.length - 1 - n) (pat.length - 1 - p + n), ?_, fun j below => ?_⟩
    · rw [if_pos same, entry]
      rfl
    · by_cases here : j = pat.length - 1 - n
      · subst here
        rw [show set delta2 _ _ _ = _ from if_pos rfl]
        refine ⟨by omega, fun q behind _ _ => by omega, fun p' lower _ => by omega⟩
      · rw [show set delta2 _ _ j = delta2 j from if_neg here]
        refine ⟨(ok j below).advances, (ok j below).border, fun p' lower reoccurs => ?_⟩
        rcases Nat.eq_or_lt_of_le (Nat.le_of_lt_succ lower) with rfl | lower
        · exact absurd (reoccurs.index pat suffix below).1 here
        · exact (ok j below).nearest p' lower reoccurs

theorem makeDelta2_ok (short : 2 * pat.length < 2 ^ 31) :
    ∃ delta2, makeDelta2 pat = some delta2 ∧
      ∀ j < pat.length, Delta2Ok pat (pat.length - 1) j (delta2 j) := by
  obtain ⟨state, first, -, entries⟩ := Loops.foldlM_range_reverse (delta2First pat) (FirstOk pat)
    pat.length (pat.length - 1, fun _ => 0)
    ⟨fun below => absurd below (Nat.lt_irrefl _), fun j lower upper => by omega⟩
    (delta2First_ok pat short)
  obtain ⟨delta2, second, ok⟩ := Loops.foldlM_range (delta2Second pat)
    (fun n delta2 => ∀ j < pat.length, Delta2Ok pat n j (delta2 j)) (pat.length - 1) state.2
    (fun j below => by
      obtain ⟨q, next, value⟩ := entries j (Nat.zero_le j) below
      have behind := next.behind
      rw [value]
      refine ⟨by omega, fun q' behind' within border => ?_,
        fun p lower => absurd lower (Nat.not_lt_zero p)⟩
      have least := next.least q' behind' within border
      omega)
    (delta2Second_ok pat short)
  refine ⟨delta2, ?_, ok⟩
  simp only [makeDelta2, first, Option.bind_eq_bind, Option.bind_some]
  exact second

/-- A shift by the table skips no compatible alignment. -/
theorem delta2_safe (j s : Nat) (d : Int) (ok : Delta2Ok pat (pat.length - 1) j d)
    (inside : j < pat.length) (positive : 0 < s) (compatible : Compatible pat j s) :
    d ≤ s + (pat.length - 1 - j) := by
  obtain ⟨keeps, changes⟩ := compatible
  by_cases within : s ≤ j
  · have reoccurs : Reoccurs pat (pat.length - 1 - s) j := by
      refine ⟨by omega, fun t below => ?_, ?_⟩
      · rw [← keeps (pat.length - 1 - t) (by omega) (by omega) (by omega)]
        congr 1
        omega
      · rw [show pat.length - 1 - s - (pat.length - 1 - j) = j - s by omega]
        exact changes within
    have nearest := ok.nearest (pat.length - 1 - s) (by omega) reoccurs
    omega
  · by_cases whole : s ≤ pat.length
    · have border : Border pat s := by
        intro k below behind
        exact keeps k below (by omega) behind
      exact ok.border s (by omega) whole border
    · have next := ok.border pat.length inside (Nat.le_refl _) (border_length pat)
      omega

end Delta2

section Search

variable (str pat : List Byte)

/-- The inner loop stops at the last item of the pattern that differs. -/
theorem matchBack_ok (base n : Nat) (fits : base + n ≤ str.length) (short : n ≤ pat.length)
    (agrees : ∀ k < pat.length, n ≤ k → str[base + k]? = pat[k]?) :
    ∃ n' ≤ n, matchBack str pat n (base + n - 1 : Int) = some ((base + n' - 1 : Int), n') ∧
      (∀ k < pat.length, n' ≤ k → str[base + k]? = pat[k]?) ∧
      ∀ j, n' = j + 1 → str[base + j]? ≠ pat[j]? := by
  induction n with
  | zero => exact ⟨0, Nat.le_refl 0, rfl, agrees, nofun⟩
  | succ n ih =>
      have readA := at8_eq str (base + (n + 1 : Nat) - 1) (base + n) (by omega)
      have readB := at8_nat pat n
      have atA := List.getElem?_eq_getElem (by omega : base + n < str.length)
      have atB := List.getElem?_eq_getElem (by omega : n < pat.length)
      unfold matchBack
      simp only [readA, readB, atA, atB, Option.bind_eq_bind, Option.bind_some]
      by_cases same : str[base + n] = pat[n]
      · obtain ⟨n', fewer, ran, rest⟩ := ih (by omega) (by omega) (by
          intro k below behind
          rcases Nat.eq_or_lt_of_le behind with rfl | more
          · rw [atA, atB, same]
          · exact agrees k below more)
        refine ⟨n', Nat.le_succ_of_le fewer, ?_, rest⟩
        rw [if_pos same, ← ran]
        congr 1
        omega
      · refine ⟨n + 1, Nat.le_refl _, if_neg same, agrees, fun j eq => ?_⟩
        cases eq
        rw [atA, atB]
        intro eq
        exact same (Option.some.inj eq)

/-- The shift skips no occurrence, and goes on. -/
theorem shift_ok (base j : Nat) (c : Byte) (d1 d2 : Int) (inside : j < pat.length)
    (agrees : Agrees str pat base j) (read : str[base + j]? = some c)
    (mismatch : str[base + j]? ≠ pat[j]?) (ok1 : Delta1Ok pat c (pat.length - 1) d1)
    (ok2 : Delta2Ok pat (pat.length - 1) j d2) (s : Nat) (positive : 0 < s)
    (occurs : OccursAt str pat (base + s)) :
    j + (if d1 < d2 then d2 else d1) ≤ pat.length - 1 + s := by
  have good := delta2_safe pat j s d2 ok2 inside positive
    (occurs.compatible agrees inside mismatch)
  have bad : j + d1 ≤ pat.length - 1 + s := by
    by_cases within : s ≤ j
    · have nearest := ok1.nearest (j - s) (by omega) ((occurs.shifted inside within).trans read)
      omega
    · have bound := ok1.bound
      omega
  split <;> omega

theorem shift_range (j : Nat) (c : Byte) (d1 d2 : Int) (inside : j < pat.length)
    (ok1 : Delta1Ok pat c (pat.length - 1) d1) (ok2 : Delta2Ok pat (pat.length - 1) j d2) :
    pat.length - j ≤ (if d1 < d2 then d2 else d1) ∧
      j + (if d1 < d2 then d2 else d1) ≤ 2 * pat.length := by
  have bound1 := ok1.bound
  have bound2 := ok2.border pat.length inside (Nat.le_refl _) (border_length pat)
  have advances := ok2.advances
  constructor <;> split <;> omega

theorem searchLoop_ok (delta1 : Byte → Int) (delta2 : Nat → Int) (positive : 0 < pat.length)
    (short : str.length + 2 * pat.length < 2 ^ 31)
    (ok1 : ∀ c, Delta1Ok pat c (pat.length - 1) (delta1 c))
    (ok2 : ∀ j < pat.length, Delta2Ok pat (pat.length - 1) j (delta2 j)) (fuel base : Nat)
    (left : 0 < fuel) (enough : str.length + 2 ≤ fuel + base + pat.length)
    (before : ∀ k < base, ¬ OccursAt str pat k) :
    ∃ first : Option Nat,
      searchLoop str pat delta1 delta2 fuel (base + pat.length - 1) =
        some (first.map Int.ofNat) ∧ IsFirst str pat first := by
  induction fuel generalizing base with
  | zero => cases left
  | succ fuel ih =>
      unfold searchLoop
      by_cases more : (base + pat.length - 1 : Int) < str.length
      · obtain ⟨n, fewer, ran, agrees, stops⟩ := matchBack_ok str pat base pat.length (by omega)
          (Nat.le_refl _) (fun k below behind => absurd below (Nat.not_lt_of_le behind))
        simp only [if_pos more, ran, Option.bind_eq_bind, Option.bind_some]
        cases n with
        | zero =>
            refine ⟨some base, ?_, fun k below => agrees k below (Nat.zero_le k), before⟩
            simp
        | succ j =>
            have mismatch := stops j rfl
            have atI := List.getElem?_eq_getElem (by omega : base + j < str.length)
            have read : at8 str (base + (j + 1 : Nat) - 1) = some str[base + j] := by
              rw [at8_eq str _ (base + j) (by omega), atI]
            have agreesBehind : Agrees str pat base j := fun k below behind => agrees k below behind
            have skips := shift_ok str pat base j str[base + j] (delta1 str[base + j]) (delta2 j)
              fewer agreesBehind atI mismatch (ok1 _) (ok2 j fewer)
            have range := shift_range pat j str[base + j] (delta1 str[base + j]) (delta2 j) fewer
              (ok1 _) (ok2 j fewer)
            simp only [read, Option.bind_some]
            generalize (if delta1 str[base + j] < delta2 j then delta2 j
              else delta1 str[base + j]) = shift at skips range ⊢
            have next : int (base + (j + 1 : Nat) - 1 + shift) =
                some ((base + j + shift - (pat.length - 1)).toNat + pat.length - 1 : Int) := by
              rw [int_some _ (by omega) (by omega)]
              congr 1
              omega
            rw [next]
            apply ih
            · omega
            · omega
            · intro k below occurs
              by_cases early : k < base
              · exact before k early occurs
              · obtain ⟨s, rfl⟩ := Nat.exists_eq_add_of_le (Nat.le_of_not_lt early)
                by_cases same : s = 0
                · subst same
                  exact mismatch (occurs j fewer)
                · have later := skips s (Nat.pos_of_ne_zero same) occurs
                  omega
      · rw [if_neg more]
        refine ⟨none, rfl, fun k occurs => ?_⟩
        have bound := occurs.bound positive
        by_cases early : k < base
        · exact before k early occurs
        · omega

theorem search_ok (fuel : Nat) (enough : str.length + 1 ≤ fuel) (positive : 0 < pat.length)
    (short : str.length + 2 * pat.length < 2 ^ 31) :
    ∃ first : Option Nat,
      search fuel str pat = some (first.map Int.ofNat) ∧ IsFirst str pat first := by
  obtain ⟨delta1, made1, ok1⟩ := makeDelta1_ok pat
  obtain ⟨delta2, made2, ok2⟩ := makeDelta2_ok pat (by omega)
  have found := searchLoop_ok str pat delta1 delta2 positive short ok1 ok2 fuel 0 (by omega)
    (by omega) (fun k below => absurd below (Nat.not_lt_zero k))
  simpa [search, made1, made2] using found

end Search

section Pointers

/-- The address of the item at an index, and 0 for none. -/
def pointer (string : Word) : Option Nat → Word
  | some k => string + BitVec.ofNat 32 k
  | none => 0#32

theorem boyerMooreSearch_ok (fuel : Nat) (m : Mem) (string : Word) (stringlen : Nat)
    (pat : List Byte) (enough : stringlen + 1 ≤ fuel) (positive : 0 < pat.length)
    (short : stringlen + 2 * pat.length < 2 ^ 31) :
    ∃ first : Option Nat, boyerMooreSearch fuel m string stringlen pat =
        some (pointer string first) ∧
      IsFirst (load m string stringlen) pat first := by
  obtain ⟨first, found, isFirst⟩ := search_ok (load m string stringlen) pat fuel
    (by simpa using enough) positive (by simpa using short)
  refine ⟨first, ?_, isFirst⟩
  unfold boyerMooreSearch
  rw [found]
  cases first with
  | none => rfl
  | some k =>
      simp only [Option.map_some, Option.bind_eq_bind, Option.bind_some, pointer]
      rfl

/-- The search ends, reads only inside of its buffers and returns the first occurrence, or 0 when
there is none. -/
theorem boyerMooreSearch_first (fuel : Nat) (m : Mem) (string : Word) (stringlen : Nat)
    (pat : List Byte) (enough : stringlen + 1 ≤ fuel) (positive : 1 ≤ pat.length)
    (short : stringlen + 2 * pat.length < 2 ^ 31) :
    ∃ first : Option Nat,
      boyerMooreSearch fuel m string stringlen pat = some (pointer string first) ∧
      IsFirst (load m string stringlen) pat first ∧
      ((∀ k < stringlen, string + BitVec.ofNat 32 k ≠ 0#32) →
        (pointer string first = 0#32 ↔ ∀ k, ¬ OccursAt (load m string stringlen) pat k)) := by
  obtain ⟨first, found, isFirst⟩ := boyerMooreSearch_ok fuel m string stringlen pat enough positive
    short
  refine ⟨first, found, isFirst, ?_⟩
  intro object
  cases first with
  | none => exact ⟨fun _ => isFirst, fun _ => rfl⟩
  | some k =>
      have bound := isFirst.1.bound positive
      rw [load_length] at bound
      refine ⟨fun null => absurd null (object k (by omega)), fun absent => ?_⟩
      exact absurd isFirst.1 (absent k)

/-- The text `abcabcabd`. -/
def sampleMem : Mem :=
  store (fun _ => 0#8) 0x1000#32
    [0x61#8, 0x62#8, 0x63#8, 0x61#8, 0x62#8, 0x63#8, 0x61#8, 0x62#8, 0x64#8]

/-- The pattern `abcabd`. -/
def samplePat : List Byte := [0x61#8, 0x62#8, 0x63#8, 0x61#8, 0x62#8, 0x64#8]

theorem boyerMooreSearch_first_sample :
    ∃ first : Option Nat,
      boyerMooreSearch 10 sampleMem 0x1000#32 9 samplePat = some (pointer 0x1000#32 first) ∧
      IsFirst (load sampleMem 0x1000#32 9) samplePat first ∧
      ((∀ k < 9, 0x1000#32 + BitVec.ofNat 32 k ≠ 0#32) →
        (pointer 0x1000#32 first = 0#32 ↔
          ∀ k, ¬ OccursAt (load sampleMem 0x1000#32 9) samplePat k)) :=
  boyerMooreSearch_first 10 sampleMem 0x1000#32 9 samplePat (by decide) (by decide) (by decide)

example : boyerMooreSearch 10 sampleMem 0x1000#32 9 samplePat = some 0x1003#32 := by
  decide

end Pointers

end Stroopwafel.BoyerMoore
