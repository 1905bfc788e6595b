import Stroopwafel.SaltPatchLoad

set_option autoImplicit false

namespace Stroopwafel.SaltPatch

open Memory

section Write

/-- 'SALTPTCH' -/
def magic : List Byte := CString.chars "SALTPTCH".toList

/-- A SHA-1 hash. -/
abbrev Digest := { hash : List Byte // hash.length = 20 }

def writePatchHeader : List Byte := magic ++ bytes32 1#32 ++ List.replicate 20 0#8

/-- The hash is written over the zeroed one. -/
def writePatchFooterAndHash (sha1 : Digest) (patch : List Byte) : List Byte :=
  let patch := patch ++ bytes32 0xFF#32
  patch.take 12 ++ sha1 ++ patch.drop 32

/-- A chunk whose length fits into its field. -/
inductive Item where
  | data (base : Word) (words : { words : List Word // 4 * words.length < 2 ^ 32 })
  | memset (base : Word) (lenWords : { lenWords : Nat // 4 * lenWords < 2 ^ 32 })

def Item.write (patch : List Byte) : Item → Option (List Byte)
  | .data base words =>
      patchAddDiff patch (words.val.flatMap bytes32) 0 (BitVec.ofNat 32 words.val.length) base
  | .memset base lenWords =>
      return patchAddMemset patch (BitVec.ofNat 32 lenWords) base

def writeFile (sha1 : Digest) (items : List Item) : Option (List Byte) := do
  let patch ← items.foldlM Item.write writePatchHeader
  return writePatchFooterAndHash sha1 patch

end Write

section Read

/-- The host is little-endian. -/
def hostWords : List Byte → List Word
  | b0 :: b1 :: b2 :: b3 :: rest => ((b3 ++ b2) ++ (b1 ++ b0)) :: hostWords rest
  | _ => []

def getbe32 (w : Word) : Word :=
  (w.extractLsb' 0 8 ++ w.extractLsb' 8 8) ++ (w.extractLsb' 16 8 ++ w.extractLsb' 24 8)

/-- `for(u32 i = 2; i < (patches_size / 4); i++)` -/
def flip : Nat → Word → List Word → Option (List Word)
  | 0, _, _ => none
  | fuel + 1, i, patchData =>
      if i.toNat < patchData.length then
        flip fuel (i + 1#32) (patchData.modify i.toNat getbe32)
      else some patchData

/-- What is printed. -/
inductive Line where
  | openFailed
  | allocFailed (patchesSize : Word)
  | readFailed
  | invalidMagic (first second : Word)
  | unsupportedVersion (version : Word)
  | data (offs len : Word)
  | memset (offs len : Word)
  | eof
  | unrecognized (type : Word)

def readChunks (patchData : List Word) : Nat → Word → Option (List Line)
  | 0, _ => none
  | fuel + 1, curWord =>
      if curWord.toNat < patchData.length then do
        let type ← patchData[curWord.toNat]?
        match type.toNat with
        | 0 =>
            let offs ← patchData[(curWord + 1#32).toNat]?
            let len ← patchData[(curWord + 2#32).toNat]?
            let lines ← readChunks patchData fuel (curWord + (3#32 + len / 4#32))
            return .data offs len :: lines
        | 1 =>
            let offs ← patchData[(curWord + 1#32).toNat]?
            let len ← patchData[(curWord + 2#32).toNat]?
            let lines ← readChunks patchData fuel (curWord + 3#32)
            return .memset offs len :: lines
        | 0xFF =>
            let lines ← readChunks patchData fuel (curWord + 1#32)
            return .eof :: lines
        | _ =>
            let lines ← readChunks patchData fuel (curWord + 1#32)
            return .unrecognized type :: lines
      else return []

/-- What `fopen`, `malloc` and `fread` do is up to the host. -/
structure ReadHost where
  opened : Bool
  allocated : Bool
  read : Bool

/-- What is done with the file in memory. -/
def readPatchData (fuel : Nat) (file : List Byte) : Option (List Line) := do
  let patchData ← flip fuel 2#32 (hostWords file)
  -- `memcmp` reads both words
  let first ← patchData[0]?
  let second ← patchData[1]?
  if file.take 8 ≠ magic then return [.invalidMagic first second]
  else
    let version ← patchData[2]?
    if version ≠ 1#32 then return [.unsupportedVersion (getbe32 version)]
    else readChunks patchData fuel 8#32

/-- There is no result when a word outside of the file is read, or when no fuel is enough. -/
def patchRead (host : ReadHost) (fuel : Nat) (file : List Byte) : Option (List Line) :=
  if host.opened = false then some [.openFailed]
  else if host.allocated = false then some [.allocFailed (BitVec.ofNat 32 file.length)]
  else if host.read = false then some [.readFailed]
  else readPatchData fuel file

end Read

section Flip

/-- The words, big-endian from the third on. -/
def flipped (patchData : List Word) : List Word :=
  patchData.take 2 ++ (patchData.drop 2).map getbe32

theorem flip_ok (patchData : List Word) (bound : patchData.length < 2 ^ 32) (k fuel : Nat)
    (i : Word) (rest : i.toNat + k = patchData.length) (enough : k < fuel) :
    flip fuel i patchData =
      some (patchData.take i.toNat ++ (patchData.drop i.toNat).map getbe32) := by
  induction k generalizing patchData fuel i with
  | zero =>
      obtain ⟨fuel, rfl⟩ := Nat.exists_eq_add_of_le' enough
      have last : i.toNat = patchData.length := rest
      unfold flip
      rw [if_neg (by omega), last, List.take_length, List.drop_length, List.map_nil,
        List.append_nil]
  | succ k ih =>
      obtain ⟨fuel, rfl⟩ := Nat.exists_eq_add_of_le' (show 1 ≤ fuel by omega)
      have inside : i.toNat < patchData.length := by omega
      have next : (i + 1#32).toNat = i.toNat + 1 := by bv_omega
      have front : (patchData.modify i.toNat getbe32).take (i.toNat + 1) =
          patchData.take i.toNat ++ [getbe32 patchData[i.toNat]] := by
        have length : (patchData.take i.toNat).length = i.toNat :=
          List.length_take_of_le (Nat.le_of_lt inside)
        rw [List.modify_eq_take_cons_drop inside, List.take_append, length,
          Nat.add_sub_cancel_left, List.take_of_length_le (by omega)]
        rfl
      unfold flip
      rw [if_pos inside, ih _ (by rwa [List.length_modify]) fuel _
        (by rw [next, List.length_modify]; omega) (by omega), next, front,
        List.drop_modify_of_lt _ _ _ _ (Nat.lt_succ_self _), List.drop_eq_getElem_cons inside,
        List.map_cons, List.append_assoc, List.singleton_append]

/-- A file of less than 2 ^ 34 bytes is flipped. -/
theorem flip_flipped (patchData : List Word) (bound : patchData.length < 2 ^ 32) (fuel : Nat)
    (enough : patchData.length < fuel) : flip fuel 2#32 patchData = some (flipped patchData) := by
  by_cases short : patchData.length < 2
  · obtain ⟨fuel, rfl⟩ := Nat.exists_eq_add_of_le' (Nat.lt_of_le_of_lt (Nat.zero_le _) enough)
    unfold flip flipped
    rw [if_neg (by change ¬ 2 < _; omega), List.take_of_length_le (by omega),
      List.drop_of_length_le (by omega), List.map_nil, List.append_nil]
  · exact flip_ok patchData bound (patchData.length - 2) fuel 2#32 (by change 2 + _ = _; omega)
      (by omega)

theorem flip_mono (fuel more : Nat) (i : Word) (patchData result : List Word)
    (ran : flip fuel i patchData = some result) : flip (fuel + more) i patchData = some result := by
  induction fuel generalizing i patchData with
  | zero => cases ran
  | succ fuel ih =>
      rw [Nat.succ_add]
      unfold flip at ran ⊢
      by_cases inside : i.toNat < patchData.length
      · rw [if_pos inside] at ran ⊢
        exact ih _ _ ran
      · rw [if_neg inside] at ran ⊢
        exact ran

theorem flip_unique (patchData result : List Word) (bound : patchData.length < 2 ^ 32)
    (fuel : Nat) (ran : flip fuel 2#32 patchData = some result) : result = flipped patchData := by
  have longer := flip_mono fuel (patchData.length + 1) 2#32 patchData result ran
  rw [flip_flipped patchData bound _ (by omega)] at longer
  exact (Option.some.inj longer).symm

@[simp] theorem flipped_length (patchData : List Word) :
    (flipped patchData).length = patchData.length := by
  unfold flipped
  rw [List.length_append, List.length_map, List.length_take, List.length_drop]
  omega

theorem flip_huge (patchData : List Word) (huge : 2 ^ 32 ≤ patchData.length) (fuel : Nat)
    (i : Word) : flip fuel i patchData = none := by
  induction fuel generalizing patchData i with
  | zero => rfl
  | succ fuel ih =>
      unfold flip
      rw [if_pos (Nat.lt_of_lt_of_le i.isLt huge)]
      exact ih _ (by rwa [List.length_modify]) _

end Flip

section Chain

/-- From a word on, the file is a chain of chunks with complete headers that goes on to its end or
beyond. -/
inductive Chain (patchData : List Word) : Word → Prop
  | done (curWord : Word) (past : patchData.length ≤ curWord.toNat) : Chain patchData curWord
  | data (curWord offs len : Word) (type : patchData[curWord.toNat]? = some 0#32)
      (first : patchData[(curWord + 1#32).toNat]? = some offs)
      (second : patchData[(curWord + 2#32).toNat]? = some len)
      (rest : Chain patchData (curWord + (3#32 + len / 4#32))) : Chain patchData curWord
  | memset (curWord offs len : Word) (type : patchData[curWord.toNat]? = some 1#32)
      (first : patchData[(curWord + 1#32).toNat]? = some offs)
      (second : patchData[(curWord + 2#32).toNat]? = some len)
      (rest : Chain patchData (curWord + 3#32)) : Chain patchData curWord
  | word (curWord type : Word) (here : patchData[curWord.toNat]? = some type)
      (notData : type ≠ 0#32) (notMemset : type ≠ 1#32)
      (rest : Chain patchData (curWord + 1#32)) : Chain patchData curWord

variable {patchData : List Word}

theorem inside_of_some {curWord type : Word} (here : patchData[curWord.toNat]? = some type) :
    curWord.toNat < patchData.length :=
  (List.getElem?_eq_some_iff.mp here).1

section Step

variable (fuel : Nat) (curWord : Word)

theorem readChunks_past (past : patchData.length ≤ curWord.toNat) :
    readChunks patchData (fuel + 1) curWord = some [] := by
  unfold readChunks
  rw [if_neg (Nat.not_lt_of_le past)]
  rfl

theorem readChunks_data (offs len : Word) (type : patchData[curWord.toNat]? = some 0#32)
    (first : patchData[(curWord + 1#32).toNat]? = some offs)
    (second : patchData[(curWord + 2#32).toNat]? = some len) :
    readChunks patchData (fuel + 1) curWord =
      (readChunks patchData fuel (curWord + (3#32 + len / 4#32))).map (.data offs len :: ·) := by
  rw [readChunks, if_pos (inside_of_some type), type, first, second]
  change (readChunks patchData fuel _).bind (fun lines => some (.data offs len :: lines)) = _
  cases readChunks patchData fuel (curWord + (3#32 + len / 4#32)) <;> rfl

theorem readChunks_memset (offs len : Word) (type : patchData[curWord.toNat]? = some 1#32)
    (first : patchData[(curWord + 1#32).toNat]? = some offs)
    (second : patchData[(curWord + 2#32).toNat]? = some len) :
    readChunks patchData (fuel + 1) curWord =
      (readChunks patchData fuel (curWord + 3#32)).map (.memset offs len :: ·) := by
  rw [readChunks, if_pos (inside_of_some type), type, first, second]
  change (readChunks patchData fuel _).bind (fun lines => some (.memset offs len :: lines)) = _
  cases readChunks patchData fuel (curWord + 3#32) <;> rfl

/-- The line of a word that starts neither of the chunks. -/
def wordLine (type : Word) : Line := if type = 0xFF#32 then .eof else .unrecognized type

theorem readChunks_word (type : Word) (here : patchData[curWord.toNat]? = some type)
    (notData : type ≠ 0#32) (notMemset : type ≠ 1#32) :
    readChunks patchData (fuel + 1) curWord =
      (readChunks patchData fuel (curWord + 1#32)).map (wordLine type :: ·) := by
  have distinct : ∀ n : Nat, n < 2 ^ 32 → type ≠ BitVec.ofNat 32 n → type.toNat ≠ n := by
    intro n bound other same
    apply other
    apply BitVec.eq_of_toNat_eq
    rw [same, BitVec.toNat_ofNat, Nat.mod_eq_of_lt bound]
  have zero := distinct 0 (by decide) notData
  have one := distinct 1 (by decide) notMemset
  rw [readChunks, if_pos (inside_of_some here), here]
  simp only [Option.bind_eq_bind, Option.bind_some]
  unfold wordLine
  by_cases eof : type = 0xFF#32
  · subst eof
    cases readChunks patchData fuel (curWord + 1#32) <;> rfl
  · have other := distinct 0xFF (by decide) eof
    rw [if_neg eof]
    split
    · exact absurd ‹_› zero
    · exact absurd ‹_› one
    · exact absurd ‹_› other
    · cases readChunks patchData fuel (curWord + 1#32) <;> rfl

/-- A header that is cut off is read all the same. -/
theorem readChunks_cut (type : Word) (here : patchData[curWord.toNat]? = some type)
    (header : type = 0#32 ∨ type = 1#32)
    (cut : patchData[(curWord + 1#32).toNat]? = none ∨ patchData[(curWord + 2#32).toNat]? = none) :
    readChunks patchData (fuel + 1) curWord = none := by
  rw [readChunks, if_pos (inside_of_some here), here]
  simp only [Option.bind_eq_bind, Option.bind_some]
  rcases header with same | same
  all_goals
    subst same
    change Option.bind _ (fun _ => Option.bind _ _) = none
    rcases cut with first | second
    · rw [first]
      rfl
    · rw [second]
      exact Option.bind_eq_none_iff.mpr fun _ _ => rfl

end Step

theorem chain_of_readChunks (fuel : Nat) (curWord : Word) (lines : List Line)
    (result : readChunks patchData fuel curWord = some lines) : Chain patchData curWord := by
  induction fuel generalizing curWord lines with
  | zero => cases result
  | succ fuel ih =>
      by_cases past : patchData.length ≤ curWord.toNat
      · exact .done curWord past
      have here := List.getElem?_eq_getElem (Nat.lt_of_not_le past)
      generalize patchData[curWord.toNat] = type at here
      by_cases header : type = 0#32 ∨ type = 1#32
      · have cut := fun cut => readChunks_cut fuel curWord type here header cut
        rw [result] at cut
        cases first : patchData[(curWord + 1#32).toNat]? with
        | none => cases cut (.inl first)
        | some offs =>
            cases second : patchData[(curWord + 2#32).toNat]? with
            | none => cases cut (.inr second)
            | some len =>
                rcases header with same | same
                · subst same
                  rw [readChunks_data fuel curWord offs len here first second] at result
                  obtain ⟨rest, ran, _⟩ := Option.map_eq_some_iff.mp result
                  exact .data curWord offs len here first second (ih _ rest ran)
                · subst same
                  rw [readChunks_memset fuel curWord offs len here first second] at result
                  obtain ⟨rest, ran, _⟩ := Option.map_eq_some_iff.mp result
                  exact .memset curWord offs len here first second (ih _ rest ran)
      · rw [not_or] at header
        rw [readChunks_word fuel curWord type here header.1 header.2] at result
        obtain ⟨rest, ran, _⟩ := Option.map_eq_some_iff.mp result
        exact .word curWord type here header.1 header.2 (ih _ rest ran)

/-- One more round in front of a walk that ends. -/
theorem readChunks_cons {curWord next : Word} {line : Line} {lines : List Line}
    (round : ∀ fuel, readChunks patchData (fuel + 1) curWord =
      (readChunks patchData fuel next).map (line :: ·))
    (rest : ∃ n, ∀ fuel, n ≤ fuel → readChunks patchData fuel next = some lines) :
    ∃ n, ∀ fuel, n ≤ fuel → readChunks patchData fuel curWord = some (line :: lines) := by
  obtain ⟨n, ran⟩ := rest
  refine ⟨n + 1, fun fuel enough => ?_⟩
  obtain ⟨fuel, rfl⟩ := Nat.exists_eq_add_of_le' (Nat.le_trans (Nat.le_add_left 1 n) enough)
  rw [round, ran fuel (by omega)]
  rfl

theorem readChunks_nil {curWord : Word} (past : patchData.length ≤ curWord.toNat) :
    ∃ n, ∀ fuel, n ≤ fuel → readChunks patchData fuel curWord = some [] := by
  refine ⟨1, fun fuel enough => ?_⟩
  obtain ⟨fuel, rfl⟩ := Nat.exists_eq_add_of_le' enough
  exact readChunks_past fuel curWord past

theorem Chain.readChunks {curWord : Word} (chain : Chain patchData curWord) :
    ∃ lines n, ∀ fuel, n ≤ fuel → readChunks patchData fuel curWord = some lines := by
  induction chain with
  | done curWord past => exact ⟨[], readChunks_nil past⟩
  | data curWord offs len type first second _ ih =>
      obtain ⟨lines, rest⟩ := ih
      exact ⟨_, readChunks_cons
        (fun fuel => readChunks_data fuel curWord offs len type first second) rest⟩
  | memset curWord offs len type first second _ ih =>
      obtain ⟨lines, rest⟩ := ih
      exact ⟨_, readChunks_cons
        (fun fuel => readChunks_memset fuel curWord offs len type first second) rest⟩
  | word curWord type here notData notMemset _ ih =>
      obtain ⟨lines, rest⟩ := ih
      exact ⟨_, readChunks_cons
        (fun fuel => readChunks_word fuel curWord type here notData notMemset) rest⟩

end Chain

section Terminates

def ReadHost.Works (host : ReadHost) : Prop :=
  host.opened = true ∧ host.allocated = true ∧ host.read = true

/-- The file is shorter than 2 ^ 34 bytes and has what is read of it: the magic; where that is
right, a version; where that is 1, a chain of chunks. -/
def Readable (file : List Byte) : Prop :=
  file.length / 4 < 2 ^ 32 ∧ 8 ≤ file.length ∧
    (file.take 8 = magic → 12 ≤ file.length ∧
      ((flipped (hostWords file))[2]? = some 1#32 → Chain (flipped (hostWords file)) 8#32))

theorem hostWords_short (file : List Byte)
    (short : ∀ b0 b1 b2 b3 rest, file = b0 :: b1 :: b2 :: b3 :: rest → False) :
    file.length < 4 :=
  match file, short with
  | [], _ | [_], _ | [_, _], _ | [_, _, _], _ => by simp
  | b0 :: b1 :: b2 :: b3 :: rest, short => (short b0 b1 b2 b3 rest rfl).elim

theorem hostWords_length (file : List Byte) : (hostWords file).length = file.length / 4 := by
  fun_induction hostWords file with
  | case1 b0 b1 b2 b3 rest ih =>
      simp only [List.length_cons, ih]
      omega
  | case2 file short => rw [List.length_nil, Nat.div_eq_of_lt (hostWords_short file short)]

theorem hostWords_append (a b : List Byte) (whole : a.length % 4 = 0) :
    hostWords (a ++ b) = hostWords a ++ hostWords b := by
  fun_induction hostWords a with
  | case1 b0 b1 b2 b3 rest ih =>
      simp only [List.length_cons] at whole
      change (b3 ++ b2 ++ (b1 ++ b0)) :: hostWords (rest ++ b) = _
      rw [ih (by omega)]
      rfl
  | case2 a short =>
      have few := hostWords_short a short
      rw [List.length_eq_zero_iff.mp (by omega : a.length = 0)]
      rfl

theorem patchRead_fails (host : ReadHost) (fails : ¬ host.Works) (file : List Byte) :
    ∃ fuel lines, patchRead host fuel file = some lines := by
  refine ⟨0, ?_⟩
  unfold patchRead
  by_cases opened : host.opened = false
  · exact ⟨_, if_pos opened⟩
  by_cases allocated : host.allocated = false
  · rw [if_neg opened]
    exact ⟨_, if_pos allocated⟩
  by_cases read : host.read = false
  · rw [if_neg opened, if_neg allocated]
    exact ⟨_, if_pos read⟩
  · exact absurd ⟨eq_true_of_ne_false opened, eq_true_of_ne_false allocated,
      eq_true_of_ne_false read⟩ fails

theorem patchRead_works (host : ReadHost) (works : host.Works) (fuel : Nat) (file : List Byte) :
    patchRead host fuel file = readPatchData fuel file := by
  obtain ⟨opened, allocated, read⟩ := works
  unfold patchRead
  rw [opened, allocated, read]
  rfl

/-- The two words of the magic, when the file has them and the flip ends. -/
theorem readPatchData_flipped (fuel : Nat) (file : List Byte) (whole : 8 ≤ file.length)
    (ran : flip fuel 2#32 (hostWords file) = some (flipped (hostWords file))) :
    ∃ first second, readPatchData fuel file =
      if file.take 8 ≠ magic then some [.invalidMagic first second]
      else (flipped (hostWords file))[2]?.bind fun version =>
        if version ≠ 1#32 then some [.unsupportedVersion (getbe32 version)]
        else readChunks (flipped (hostWords file)) fuel 8#32 := by
  have length := flipped_length (hostWords file)
  rw [hostWords_length] at length
  obtain ⟨first, isFirst⟩ : ∃ first, (flipped (hostWords file))[0]? = some first :=
    ⟨_, List.getElem?_eq_getElem (by omega)⟩
  obtain ⟨second, isSecond⟩ : ∃ second, (flipped (hostWords file))[1]? = some second :=
    ⟨_, List.getElem?_eq_getElem (by omega)⟩
  refine ⟨first, second, ?_⟩
  unfold readPatchData
  rw [ran]
  simp only [Option.bind_eq_bind, Option.bind_some]
  rw [isFirst, isSecond]
  rfl

theorem readPatchData_iff (file : List Byte) :
    (∃ fuel lines, readPatchData fuel file = some lines) ↔ Readable file := by
  have length := flipped_length (hostWords file)
  rw [hostWords_length] at length
  unfold Readable
  constructor
  · intro ⟨fuel, lines, result⟩
    have bound : file.length / 4 < 2 ^ 32 := by
      apply Nat.lt_of_not_le
      intro huge
      unfold readPatchData at result
      rw [flip_huge _ (by rwa [hostWords_length])] at result
      cases result
    have whole : 8 ≤ file.length := by
      apply Nat.le_of_not_lt
      intro short
      unfold readPatchData at result
      cases ran : flip fuel 2#32 (hostWords file) with
      | none =>
          rw [ran] at result
          cases result
      | some patchData =>
          have absent : patchData[1]? = none := by
            rw [flip_unique _ _ (by rwa [hostWords_length]) fuel ran]
            exact List.getElem?_eq_none (by omega)
          rw [ran] at result
          simp only [Option.bind_eq_bind, Option.bind_some] at result
          rw [absent] at result
          simp only [Option.bind_none, Option.bind_fun_none] at result
          cases result
    refine ⟨bound, whole, fun isMagic => ?_⟩
    cases ran : flip fuel 2#32 (hostWords file) with
    | none =>
        unfold readPatchData at result
        rw [ran] at result
        cases result
    | some patchData =>
        rw [flip_unique _ _ (by rwa [hostWords_length]) fuel ran] at ran
        obtain ⟨first, second, flippedResult⟩ := readPatchData_flipped fuel file whole ran
        rw [result, if_neg (not_not_intro isMagic)] at flippedResult
        constructor
        · apply Nat.le_of_not_lt
          intro short
          rw [List.getElem?_eq_none (show (flipped (hostWords file)).length ≤ 2 by omega)]
            at flippedResult
          cases flippedResult
        · intro version
          rw [version, Option.bind_some, if_neg (not_not_intro rfl)] at flippedResult
          exact chain_of_readChunks fuel _ lines flippedResult.symm
  · intro ⟨bound, whole, body⟩
    have enough : ∀ more, flip ((hostWords file).length + 1 + more) 2#32 (hostWords file) =
        some (flipped (hostWords file)) :=
      fun more => flip_flipped _ (by rwa [hostWords_length]) _ (by omega)
    by_cases isMagic : file.take 8 = magic
    · obtain ⟨versioned, chain⟩ := body isMagic
      obtain ⟨version, isVersion⟩ : ∃ version, (flipped (hostWords file))[2]? = some version :=
        ⟨_, List.getElem?_eq_getElem (by omega)⟩
      by_cases supported : version = 1#32
      · subst supported
        obtain ⟨lines, n, ran⟩ := (chain isVersion).readChunks
        obtain ⟨first, second, result⟩ := readPatchData_flipped _ file whole (enough n)
        rw [if_neg (not_not_intro isMagic), isVersion, Option.bind_some,
          if_neg (not_not_intro rfl), ran _ (by omega)] at result
        exact ⟨_, lines, result⟩
      · obtain ⟨first, second, result⟩ := readPatchData_flipped _ file whole (enough 0)
        rw [if_neg (not_not_intro isMagic), isVersion, Option.bind_some, if_pos supported] at result
        exact ⟨_, _, result⟩
    · obtain ⟨first, second, result⟩ := readPatchData_flipped _ file whole (enough 0)
      rw [if_pos isMagic] at result
      exact ⟨_, _, result⟩

end Terminates

section RoundTrip

/-- The words of a chunk in the file. -/
def Item.words : Item → List Word
  | .data base words => 0#32 :: base :: BitVec.ofNat 32 (4 * words.val.length) :: words.val
  | .memset base lenWords => [1#32, base, BitVec.ofNat 32 (4 * lenWords.val)]

/-- What has to be printed for a chunk. -/
def Item.line : Item → Line
  | .data base words => .data base (BitVec.ofNat 32 (4 * words.val.length))
  | .memset base lenWords => .memset base (BitVec.ofNat 32 (4 * lenWords.val))

/-- The words of a file: header, chunks and footer. -/
def fileWords (items : List Item) : Nat := 8 + (items.flatMap Item.words).length + 1

theorem write_words (patch : List Byte) (item : Item) :
    item.write patch = some (patch ++ item.words.flatMap bytes32) := by
  cases item with
  | data base words =>
      obtain ⟨words, bound⟩ := words
      obtain ⟨product, len⟩ := lenWords_bytes words.length bound
      have whole : bytesFrom (words.flatMap bytes32) 0 (4 * words.length) =
          some (words.flatMap bytes32) := by
        have length := flatMap_bytes32_length words
        unfold bytesFrom
        rw [if_pos (by omega), Nat.mul_zero, List.drop_zero, List.take_of_length_le (by omega)]
      change patchAddDiff patch (words.flatMap bytes32) 0 (BitVec.ofNat 32 words.length) base = _
      unfold patchAddDiff
      rw [len, whole, product]
      rfl
  | memset base lenWords =>
      obtain ⟨lenWords, bound⟩ := lenWords
      change some (patchAddMemset patch (BitVec.ofNat 32 lenWords) base) = _
      unfold patchAddMemset
      rw [(lenWords_bytes lenWords bound).1]
      rfl

theorem writeItems_words (items : List Item) (patch : List Byte) :
    items.foldlM Item.write patch =
      some (patch ++ (items.flatMap Item.words).flatMap bytes32) := by
  induction items generalizing patch with
  | nil =>
      rw [List.flatMap_nil, List.flatMap_nil, List.append_nil]
      rfl
  | cons item rest ih =>
      rw [List.foldlM_cons, write_words, List.flatMap_cons, List.flatMap_append,
        ← List.append_assoc]
      exact ih _

/-- The file, with its header as bytes and the rest as words. -/
theorem writeFile_words (sha1 : Digest) (items : List Item) :
    writeFile sha1 items = some (magic ++ bytes32 1#32 ++ sha1 ++
      (items.flatMap Item.words ++ [0xFF#32]).flatMap bytes32) := by
  have front : (magic ++ bytes32 1#32).length = 12 := rfl
  have header : writePatchHeader.length = 32 := rfl
  have body : (items.flatMap Item.words ++ [0xFF#32]).flatMap bytes32 =
      (items.flatMap Item.words).flatMap bytes32 ++ bytes32 0xFF#32 := by
    rw [List.flatMap_append, List.flatMap_singleton]
  unfold writeFile
  rw [writeItems_words, Option.bind_eq_bind, Option.bind_some, body]
  generalize (items.flatMap Item.words).flatMap bytes32 = chunks
  have split : writePatchHeader ++ chunks ++ bytes32 0xFF#32 =
      writePatchHeader ++ (chunks ++ bytes32 0xFF#32) := List.append_assoc ..
  unfold writePatchFooterAndHash
  dsimp only
  rw [split, List.drop_left' header]
  unfold writePatchHeader
  rw [List.append_assoc (magic ++ bytes32 1#32), List.take_left' front]
  rfl

theorem hostWords_bytes32 (words : List Word) (rest : List Byte) :
    hostWords (words.flatMap bytes32 ++ rest) = words.map getbe32 ++ hostWords rest := by
  induction words with
  | nil => rfl
  | cons w words ih =>
      rw [List.flatMap_cons, List.append_assoc, List.map_cons, List.cons_append, ← ih]
      rfl

theorem getbe32_getbe32 (w : Word) : getbe32 (getbe32 w) = w := by
  have bytes : ∀ b0 b1 b2 b3 : Byte,
      getbe32 ((b3 ++ b2) ++ (b1 ++ b0)) = (b0 ++ b1) ++ (b2 ++ b3) := by
    intro b0 b1 b2 b3
    unfold getbe32
    have lower : ∀ i, i + 8 ≤ 16 →
        ((b3 ++ b2) ++ (b1 ++ b0)).extractLsb' i 8 = (b1 ++ b0).extractLsb' i 8 :=
      fun i fits => BitVec.extractLsb'_append_eq_of_add_le fits
    have upper : ∀ i, ((b3 ++ b2) ++ (b1 ++ b0)).extractLsb' (16 + i) 8 =
        (b3 ++ b2).extractLsb' i 8 := by
      intro i
      rw [BitVec.extractLsb'_append_eq_of_le (Nat.le_add_right _ _), Nat.add_sub_cancel_left]
    rw [lower 0 (by decide), lower 8 (by decide), upper 0, upper 8,
      BitVec.extractLsb'_append_eq_left, BitVec.extractLsb'_append_eq_left,
      BitVec.extractLsb'_append_eq_right, BitVec.extractLsb'_append_eq_right]
  rw [show getbe32 w = (w.extractLsb' 0 8 ++ w.extractLsb' 8 8) ++
    (w.extractLsb' 16 8 ++ w.extractLsb' 24 8) from rfl, bytes]
  exact bytes32_join w

/-- The header of a file, as it is read. -/
def headerWords (sha1 : Digest) : List Word :=
  hostWords magic ++ 1#32 :: (hostWords sha1).map getbe32

theorem headerWords_length (sha1 : Digest) : (headerWords sha1).length = 8 := by
  unfold headerWords
  rw [List.length_append, List.length_cons, List.length_map, hostWords_length, hostWords_length,
    sha1.property]
  rfl

theorem flipped_file (sha1 : Digest) (body : List Word) :
    flipped (hostWords (magic ++ bytes32 1#32 ++ sha1 ++ body.flatMap bytes32)) =
      headerWords sha1 ++ body := by
  have version : ∀ rest, hostWords (bytes32 1#32 ++ rest) = getbe32 1#32 :: hostWords rest :=
    fun rest => hostWords_bytes32 [1#32] rest
  have tail : hostWords (body.flatMap bytes32) = body.map getbe32 := by
    have words := hostWords_bytes32 body []
    rwa [List.append_nil, show hostWords [] = [] from rfl, List.append_nil] at words
  have front : (hostWords magic).length = 2 := rfl
  have twice : getbe32 ∘ getbe32 = id := funext getbe32_getbe32
  rw [List.append_assoc, List.append_assoc, hostWords_append magic _ rfl, version,
    hostWords_append sha1 _ (by rw [sha1.property]), tail]
  unfold flipped headerWords
  rw [List.take_left' front, List.drop_left' front, List.map_cons, List.map_append, List.map_map,
    twice, List.map_id, getbe32_getbe32, List.append_assoc, List.cons_append]

theorem layout_get (front words back : List Word) (i : Nat) (inside : i < words.length) :
    (front ++ (words ++ back))[front.length + i]? = some words[i] := by
  rw [List.getElem?_append_right (Nat.le_add_right _ _), Nat.add_sub_cancel_left,
    List.getElem?_append_left inside, List.getElem?_eq_getElem inside]

theorem offset_toNat (n i : Nat) (fits : n + i < 2 ^ 32) :
    (BitVec.ofNat 32 n + BitVec.ofNat 32 i).toNat = n + i := by
  rw [← BitVec.ofNat_add, BitVec.toNat_ofNat, Nat.mod_eq_of_lt fits]

/-- The chunks of a list are read back from where they start. -/
theorem readChunks_items (items : List Item) (patchData front : List Word)
    (layout : patchData = front ++ (items.flatMap Item.words ++ [0xFF#32]))
    (bound : patchData.length < 2 ^ 32) :
    ∃ n, ∀ fuel, n ≤ fuel → readChunks patchData fuel (BitVec.ofNat 32 front.length) =
      some (items.map Item.line ++ [.eof]) := by
  induction items generalizing front with
  | nil =>
      have length := congrArg List.length layout
      rw [List.flatMap_nil, List.nil_append, List.length_append, List.length_singleton] at length
      have here : patchData[(BitVec.ofNat 32 front.length).toNat]? = some 0xFF#32 := by
        rw [← BitVec.add_zero (BitVec.ofNat 32 front.length), offset_toNat _ 0 (by omega), layout]
        exact layout_get front [0xFF#32] [] 0 (by decide)
      apply readChunks_cons (fun fuel => readChunks_word fuel _ _ here (by decide) (by decide))
      apply readChunks_nil
      rw [offset_toNat _ 1 (by omega)]
      omega
  | cons item rest ih =>
      rw [List.flatMap_cons, List.append_assoc] at layout
      have length := congrArg List.length layout
      rw [List.length_append, List.length_append] at length
      have rest_ok := ih (front ++ item.words) (by rw [layout, List.append_assoc])
      rw [List.length_append] at rest_ok
      have get : ∀ i, (inside : i < item.words.length) →
          patchData[(BitVec.ofNat 32 front.length + BitVec.ofNat 32 i).toNat]? =
            some item.words[i] := by
        intro i inside
        rw [offset_toNat _ i (by omega), layout]
        exact layout_get front item.words _ i inside
      have header : 3 ≤ item.words.length := by
        cases item <;> simp [Item.words]
      have type := get 0 (by omega)
      have first := get 1 (by omega)
      have second := get 2 (by omega)
      rw [BitVec.add_zero] at type
      cases item with
      | data base words =>
          obtain ⟨words, short⟩ := words
          have count : (BitVec.ofNat 32 (4 * words.length) / 4#32 : Word) =
              BitVec.ofNat 32 words.length := by
            apply BitVec.eq_of_toNat_eq
            rw [BitVec.toNat_udiv, BitVec.toNat_ofNat, BitVec.toNat_ofNat, Nat.mod_eq_of_lt short,
              Nat.mod_eq_of_lt (show 4 < 2 ^ 32 by decide)]
            rw [Nat.mul_div_cancel_left _ (show 0 < 4 by decide), BitVec.toNat_ofNat,
              Nat.mod_eq_of_lt (by omega)]
          apply readChunks_cons (fun fuel => readChunks_data fuel _ _ _ type first second)
          change ∃ n, ∀ fuel, n ≤ fuel → readChunks patchData fuel (BitVec.ofNat 32 front.length +
            (BitVec.ofNat 32 3 + BitVec.ofNat 32 (4 * words.length) / 4#32)) = _
          rw [count, ← BitVec.ofNat_add, ← BitVec.ofNat_add, Nat.add_comm 3]
          exact rest_ok
      | memset base lenWords =>
          apply readChunks_cons (fun fuel => readChunks_memset fuel _ _ _ type first second)
          change ∃ n, ∀ fuel, n ≤ fuel → readChunks patchData fuel
            (BitVec.ofNat 32 front.length + BitVec.ofNat 32 3) = _
          rw [← BitVec.ofNat_add]
          exact rest_ok

def ReadHost.working : ReadHost := ⟨true, true, true⟩

theorem roundTrip_iff (sha1 : Digest) (items : List Item) :
    (∃ fuel file, writeFile sha1 items = some file ∧
      patchRead .working fuel file = some (items.map Item.line ++ [.eof])) ↔
      fileWords items < 2 ^ 32 := by
  have works : ReadHost.working.Works := ⟨rfl, rfl, rfl⟩
  have written := writeFile_words sha1 items
  have words := flipped_file sha1 (items.flatMap Item.words ++ [0xFF#32])
  have front : (magic ++ bytes32 1#32 ++ sha1).take 8 = magic := by
    rw [List.append_assoc]
    exact List.take_left' rfl
  generalize isFile : magic ++ bytes32 1#32 ++ sha1 ++
    (items.flatMap Item.words ++ [0xFF#32]).flatMap bytes32 = file at written words
  have length : (hostWords file).length = fileWords items := by
    rw [← flipped_length, words, List.length_append, headerWords_length, List.length_append]
    rfl
  have long : 32 ≤ file.length := by
    rw [← isFile, List.length_append, List.length_append, sha1.property]
    exact Nat.le_add_right 32 _
  constructor
  · intro ⟨fuel, file', result, read⟩
    rw [written] at result
    cases result
    rw [patchRead_works _ works] at read
    apply Nat.lt_of_not_le
    intro huge
    unfold readPatchData at read
    rw [flip_huge _ (by rwa [length])] at read
    cases read
  · intro bound
    rw [← length] at bound
    have isMagic : file.take 8 = magic := by
      rw [← isFile, List.take_append_of_le_length, front]
      rw [List.length_append, sha1.property]
      decide
    have version : (flipped (hostWords file))[2]? = some 1#32 := by
      rw [words]
      rfl
    obtain ⟨n, ran⟩ := readChunks_items items (flipped (hostWords file)) (headerWords sha1) words
      (by rwa [flipped_length])
    rw [headerWords_length] at ran
    obtain ⟨first, second, result⟩ := readPatchData_flipped _ file (by omega)
      (flip_flipped _ bound ((hostWords file).length + 1 + n) (by omega))
    rw [if_neg (not_not_intro isMagic), version, Option.bind_some, if_neg (not_not_intro rfl)]
      at result
    refine ⟨(hostWords file).length + 1 + n, file, written, ?_⟩
    rw [patchRead_works _ works, result]
    exact ran _ (by omega)

end RoundTrip

section Files

/-- A file that was written is read back if and only if it is shorter than 2 ^ 34 bytes, and any
file is read without leaving it if and only if it has what is read. -/
theorem patchRead_iff (sha1 : Digest) (items : List Item) (host : ReadHost) (file : List Byte) :
    ((∃ fuel file, writeFile sha1 items = some file ∧
        patchRead .working fuel file = some (items.map Item.line ++ [.eof])) ↔
        fileWords items < 2 ^ 32) ∧
      ((∃ fuel lines, patchRead host fuel file = some lines) ↔ (host.Works → Readable file)) := by
  refine ⟨roundTrip_iff sha1 items, ?_⟩
  by_cases works : host.Works
  · simp only [patchRead_works host works, readPatchData_iff, works, true_imp_iff]
  · exact ⟨fun _ works' => absurd works' works, fun _ => patchRead_fails host works file⟩

/-- A file that was cut off behind the type of its first chunk. -/
def truncated : List Byte := writePatchHeader ++ bytes32 0#32

theorem truncated_read : ¬ ∃ fuel lines, patchRead .working fuel truncated = some lines := by
  have works : ReadHost.working.Works := ⟨rfl, rfl, rfl⟩
  simp only [patchRead_works _ works, readPatchData_iff]
  intro ⟨_, _, body⟩
  have chain := (body (by decide)).2 (by decide)
  have here : (flipped (hostWords truncated))[8]? = some 0#32 := by decide
  have behind : (flipped (hostWords truncated))[9]? = none := by decide
  cases chain with
  | done _ past => exact absurd past (by decide)
  | data _ offs _ _ first => cases behind.symm.trans first
  | memset _ _ _ type => cases here.symm.trans type
  | word _ type other notData =>
      cases here.symm.trans other
      exact notData rfl

end Files

end Stroopwafel.SaltPatch
