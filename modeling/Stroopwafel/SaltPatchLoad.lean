import Stroopwafel.SaltPatch

set_option autoImplicit false

namespace Stroopwafel.SaltPatch

open Memory

/-- What a chunk does, apart from how it is written to the file. -/
inductive Chunk where
  | data (addr : Word) (bytes : List Byte)
  | memset (addr : Word) (len : Nat)

def Chunk.addr : Chunk → Word
  | .data addr _ | .memset addr _ => addr

def Chunk.bytes : Chunk → List Byte
  | .data _ bytes => bytes
  | .memset _ len => List.replicate len 0#8

def Chunk.encode : Chunk → List Byte
  | .data addr bytes => genericChunk 0#32 addr (BitVec.ofNat 32 bytes.length) ++ bytes
  | .memset addr len => genericChunk 1#32 addr (BitVec.ofNat 32 len)

def Chunk.apply (m : Mem) (chunk : Chunk) : Mem := store m chunk.addr chunk.bytes

section Execute

theorem execute_data (fuel : Nat) (m : Mem) (addr : Word) (bytes rest : List Byte)
    (bound : bytes.length < 2 ^ 32) :
    execute (fuel + 1) m ((Chunk.data addr bytes).encode ++ rest) =
      execute fuel (store m addr bytes) rest := by
  have length : (BitVec.ofNat 32 bytes.length).toNat = bytes.length := by
    rw [BitVec.toNat_ofNat, Nat.mod_eq_of_lt bound]
  simp only [Chunk.encode, genericChunk, bytes32, List.cons_append, List.nil_append, execute,
    bytes32_join, if_true, length, List.length_append, List.take_left, List.drop_left,
    Nat.le_add_right]

theorem execute_memset (fuel : Nat) (m : Mem) (addr : Word) (len : Nat) (rest : List Byte)
    (bound : len < 2 ^ 32) :
    execute (fuel + 1) m ((Chunk.memset addr len).encode ++ rest) =
      execute fuel (store m addr (List.replicate len 0#8)) rest := by
  have length : (BitVec.ofNat 32 len).toNat = len := by
    rw [BitVec.toNat_ofNat, Nat.mod_eq_of_lt bound]
  have other : ¬ (1#32 : Word) = 0#32 := by decide
  simp only [Chunk.encode, genericChunk, bytes32, List.cons_append, List.nil_append, execute,
    bytes32_join, if_neg other, if_true, length]

/-- The file of patches is executed chunk by chunk. -/
theorem execute_chunks (m : Mem) (chunks : List Chunk) (fuel : Nat)
    (bounds : ∀ chunk ∈ chunks, chunk.bytes.length < 2 ^ 32) (enough : chunks.length ≤ fuel) :
    execute fuel m (chunks.flatMap Chunk.encode) = some (chunks.foldl Chunk.apply m) := by
  induction chunks generalizing m fuel with
  | nil => cases fuel <;> rfl
  | cons chunk rest ih =>
      obtain ⟨fuel, rfl⟩ := Nat.exists_eq_add_of_le' (show 1 ≤ fuel by simp at enough; omega)
      have bound := bounds chunk (List.mem_cons_self ..)
      have rest_ok := fun m => ih m fuel
        (fun other member => bounds other (List.mem_cons_of_mem _ member))
        (by simp at enough; omega)
      rw [List.flatMap_cons, List.foldl_cons]
      cases chunk with
      | data addr bytes =>
          rw [execute_data fuel m addr bytes _ bound]
          exact rest_ok _
      | memset addr len =>
          rw [execute_memset fuel m addr len _ (by simpa [Chunk.bytes] using bound)]
          exact rest_ok _

theorem encode_length (chunks : List Chunk) :
    chunks.length ≤ (chunks.flatMap Chunk.encode).length := by
  induction chunks with
  | nil => exact Nat.le_refl _
  | cons chunk rest ih =>
      have one : 1 ≤ chunk.encode.length := by
        cases chunk <;> simp only [Chunk.encode, genericChunk, List.length_append,
          bytes32_length] <;> omega
      rw [List.flatMap_cons, List.length_append, List.length_cons]
      omega

end Execute

section Buffers

theorem sizeRound_le (size : Nat) : size ≤ sizeRound size := by
  unfold sizeRound
  omega

theorem sizeRound_words (size : Nat) : 4 * (sizeRound size / 4) = sizeRound size := by
  unfold sizeRound
  omega

theorem contents_length (file : List Byte) : (contents file).length = sizeRound file.length := by
  have le := sizeRound_le file.length
  rw [contents, List.length_append, List.length_replicate]
  omega

theorem bytesFrom_get (data : List Byte) (i len : Nat) (inside : 4 * i + len ≤ data.length) :
    ∃ bytes, bytesFrom data i len = some bytes ∧ bytes.length = len ∧
      ∀ j < len, bytes[j]? = data[4 * i + j]? := by
  refine ⟨(data.drop (4 * i)).take len, if_pos inside, ?_, ?_⟩
  · rw [List.length_take, List.length_drop]
    omega
  · intro j within
    rw [List.getElem?_take_of_lt within, List.getElem?_drop]

theorem word_some (data : List Byte) (i : Nat) (inside : i < data.length / 4) :
    ∃ bytes, word data i = some bytes ∧ ∀ j < 4, bytes[j]? = data[4 * i + j]? := by
  obtain ⟨bytes, taken, -, get⟩ := bytesFrom_get data i 4 (by omega)
  exact ⟨bytes, taken, get⟩

theorem word_none (data : List Byte) (i : Nat) (outside : data.length ≤ 4 * i) :
    word data i = none :=
  if_neg (by omega)

end Buffers

/-- `scan` stops behind the words that meet the test. -/
theorem scan_spec (test : Nat → Option Bool) (n fuel i : Nat)
    (inside : ∀ x < n, ∃ b, test x = some b) (first : test i = some true) (before : i < n)
    (enough : n ≤ i + fuel) :
    ∃ k, scan test n fuel i = some k ∧ i < k ∧ k ≤ n ∧ ∀ x, i ≤ x → x < k → test x = some true := by
  induction fuel generalizing i with
  | zero => omega
  | succ fuel ih =>
      have only : ∀ x, i ≤ x → x < i + 1 → test x = some true := by
        intro x lower upper
        rw [show x = i by omega]
        exact first
      rw [scan, first]
      by_cases last : i + 1 ≥ n
      · refine ⟨i + 1, ?_, Nat.lt_succ_self i, before, only⟩
        simp only [Option.bind_eq_bind, Option.bind_some, if_true, if_pos last, pure]
      · obtain ⟨b, next⟩ := inside (i + 1) (by omega)
        simp only [Option.bind_eq_bind, Option.bind_some, if_true, if_neg last]
        cases b with
        | true =>
            obtain ⟨k, stop, lower, upper, met⟩ := ih (i + 1) next (by omega) (by omega)
            refine ⟨k, stop, by omega, upper, ?_⟩
            intro x from_ below
            by_cases here : x < i + 1
            · exact only x from_ here
            · exact met x (by omega) below
        | false =>
            obtain ⟨fuel, rfl⟩ := Nat.exists_eq_add_of_le' (show 1 ≤ fuel by omega)
            refine ⟨i + 1, ?_, Nat.lt_succ_self i, before, only⟩
            rw [scan, next]
            rfl

/-- `scan` does not pass a word that cannot be read. -/
theorem scan_inside (test : Nat → Option Bool) (n words : Nat) (outside : test words = none)
    (shorter : words < n) (fuel i : Nat) (within : i ≤ words) (k : Nat)
    (stop : scan test n fuel i = some k) : i ≤ k ∧ k ≤ words := by
  induction fuel generalizing i with
  | zero =>
      obtain rfl := Option.some.inj stop
      exact ⟨Nat.le_refl i, within⟩
  | succ fuel ih =>
      rw [scan] at stop
      cases first : test i with
      | none =>
          rw [first] at stop
          cases stop
      | some b =>
          have before : i ≠ words := by
            intro here
            rw [here, outside] at first
            cases first
          rw [first] at stop
          cases b with
          | true =>
              simp only [Option.bind_eq_bind, Option.bind_some, if_true,
                if_neg (show ¬ i + 1 ≥ n by omega)] at stop
              have next := ih (i + 1) (by omega) stop
              omega
          | false =>
              obtain rfl := Option.some.inj stop
              exact ⟨Nat.le_refl i, within⟩

theorem scan_advances (test : Nat → Option Bool) (n fuel i : Nat) (first : test i = some true)
    (some_ : fuel ≠ 0) (k : Nat) (stop : scan test n fuel i = some k) : i < k := by
  have later : ∀ fuel i, scan test n fuel i = some k → i ≤ k := by
    intro fuel
    induction fuel with
    | zero =>
        intro i stop
        exact Nat.le_of_eq (Option.some.inj stop)
    | succ fuel ih =>
        intro i stop
        rw [scan] at stop
        cases found : test i with
        | none =>
            rw [found] at stop
            cases stop
        | some b =>
            rw [found] at stop
            cases b with
            | true =>
                simp only [Option.bind_eq_bind, Option.bind_some, if_true] at stop
                split at stop
                next => exact Nat.le_of_lt (Nat.lt_of_succ_le (Nat.le_of_eq (Option.some.inj stop)))
                next => exact Nat.le_of_lt (Nat.lt_of_succ_le (ih (i + 1) stop))
            | false => exact Nat.le_of_eq (Option.some.inj stop)
  obtain ⟨fuel, rfl⟩ := Nat.exists_eq_add_of_le' (show 1 ≤ fuel by omega)
  rw [scan, first] at stop
  simp only [Option.bind_eq_bind, Option.bind_some, if_true] at stop
  split at stop
  next => exact Nat.lt_of_succ_le (Nat.le_of_eq (Option.some.inj stop))
  next => exact Nat.lt_of_succ_le (later fuel (i + 1) stop)

/-- `after` up to word `i`, from there on what `m₀` holds at `base`. -/
def mixed (m₀ : Mem) (base : Word) (after : Nat → Byte) (i : Nat) : Nat → Byte :=
  fun x => if x < 4 * i then after x else m₀ (base + BitVec.ofNat 32 x)

def Partly (m₀ m : Mem) (base : Word) (size : Nat) (after : Nat → Byte) (i : Nat) : Prop :=
  Holds m base size (mixed m₀ base after i)

theorem mixed_below (m₀ : Mem) (base : Word) (after : Nat → Byte) (i x : Nat)
    (below : x < 4 * i) : mixed m₀ base after i x = after x :=
  if_pos below

theorem mixed_above (m₀ : Mem) (base : Word) (after : Nat → Byte) (i x : Nat)
    (above : 4 * i ≤ x) : mixed m₀ base after i x = m₀ (base + BitVec.ofNat 32 x) :=
  if_neg (Nat.not_lt_of_le above)

section Partly

variable {m₀ m : Mem} {base : Word} {size : Nat} {after : Nat → Byte} {i : Nat}

theorem partly_start (m₀ : Mem) (base : Word) (size : Nat) (after : Nat → Byte) :
    Partly m₀ m₀ base size after 0 :=
  fun x _ => (mixed_above m₀ base after 0 x (Nat.zero_le x)).symm

theorem Partly.chunk (partly : Partly m₀ m base size after i) (bound : size ≤ 2 ^ 32) (k : Nat)
    (later : i ≤ k) (inside : 4 * k ≤ size) (bytes : List Byte)
    (length : bytes.length = 4 * (k - i))
    (values : ∀ j < 4 * (k - i), bytes[j]? = some (after (4 * i + j))) :
    Partly m₀ (store m (base + BitVec.ofNat 32 (4 * i)) bytes) base size after k := by
  intro x within
  rw [partly.store bound (4 * i) bytes (by omega) x within]
  by_cases lower : x < 4 * i
  · rw [Layout.overlay_before _ _ _ x lower, mixed_below _ _ _ _ x lower,
      mixed_below _ _ _ _ x (by omega)]
  · obtain ⟨j, rfl⟩ := Nat.exists_eq_add_of_le (Nat.le_of_not_lt lower)
    by_cases covered : j < bytes.length
    · have value := values j (by omega)
      rw [List.getElem?_eq_getElem covered] at value
      rw [Layout.overlay_inside _ _ _ j covered, mixed_below _ _ _ _ _ (by omega)]
      exact Option.some.inj value
    · rw [Layout.overlay_after _ _ _ _ (by omega), mixed_above _ _ _ _ _ (by omega),
        mixed_above _ _ _ _ _ (by omega)]

theorem Partly.skip (partly : Partly m₀ m base size after i)
    (same : ∀ j < 4, m₀ (base + BitVec.ofNat 32 (4 * i + j)) = after (4 * i + j)) :
    Partly m₀ m base size after (i + 1) := by
  intro x within
  rw [partly x within]
  by_cases lower : x < 4 * i
  · rw [mixed_below _ _ _ _ x lower, mixed_below _ _ _ _ x (by omega)]
  · by_cases word : x < 4 * (i + 1)
    · obtain ⟨j, rfl⟩ := Nat.exists_eq_add_of_le (Nat.le_of_not_lt lower)
      rw [mixed_above _ _ _ _ _ (by omega), mixed_below _ _ _ _ _ word, same j (by omega)]
    · rw [mixed_above _ _ _ _ x (by omega), mixed_above _ _ _ _ x (by omega)]

theorem Partly.holds (partly : Partly m₀ m base size after i) (whole : size ≤ 4 * i) :
    Holds m base size after := by
  intro x within
  rw [partly x within, mixed_below _ _ _ _ x (by omega)]

end Partly

section Chunks

theorem bytesOf_get (data : List Byte) (x : Nat) (inside : x < data.length) :
    data[x]? = some (bytesOf data x) := by
  rw [bytesOf, List.getElem?_eq_getElem inside, Option.getD_some]

theorem lenWords_bytes (words : Nat) (bound : 4 * words < 2 ^ 32) :
    BitVec.ofNat 32 words * 4#32 = BitVec.ofNat 32 (4 * words) ∧
      (BitVec.ofNat 32 words * 4#32).toNat = 4 * words := by
  have product : BitVec.ofNat 32 words * 4#32 = BitVec.ofNat 32 (4 * words) := by
    rw [Nat.mul_comm, BitVec.ofNat_mul]
  refine ⟨product, ?_⟩
  rw [product, BitVec.toNat_ofNat, Nat.mod_eq_of_lt bound]

theorem patchAddDiff_chunk (patch data : List Byte) (i k : Nat) (base : Word) (order : i ≤ k)
    (inside : 4 * k ≤ data.length) (bound : data.length < 2 ^ 32) :
    ∃ bytes, patchAddDiff patch data i (BitVec.ofNat 32 (k - i)) base =
        some (patch ++ (Chunk.data base bytes).encode) ∧
      bytes.length = 4 * (k - i) ∧
      ∀ j < 4 * (k - i), bytes[j]? = some (bytesOf data (4 * i + j)) := by
  obtain ⟨product, len⟩ := lenWords_bytes (k - i) (by omega)
  obtain ⟨bytes, taken, length, get⟩ := bytesFrom_get data i (4 * (k - i)) (by omega)
  refine ⟨bytes, ?_, length, ?_⟩
  · rw [patchAddDiff, len, taken, product, Chunk.encode, length]
    rfl
  · intro j within
    rw [get j within]
    exact bytesOf_get data _ (by omega)

theorem patchAddMemset_chunk (patch : List Byte) (words : Nat) (base : Word)
    (bound : 4 * words < 2 ^ 32) :
    patchAddMemset patch (BitVec.ofNat 32 words) base =
      patch ++ (Chunk.memset base (4 * words)).encode := by
  rw [patchAddMemset, (lenWords_bytes words bound).1, Chunk.encode]

theorem differ_some (unpatched patched : List Byte) (i : Nat) (insideU : i < unpatched.length / 4)
    (insideP : i < patched.length / 4) :
    ∃ b, differ unpatched patched i = some b ∧
      (b = false → ∀ j < 4, unpatched[4 * i + j]? = patched[4 * i + j]?) := by
  obtain ⟨u, wordU, getU⟩ := word_some unpatched i insideU
  obtain ⟨p, wordP, getP⟩ := word_some patched i insideP
  refine ⟨decide (u ≠ p), ?_, ?_⟩
  · simp only [differ, wordU, wordP]
    rfl
  · intro same j within
    have equal : u = p := by simpa using same
    rw [← getU j within, ← getP j within, equal]

theorem isZero_some (data : List Byte) (i : Nat) (inside : i < data.length / 4) :
    ∃ b, isZero data i = some b ∧ (b = true → ∀ j < 4, data[4 * i + j]? = some 0#8) := by
  obtain ⟨bytes, taken, get⟩ := word_some data i inside
  refine ⟨decide (bytes = [0#8, 0#8, 0#8, 0#8]), ?_, ?_⟩
  · simp only [isZero, taken]
    rfl
  · intro zero j within
    rw [← get j within, of_decide_eq_true zero]
    match j, within with
    | 0, _ | 1, _ | 2, _ | 3, _ => rfl

end Chunks

/-- The chunks patch what is left of the section from word `i` to word `n`. -/
structure Loads (base : Word) (size n : Nat) (before : Mem → Prop) (after : Nat → Byte) (i : Nat)
    (chunks : List Chunk) : Prop where
  bounds : ∀ chunk ∈ chunks, chunk.bytes.length < 2 ^ 32
  loads : ∀ m₀ m, before m₀ → Partly m₀ m base size after i →
    Partly m₀ (chunks.foldl Chunk.apply m) base size after n

theorem loads_nil (base : Word) (size n : Nat) (before : Mem → Prop) (after : Nat → Byte) :
    Loads base size n before after n [] :=
  ⟨nofun, fun _ _ _ partly => partly⟩

theorem Loads.cons {base : Word} {size n : Nat} {before : Mem → Prop} {after : Nat → Byte}
    {i k : Nat} {chunks : List Chunk} (loads : Loads base size n before after k chunks)
    (bound : size < 2 ^ 32) (order : i ≤ k) (inside : 4 * k ≤ size) (chunk : Chunk)
    (addr : chunk.addr = base + BitVec.ofNat 32 (4 * i))
    (length : chunk.bytes.length = 4 * (k - i))
    (values : ∀ j < 4 * (k - i), chunk.bytes[j]? = some (after (4 * i + j))) :
    Loads base size n before after i (chunk :: chunks) where
  bounds other member := by
    rcases List.mem_cons.mp member with here | there
    · rw [here, length]
      omega
    · exact loads.bounds other there
  loads m₀ m first partly := by
    apply loads.loads m₀ _ first
    rw [Chunk.apply, addr]
    exact partly.chunk (Nat.le_of_lt bound) k order inside chunk.bytes length values

section Loops

variable (base : Word) (n : Nat)

/-- The loop appends chunks for the words that differ. -/
theorem diffWords_chunks (unpatched patched : List Byte) (lengthU : unpatched.length = 4 * n)
    (lengthP : 4 * n ≤ patched.length) (bound : patched.length < 2 ^ 32) (fuel i : Nat)
    (patch : List Byte) (within : i ≤ n) (enough : n ≤ i + fuel) :
    ∃ chunks, diffWords base n unpatched patched fuel i patch =
        some (patch ++ chunks.flatMap Chunk.encode) ∧
      Loads base patched.length n (fun m => Holds m base (4 * n) (bytesOf unpatched))
        (bytesOf patched) i chunks := by
  induction fuel generalizing i patch with
  | zero =>
      have last : i = n := by omega
      subst last
      exact ⟨[], by simp [diffWords], loads_nil base patched.length i _ _⟩
  | succ fuel ih =>
      by_cases more : i < n
      · have inside : ∀ x < n, ∃ b, differ unpatched patched x = some b := fun x below =>
          (differ_some unpatched patched x (by omega) (by omega)).imp fun b found => found.1
        obtain ⟨b, test, same⟩ := differ_some unpatched patched i (by omega) (by omega)
        rw [diffWords, if_pos more, test]
        cases b with
        | true =>
            obtain ⟨k, stop, lower, upper, -⟩ :=
              scan_spec (differ unpatched patched) n n i inside test more (by omega)
            obtain ⟨bytes, added, length, values⟩ := patchAddDiff_chunk patch patched i k
              (base + BitVec.ofNat 32 (4 * i)) (by omega) (by omega) bound
            obtain ⟨chunks, ok, loads⟩ := ih k
              (patch ++ (Chunk.data (base + BitVec.ofNat 32 (4 * i)) bytes).encode) upper (by omega)
            refine ⟨.data (base + BitVec.ofNat 32 (4 * i)) bytes :: chunks, ?_, ?_⟩
            · simp only [Option.bind_eq_bind, Option.bind_some, if_true, stop, added, ok,
                List.flatMap_cons, List.append_assoc]
            · exact loads.cons bound (by omega) (by omega) _ rfl length values
        | false =>
            obtain ⟨chunks, ok, loads⟩ := ih (i + 1) patch more (by omega)
            refine ⟨chunks, ok, loads.bounds, ?_⟩
            intro m₀ m before partly
            apply loads.loads m₀ m before
            apply partly.skip
            intro j below
            rw [before _ (by omega), bytesOf, bytesOf, same rfl j below]
      · have last : i = n := by omega
        subst last
        rw [diffWords, if_neg more]
        exact ⟨[], by simp, loads_nil base patched.length i _ _⟩

/-- The loop appends chunks for runs of zero and of other words. -/
theorem addWords_chunks (data : List Byte) (length : data.length = 4 * n)
    (bound : data.length < 2 ^ 32) (fuel i : Nat) (patch : List Byte) (within : i ≤ n)
    (enough : n ≤ i + fuel) :
    ∃ chunks, addWords base n data fuel i patch =
        some (patch ++ chunks.flatMap Chunk.encode) ∧
      Loads base data.length n (fun _ => True) (bytesOf data) i chunks := by
  induction fuel generalizing i patch with
  | zero =>
      have last : i = n := by omega
      subst last
      exact ⟨[], by simp [addWords], loads_nil base data.length i _ _⟩
  | succ fuel ih =>
      by_cases more : i < n
      · have inside : ∀ x < n, ∃ b, isZero data x = some b := fun x below =>
          (isZero_some data x (by omega)).imp fun b found => found.1
        obtain ⟨b, test, -⟩ := isZero_some data i (by omega)
        rw [addWords, if_pos more, test]
        cases b with
        | true =>
            obtain ⟨k, stop, lower, upper, zero⟩ :=
              scan_spec (isZero data) n n i inside test more (by omega)
            have added := patchAddMemset_chunk patch (k - i) (base + BitVec.ofNat 32 (4 * i))
              (by omega)
            obtain ⟨chunks, ok, loads⟩ := ih k
              (patch ++ (Chunk.memset (base + BitVec.ofNat 32 (4 * i)) (4 * (k - i))).encode) upper
              (by omega)
            refine ⟨.memset (base + BitVec.ofNat 32 (4 * i)) (4 * (k - i)) :: chunks, ?_, ?_⟩
            · simp only [Option.bind_eq_bind, Option.bind_some, if_true, stop, added, ok,
                List.flatMap_cons, List.append_assoc]
            · apply loads.cons bound (by omega) (by omega) _ rfl
              · exact List.length_replicate
              · intro j below
                -- Byte `j` of the run lies in a word that was tested.
                obtain ⟨b, tested, clear⟩ := isZero_some data (i + j / 4) (by omega)
                rw [zero (i + j / 4) (by omega) (by omega)] at tested
                have byte := clear (Option.some.inj tested).symm (j % 4) (by omega)
                rw [show 4 * (i + j / 4) + j % 4 = 4 * i + j by omega,
                  bytesOf_get data _ (by omega)] at byte
                rw [byte, Chunk.bytes, List.getElem?_replicate, if_pos below]
        | false =>
            have other : (isZero data i).map (!·) = some true := by
              rw [test]
              rfl
            obtain ⟨k, stop, lower, upper, -⟩ :=
              scan_spec (fun i => (isZero data i).map (!·)) n n i
                (fun x below => (inside x below).elim fun b found => ⟨!b, by rw [found]; rfl⟩) other
                more (by omega)
            obtain ⟨bytes, added, length, values⟩ := patchAddDiff_chunk patch data i k
              (base + BitVec.ofNat 32 (4 * i)) (by omega) (by omega) bound
            obtain ⟨chunks, ok, loads⟩ := ih k
              (patch ++ (Chunk.data (base + BitVec.ofNat 32 (4 * i)) bytes).encode) upper (by omega)
            refine ⟨.data (base + BitVec.ofNat 32 (4 * i)) bytes :: chunks, ?_, ?_⟩
            · simp only [Option.bind_eq_bind, Option.bind_some, Bool.false_eq_true, if_false, stop,
                added, ok, List.flatMap_cons, List.append_assoc]
            · exact loads.cons bound (by omega) (by omega) _ rfl length values
      · have last : i = n := by omega
        subst last
        rw [addWords, if_neg more]
        exact ⟨[], by simp, loads_nil base data.length i _ _⟩

/-- The loop reads behind the shorter patched section. -/
theorem diffWords_outside (unpatched patched : List Byte) (words : Nat)
    (lengthU : unpatched.length = 4 * n) (lengthP : patched.length = 4 * words)
    (shorter : words < n) (fuel i : Nat) (patch : List Byte) (within : i ≤ words)
    (enough : n ≤ i + fuel) : diffWords base n unpatched patched fuel i patch = none := by
  have outside : differ unpatched patched words = none := by
    obtain ⟨u, wordU, -⟩ := word_some unpatched words (by omega)
    simp only [differ, wordU, word_none patched words (by omega)]
    rfl
  induction fuel generalizing i patch with
  | zero => omega
  | succ fuel ih =>
      rw [diffWords, if_pos (by omega)]
      cases test : differ unpatched patched i with
      | none => rfl
      | some b =>
          cases b with
          | true =>
              cases stop : scan (differ unpatched patched) n n i with
              | none =>
                  simp only [Option.bind_eq_bind, Option.bind_some, if_true]
                  rfl
              | some k =>
                  have reached := scan_inside (differ unpatched patched) n words outside shorter n i
                    within k stop
                  have advanced := scan_advances (differ unpatched patched) n n i test (by omega) k
                    stop
                  simp only [Option.bind_eq_bind, Option.bind_some, if_true]
                  cases patchAddDiff patch patched i (BitVec.ofNat 32 (k - i))
                      (base + BitVec.ofNat 32 (4 * i)) with
                  | none => rfl
                  | some patch' => exact ih k patch' reached.2 (by omega)
          | false =>
              simp only [Option.bind_eq_bind, Option.bind_some, Bool.false_eq_true, if_false]
              have before : i ≠ words := by
                intro here
                rw [here, outside] at test
                cases test
              exact ih (i + 1) patch (by omega) (by omega)

end Loops

theorem Loads.append {base : Word} {size n n' : Nat} {before : Mem → Prop} {after : Nat → Byte}
    {i : Nat} {chunks chunks' : List Chunk} (first : Loads base size n before after i chunks)
    (second : Loads base size n' before after n chunks') :
    Loads base size n' before after i (chunks ++ chunks') where
  bounds chunk member := by
    rcases List.mem_append.mp member with member | member
    · exact first.bounds chunk member
    · exact second.bounds chunk member
  loads m₀ m meets partly := by
    rw [List.foldl_append]
    exact second.loads m₀ _ meets (first.loads m₀ m meets partly)

section Files

variable (host : Host) (unpatched patched patch : List Byte) (base : Word)

theorem Loads.reproduces {before : Mem → Prop} {chunks : List Chunk}
    (loads : Loads base (contents patched).length (sizeRound patched.length / 4) before
      (bytesOf (contents patched)) 0 chunks) :
    Reproduces (some (0, patch ++ chunks.flatMap Chunk.encode)) patch base patched before := by
  refine ⟨0, _, rfl, Or.inr ⟨_, rfl, ?_⟩⟩
  intro m meets
  refine ⟨_, execute_chunks m chunks _ loads.bounds (encode_length chunks), ?_⟩
  have done := loads.loads m m meets (partly_start m base _ _)
  have words := sizeRound_words patched.length
  rw [contents_length] at done
  exact done.holds (Nat.le_of_eq words.symm)

theorem patchAddToFile_reproduces (bound : sizeRound patched.length < 2 ^ 32) :
    Reproduces (patchAddToFile host patched patch base) patch base patched fun _ => True := by
  have length := contents_length patched
  have words := sizeRound_words patched.length
  unfold patchAddToFile
  split
  · exact ⟨-1, patch, rfl, Or.inl (by decide)⟩
  · split
    · exact ⟨-2, patch, rfl, Or.inl (by decide)⟩
    · obtain ⟨chunks, ok, loads⟩ := addWords_chunks base (sizeRound patched.length / 4)
        (contents patched) (by omega) (by omega) (sizeRound patched.length / 4) 0 patch
        (Nat.zero_le _) (by omega)
      simp only [ok, Option.bind_eq_bind, Option.bind_some]
      exact loads.reproduces patched patch base

theorem patchDiffToFile_works (works : host.Works) :
    patchDiffToFile host unpatched patched patch base = (do
      let patch ← diffWords base (sizeRound unpatched.length / 4) (contents unpatched)
        (contents patched) (sizeRound unpatched.length / 4) 0 patch
      if sizeRound unpatched.length ≠ sizeRound patched.length then
        let lenWords := (BitVec.ofNat 64 (sizeRound patched.length) -
          BitVec.ofNat 64 (sizeRound unpatched.length)) / 4#64
        let patch ← patchAddDiff patch (contents patched) (sizeRound unpatched.length / 4)
          (lenWords.setWidth 32) (base + BitVec.ofNat 32 (sizeRound unpatched.length))
        return (0, patch)
      else return (0, patch)) := by
  simp only [patchDiffToFile, works.unpatchedAllocated, works.patchedAllocated,
    works.unpatchedRead, works.patchedRead, Bool.true_eq_false, or_self, if_false]

theorem patchDiffToFile_fails (fails : ¬ host.Works) (before : Mem → Prop) :
    Reproduces (patchDiffToFile host unpatched patched patch base) patch base patched before := by
  unfold patchDiffToFile
  split
  · exact ⟨-1, patch, rfl, Or.inl (by decide)⟩
  · split
    · exact ⟨-2, patch, rfl, Or.inl (by decide)⟩
    · split
      · exact ⟨-3, patch, rfl, Or.inl (by decide)⟩
      · rename_i allocated unpatchedRead patchedRead
        exact absurd ⟨by simp_all, by simp_all, by simp_all, by simp_all⟩ fails

/-- The number of words that the patched section has more. -/
theorem lenWords_eq (words more : Nat) (bound : 4 * (words + more) < 2 ^ 32) :
    ((BitVec.ofNat 64 (4 * (words + more)) - BitVec.ofNat 64 (4 * words)) / 4#64).setWidth 32 =
      BitVec.ofNat 32 more := by
  apply BitVec.eq_of_toNat_eq
  simp only [BitVec.toNat_setWidth, BitVec.toNat_udiv, BitVec.toNat_sub, BitVec.toNat_ofNat,
    Nat.reducePow, Nat.reduceMod]
  omega

theorem patchDiffToFile_longer (works : host.Works)
    (boundP : sizeRound patched.length < 2 ^ 32)
    (longer : sizeRound unpatched.length ≤ sizeRound patched.length) :
    Reproduces (patchDiffToFile host unpatched patched patch base) patch base patched
      fun m => Loaded m base unpatched := by
  have lengthU := contents_length unpatched
  have lengthP := contents_length patched
  have wordsU := sizeRound_words unpatched.length
  have wordsP := sizeRound_words patched.length
  obtain ⟨chunks, ok, loads⟩ := diffWords_chunks base (sizeRound unpatched.length / 4)
    (contents unpatched) (contents patched) (by omega) (by omega) (by omega)
    (sizeRound unpatched.length / 4) 0 patch (Nat.zero_le _) (by omega)
  rw [wordsU] at loads
  rw [patchDiffToFile_works host unpatched patched patch base works, ok]
  simp only [Option.bind_eq_bind, Option.bind_some]
  split
  next other =>
    obtain ⟨more, total⟩ := Nat.exists_eq_add_of_le
      (show sizeRound unpatched.length / 4 ≤ sizeRound patched.length / 4 by omega)
    obtain ⟨bytes, added, length, values⟩ := patchAddDiff_chunk
      (patch ++ chunks.flatMap Chunk.encode) (contents patched) (sizeRound unpatched.length / 4)
      (sizeRound patched.length / 4) (base + BitVec.ofNat 32 (sizeRound unpatched.length))
      (by omega) (by omega) (by omega)
    have lenWords := lenWords_eq (sizeRound unpatched.length / 4) more (by omega)
    rw [← total, wordsU, wordsP] at lenWords
    rw [total, Nat.add_sub_cancel_left] at added
    rw [lenWords, added]
    have last : Loads base (contents patched).length (sizeRound patched.length / 4)
        (fun m => Loaded m base unpatched) (bytesOf (contents patched))
        (sizeRound unpatched.length / 4)
        [.data (base + BitVec.ofNat 32 (sizeRound unpatched.length)) bytes] := by
      refine (loads_nil base _ _ _ _).cons (by omega) (by omega) (by omega)
        (.data (base + BitVec.ofNat 32 (sizeRound unpatched.length)) bytes) ?_ length values
      rw [wordsU]
      rfl
    have all := (loads.append last).reproduces patched patch base
    rw [List.flatMap_append, ← List.append_assoc, List.flatMap_singleton] at all
    exact all
  next same =>
    have equal : sizeRound unpatched.length = sizeRound patched.length := by omega
    have count : sizeRound unpatched.length / 4 = sizeRound patched.length / 4 := by omega
    rw [count] at loads
    exact loads.reproduces patched patch base

theorem patchDiffToFile_shorter (works : host.Works)
    (shorter : sizeRound patched.length < sizeRound unpatched.length) :
    patchDiffToFile host unpatched patched patch base = none := by
  have lengthU := contents_length unpatched
  have lengthP := contents_length patched
  have wordsU := sizeRound_words unpatched.length
  have wordsP := sizeRound_words patched.length
  rw [patchDiffToFile_works host unpatched patched patch base works,
    diffWords_outside base (sizeRound unpatched.length / 4) (contents unpatched) (contents patched)
      (sizeRound patched.length / 4) (by omega) (by omega) (by omega) _ 0 patch (Nat.zero_le _)
      (by omega)]
  rfl

/-- The patches load the patched section exactly when it is not the shorter one. -/
theorem patch_reproduces_iff (boundP : sizeRound patched.length < 2 ^ 32) :
    (Reproduces (patchDiffToFile host unpatched patched patch base) patch base patched
        (fun m => Loaded m base unpatched) ∧
      Reproduces (patchAddToFile host patched patch base) patch base patched fun _ => True) ↔
      ¬ host.Works ∨ sizeRound unpatched.length ≤ sizeRound patched.length := by
  constructor
  · rintro ⟨⟨ret, out, result, -⟩, -⟩
    by_cases works : host.Works
    · right
      apply Nat.le_of_not_lt
      intro shorter
      rw [patchDiffToFile_shorter host unpatched patched patch base works shorter] at result
      cases result
    · exact Or.inl works
  · intro condition
    refine ⟨?_, patchAddToFile_reproduces host patched patch base boundP⟩
    by_cases works : host.Works
    · rcases condition with fails | longer
      · exact absurd works fails
      · exact patchDiffToFile_longer host unpatched patched patch base works boundP longer
    · exact patchDiffToFile_fails host unpatched patched patch base works _

end Files

def sampleHost : Host := ⟨true, true, true, true⟩

theorem patch_reproduces_iff_sample :
    (Reproduces (patchDiffToFile sampleHost [1#8, 2#8, 3#8, 4#8, 5#8]
        [1#8, 2#8, 3#8, 4#8, 6#8, 0#8, 0#8, 0#8, 0#8] [] 0x5000000#32) [] 0x5000000#32
        [1#8, 2#8, 3#8, 4#8, 6#8, 0#8, 0#8, 0#8, 0#8]
        (fun m => Loaded m 0x5000000#32 [1#8, 2#8, 3#8, 4#8, 5#8]) ∧
      Reproduces (patchAddToFile sampleHost [1#8, 2#8, 3#8, 4#8, 6#8, 0#8, 0#8, 0#8, 0#8] []
        0x5000000#32) [] 0x5000000#32 [1#8, 2#8, 3#8, 4#8, 6#8, 0#8, 0#8, 0#8, 0#8]
        fun _ => True) ↔
      ¬ sampleHost.Works ∨ sizeRound 5 ≤ sizeRound 9 :=
  patch_reproduces_iff sampleHost [1#8, 2#8, 3#8, 4#8, 5#8]
    [1#8, 2#8, 3#8, 4#8, 6#8, 0#8, 0#8, 0#8, 0#8] [] 0x5000000#32 (by decide)

/-- One word has been cut off. -/
theorem patchDiffToFile_reads_outside :
    ¬ Reproduces (patchDiffToFile sampleHost [1#8, 2#8, 3#8, 4#8, 5#8] [1#8, 2#8, 3#8, 4#8] []
      0x5000000#32) [] 0x5000000#32 [1#8, 2#8, 3#8, 4#8]
      (fun m => Loaded m 0x5000000#32 [1#8, 2#8, 3#8, 4#8, 5#8]) := by
  have outside : patchDiffToFile sampleHost [1#8, 2#8, 3#8, 4#8, 5#8] [1#8, 2#8, 3#8, 4#8] []
      0x5000000#32 = none := by
    decide
  rintro ⟨ret, out, result, -⟩
  rw [outside] at result
  cases result

end Stroopwafel.SaltPatch
