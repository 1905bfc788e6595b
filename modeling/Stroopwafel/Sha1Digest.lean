import Stroopwafel.Sha1Stream

set_option autoImplicit false

namespace Stroopwafel.Sha1Ctx

open Memory Sha1 BlockHash

section End

/-- The first padding byte, behind the `i` bytes of the buffer. `~i & 3` is `3 - i % 4`. -/
def markEnd (w : Vector Word 16) (i : Fin 64) : Vector Word 16 :=
  let shift := 8 * (3 - i.val % 4)
  w.set (i.val / 4) ((w[i.val / 4] &&& (0xFFFFFF80#32 <<< shift)) ||| (0x00000080#32 <<< shift))

/-- `while(i < 14) ctx->wbuf[i++] = 0` -/
def clearWords (i : Nat) (w : Vector Word 16) : Vector Word 16 :=
  if _ : i < 14 then clearWords (i + 1) (w.set i 0#32) else w

def sha1End (ctx : Ctx) : List Byte :=
  let i := position ctx.count0
  let wbuf := markEnd (bsw32 ctx.wbuf ((i.val + 3) / 4)) i
  let (ctx, i) :=
    if i.val > 55 then
      let wbuf := if i.val < 60 then wbuf.set 15 0#32 else wbuf
      (sha1Compile { ctx with wbuf := wbuf }, 0)
    else ({ ctx with wbuf := wbuf }, i.val / 4 + 1)
  let wbuf := clearWords i ctx.wbuf
  let wbuf := wbuf.set 14 ((ctx.count1 <<< 3) ||| (ctx.count0 >>> 29))
  let wbuf := wbuf.set 15 (ctx.count0 <<< 3)
  let ctx := sha1Compile { ctx with wbuf := wbuf }
  List.ofFn fun i : Fin 20 => (ctx.hash[i.val / 4] >>> (8 * (3 - i.val % 4))).setWidth 8

end End

section Words

/-- What the two masks keep and set, bit by bit. -/
theorem marks_getLsbD : ∀ r < 4, ∀ t < 32,
    (0xFFFFFF80#32 <<< (8 * (3 - r))).getLsbD t = decide (8 * (3 - r) + 7 ≤ t) ∧
      (0x00000080#32 <<< (8 * (3 - r))).getLsbD t = decide (t = 8 * (3 - r) + 7) := by decide

theorem mark_getLsbD : ∀ t < 8, (0x80#8).getLsbD t = decide (t = 7) := by decide

/-- The bytes in front of the mark stay, and what was behind it is cleared. -/
theorem mark_word (b c : Nat → Byte) {r : Nat} (small : r < 4) (same : ∀ q < r, c q = b q)
    (mark : b r = 0x80#8) (zero : ∀ q < 4, r < q → b q = 0#8) :
    (((c 0 ++ c 1) ++ (c 2 ++ c 3)) &&& (0xFFFFFF80#32 <<< (8 * (3 - r)))) |||
      (0x00000080#32 <<< (8 * (3 - r))) = (b 0 ++ b 1) ++ (b 2 ++ b 3) := by
  apply BitVec.eq_of_getLsbD_eq
  intro t inside
  obtain ⟨kept, set⟩ := marks_getLsbD r small t inside
  simp only [BitVec.getLsbD_or, BitVec.getLsbD_and, BitVec.getLsbD_append, kept, set]
  rcases (by omega : r = 0 ∨ r = 1 ∨ r = 2 ∨ r = 3) with rfl | rfl | rfl | rfl
  · rw [mark, zero 1 (by decide) (by decide), zero 2 (by decide) (by decide),
      zero 3 (by decide) (by decide)]
    grind [mark_getLsbD]
  · rw [mark, same 0 (by decide), zero 2 (by decide) (by decide), zero 3 (by decide) (by decide)]
    grind [mark_getLsbD]
  · rw [mark, same 0 (by decide), same 1 (by decide), zero 3 (by decide) (by decide)]
    grind [mark_getLsbD]
  · rw [mark, same 0 (by decide), same 1 (by decide), same 2 (by decide)]
    grind [mark_getLsbD]

/-- The bytes of a block: the rest of the message, the mark, and zeros. -/
theorem byteOf_mark (xs : List Byte) : byteOf (xs ++ [0x80#8]) xs.length = 0x80#8 := by
  rw [byteOf_behind _ _ (Nat.le_refl _), Nat.sub_self]
  rfl

theorem byteOf_behind_mark (xs : List Byte) {p : Nat} (behind : xs.length < p) :
    byteOf (xs ++ [0x80#8]) p = 0#8 := by
  apply byteOf_end
  rw [List.length_append, List.length_singleton]
  omega

theorem wordOf_zero {xs : List Byte} {i : Nat} (zero : ∀ q < 4, byteOf xs (4 * i + q) = 0#8) :
    wordOf xs i = 0#32 := by
  have first := zero 0 (by decide)
  rw [Nat.add_zero] at first
  rw [wordOf, first, zero 1 (by decide), zero 2 (by decide), zero 3 (by decide)]
  rfl

/-- A word of a block stands where its bytes are. -/
theorem wordOf_bytes32 (front back : List Byte) (x : Word) {i : Nat} (size : front.length = 4 * i) :
    wordOf (front ++ (bytes32 x ++ back)) i = x := by
  have byte (q : Nat) (small : q < 4) :
      byteOf (front ++ (bytes32 x ++ back)) (4 * i + q) = byteOf (bytes32 x) q := by
    rw [byteOf_behind _ _ (by omega), size, Nat.add_sub_cancel_left,
      byteOf_front _ _ (by rw [bytes32_length]; exact small)]
  have first := byte 0 (by decide)
  rw [Nat.add_zero] at first
  rw [wordOf, first, byte 1 (by decide), byte 2 (by decide), byte 3 (by decide)]
  exact bytes32_join x

end Words

section Padding

variable {ctx : Ctx} {xs : List Byte}

/-- Up to the marked word the buffer holds what is left of the message, the mark, and zeros. -/
theorem markEnd_words (i : Fin 64) (size : xs.length = i.val) (buffered : Buffered ctx xs) {j : Nat}
    (upTo : j ≤ i.val / 4) (inside : j < 16) :
    (markEnd (bsw32 ctx.wbuf ((i.val + 3) / 4)) i)[j] = wordOf (xs ++ [0x80#8]) j := by
  have held (p : Nat) (front : p < i.val) : byteAt ctx.wbuf p = byteOf (xs ++ [0x80#8]) p := by
    rw [buffered p (by omega), byteOf_front _ _ (by omega)]
  unfold markEnd
  rw [Vector.getElem_set]
  by_cases last : i.val / 4 = j
  · subst last
    rw [if_pos rfl]
    -- the bytes of the word in the order of the message; with none in the buffer it is not swapped
    have shown : ∃ c : Nat → Byte, (∀ q < i.val % 4, c q = byteAt ctx.wbuf (4 * (i.val / 4) + q)) ∧
        (bsw32 ctx.wbuf ((i.val + 3) / 4))[i.val / 4] = (c 0 ++ c 1) ++ (c 2 ++ c 3) := by
      by_cases none : i.val % 4 = 0
      · refine ⟨fun q => (bsw32 ctx.wbuf ((i.val + 3) / 4))[i.val / 4].extractLsb' (8 * (3 - q)) 8,
          ?_, (bytes32_join _).symm⟩
        intro q small
        omega
      · exact ⟨fun q => byteAt ctx.wbuf (4 * (i.val / 4) + q), fun _ _ => rfl,
          bsw32_bytes (by omega) inside⟩
    obtain ⟨c, bytes, word⟩ := shown
    rw [word]
    have place : 4 * (i.val / 4) + i.val % 4 = i.val := Nat.div_add_mod _ _
    refine mark_word (fun q => byteOf (xs ++ [0x80#8]) (4 * (i.val / 4) + q)) c
      (Nat.mod_lt _ (by decide)) ?_ ?_ ?_
    · intro q small
      rw [bytes q small, held _ (by omega)]
    · rw [place, ← size, byteOf_mark]
    · intro q small behind
      exact byteOf_behind_mark xs (by omega)
  · rw [if_neg last]
    exact bsw32_wordOf (by omega) inside fun q small => held _ (by omega)

theorem clearWords_words (i : Nat) (w : Vector Word 16) {j : Nat} (inside : j < 16) :
    (clearWords i w)[j] = if i ≤ j ∧ j < 14 then 0#32 else w[j] := by
  fun_induction clearWords i w with
  | case1 i w more ih =>
      rw [ih, Vector.getElem_set]
      grind
  | case2 i w done => rw [if_neg (by omega)]

theorem count_words {count0 count1 : Word} {n : Nat}
    (count : count1.toNat * 2 ^ 32 + count0.toNat = n % 2 ^ 64) :
    (count1 <<< 3) ||| (count0 >>> 29) = (BitVec.ofNat 64 (8 * n)).extractLsb' 32 32 ∧
      count0 <<< 3 = (BitVec.ofNat 64 (8 * n)).extractLsb' 0 32 := by
  have low : count0 = BitVec.ofNat 32 n := by
    apply BitVec.eq_of_toNat_eq
    rw [BitVec.toNat_ofNat]
    omega
  have high : count1 = BitVec.ofNat 32 (n / 2 ^ 32) := by
    apply BitVec.eq_of_toNat_eq
    rw [BitVec.toNat_ofNat]
    omega
  have bits (t : Nat) : (8 * n).testBit t = (decide (t ≥ 3) && n.testBit (t - 3)) :=
    Nat.testBit_two_pow_mul (i := 3)
  constructor <;> apply BitVec.eq_of_getLsbD_eq <;> intro t inside
  · simp only [low, high, BitVec.getLsbD_or, BitVec.getLsbD_shiftLeft, BitVec.getLsbD_ushiftRight,
      BitVec.getLsbD_extractLsb', BitVec.getLsbD_ofNat, bits, Nat.testBit_div_two_pow]
    grind
  · simp only [low, BitVec.getLsbD_shiftLeft, BitVec.getLsbD_extractLsb', BitVec.getLsbD_ofNat,
      bits]
    grind

/-- The buffer at the end: words of the last block, then its length in bits. -/
def lastWords (i n : Nat) (w : Vector Word 16) : Vector Word 16 :=
  ((clearWords i w).set 14 ((BitVec.ofNat 64 (8 * n)).extractLsb' 32 32)).set 15
    ((BitVec.ofNat 64 (8 * n)).extractLsb' 0 32)

/-- The words of a block whose front stands in the buffer up to word `i`, with zeros behind. -/
theorem lastWords_wordOf {i n : Nat} {w : Vector Word 16} {front : List Byte}
    (size : front.length = 56) (held : ∀ j, (inside : j < 16) → j < i → w[j] = wordOf front j)
    (zero : ∀ p, 4 * i ≤ p → byteOf front p = 0#8) {j : Nat} (inside : j < 16) :
    (lastWords i n w)[j] = wordOf (front ++ lengthBytes n) j := by
  unfold lastWords
  rw [Vector.getElem_set, Vector.getElem_set, clearWords_words _ _ inside]
  by_cases final : 15 = j
  · subst final
    rw [if_pos rfl]
    have shift : front ++ lengthBytes n =
        (front ++ bytes32 ((BitVec.ofNat 64 (8 * n)).extractLsb' 32 32)) ++
          (bytes32 ((BitVec.ofNat 64 (8 * n)).extractLsb' 0 32) ++ []) := by
      rw [List.append_nil, List.append_assoc]
      rfl
    rw [shift, wordOf_bytes32 _ _ _ (by rw [List.length_append, size, bytes32_length])]
  · rw [if_neg final]
    by_cases upper : 14 = j
    · subst upper
      rw [if_pos rfl]
      exact (wordOf_bytes32 front _ _ size).symm
    · rw [if_neg upper]
      have same : wordOf (front ++ lengthBytes n) j = wordOf front j :=
        wordOf_congr fun q small => byteOf_front _ _ (by omega)
      rw [same]
      by_cases behind : i ≤ j
      · rw [if_pos ⟨behind, by omega⟩, wordOf_zero fun q small => zero _ (by omega)]
      · rw [if_neg (by omega)]
        exact held j inside (by omega)

/-- The block that the message ends in, and the mark. -/
def marked (xs : List Byte) (n : Nat) : List Byte := xs ++ 0x80#8 :: List.replicate n 0#8

theorem marked_length (xs : List Byte) (n : Nat) : (marked xs n).length = xs.length + 1 + n := by
  unfold marked
  rw [List.length_append, List.length_cons, List.length_replicate]
  omega

/-- Zeros behind the mark make no difference. -/
theorem marked_byteOf (xs : List Byte) (n p : Nat) :
    byteOf (marked xs n) p = byteOf (xs ++ [0x80#8]) p := by
  have split : marked xs n = (xs ++ [0x80#8]) ++ List.replicate n 0#8 := by
    unfold marked
    rw [List.append_assoc]
    rfl
  rw [split]
  by_cases inside : p < (xs ++ [0x80#8]).length
  · rw [byteOf_front _ _ inside]
  · rw [byteOf_behind _ _ (by omega), byteOf_zeros, byteOf_end _ (by omega)]

theorem marked_wordOf (xs : List Byte) (n j : Nat) :
    wordOf (marked xs n) j = wordOf (xs ++ [0x80#8]) j :=
  wordOf_congr fun _ _ => marked_byteOf xs n _

end Padding

section Digest

theorem hval_bytes (hash : Vector Word 5) :
    (List.ofFn fun i : Fin 20 => (hash[i.val / 4] >>> (8 * (3 - i.val % 4))).setWidth 8) =
      (view 0 hash).bytes := by
  have byte (x : Word) (q : Nat) : (x >>> q).setWidth 8 = x.extractLsb' q 8 := rfl
  simp only [byte]
  rfl

theorem padding_fits (xs : List Byte) {n : Nat} (size : xs.length = n % 64)
    (fits : xs.length ≤ 55) :
    xs ++ padding n = marked xs (55 - xs.length) ++ lengthBytes n := by
  unfold padding marked
  rw [show (119 - n % 64) % 64 = 55 - xs.length by omega, List.append_assoc]

theorem padding_overflows (xs : List Byte) {n : Nat} (size : xs.length = n % 64)
    (spills : 55 < xs.length) :
    xs ++ padding n =
      marked xs (63 - xs.length) ++ (List.replicate 56 0#8 ++ lengthBytes n) := by
  unfold padding marked
  rw [show (119 - n % 64) % 64 = 63 - xs.length + 56 by omega,
    ← List.replicate_append_replicate]
  simp only [List.append_assoc, List.cons_append]

theorem lastBlock (ctx : Ctx) (front : List Byte) {i n : Nat} (size : front.length = 56)
    (held : ∀ j, (inside : j < 16) → j < i → ctx.wbuf[j] = wordOf front j)
    (zero : ∀ p, 4 * i ≤ p → byteOf front p = 0#8) :
    view 0 (sha1Compile { ctx with wbuf := lastWords i n ctx.wbuf }).hash =
      compress (view 0 ctx.hash) (front ++ lengthBytes n) :=
  sha1Compile_hash _ _ fun _ inside => lastWords_wordOf size held zero inside

theorem Taken.sha1End {ctx : Ctx} {xs : List Byte} (taken : Taken ctx xs) :
    sha1End ctx = digest xs := by
  obtain ⟨high, low⟩ := count_words taken.count
  have size := taken.position
  have room := (Sha1Ctx.position ctx.count0).isLt
  have amount := rest_length 64 xs
  unfold Sha1Ctx.sha1End digest
  dsimp only
  rw [hval_bytes, blocks_append, ← taken.hash]
  generalize Sha1Ctx.position ctx.count0 = i at size room ⊢
  have words (zeros : Nat) {j : Nat} (upTo : j ≤ i.val / 4) (inside : j < 16) :=
    (markEnd_words i size taken.buffered upTo inside).trans (marked_wordOf _ zeros j).symm
  generalize markEnd (bsw32 ctx.wbuf ((i.val + 3) / 4)) i = wbuf at words ⊢
  by_cases spills : i.val > 55
  · have full : (marked (rest 64 xs) (63 - (rest 64 xs).length)).length = 64 := by
      rw [marked_length]
      omega
    rw [if_pos spills, padding_overflows _ amount (by omega),
      blocks_cons compress 64 _ _ _ full, blocks_one compress 64 _ _ (by simp)]
    have first : view 0 (sha1Compile
        { ctx with wbuf := if i.val < 60 then wbuf.set 15 0#32 else wbuf }).hash =
        compress (view 0 ctx.hash) (marked (rest 64 xs) (63 - (rest 64 xs).length)) := by
      apply sha1Compile_hash
      intro j inside
      dsimp only
      by_cases behind : i.val < 60
      · rw [if_pos behind, Vector.getElem_set]
        by_cases last : 15 = j
        · rw [if_pos last, wordOf_zero]
          intro q small
          rw [marked_byteOf]
          exact byteOf_behind_mark _ (by omega)
        · rw [if_neg last]
          exact words _ (by omega) inside
      · rw [if_neg behind]
        exact words _ (by omega) inside
    rw [← first]
    dsimp only
    generalize made : sha1Compile
      { ctx with wbuf := if i.val < 60 then wbuf.set 15 0#32 else wbuf } = between
    have count0 : between.count0 = ctx.count0 := by rw [← made, sha1Compile]
    have count1 : between.count1 = ctx.count1 := by rw [← made, sha1Compile]
    rw [count0, count1, high, low]
    have last := lastBlock between _ (n := xs.length) (List.length_replicate ..)
      (fun j _ (none : j < 0) => by omega) fun p _ => byteOf_zeros 56 p
    rw [← last]
    unfold lastWords
    rw [count0, count1]
  · rw [if_neg spills, padding_fits _ amount (by omega),
      blocks_one compress 64 _ _
        (by rw [List.length_append, marked_length, lengthBytes_length]; omega)]
    dsimp only
    rw [high, low]
    have last := lastBlock { ctx with wbuf := wbuf }
      (marked (rest 64 xs) (55 - (rest 64 xs).length)) (i := i.val / 4 + 1) (n := xs.length)
      (by rw [marked_length]; omega)
      (fun j inside upTo => words _ (by omega) inside)
      (fun p behind => by rw [marked_byteOf]; exact byteOf_behind_mark _ (by omega))
    rw [← last]
    rfl

theorem pieces_taken (ctx : Ctx) (pieces : List (List Byte))
    (bounded : ∀ piece ∈ pieces, piece.length < 2 ^ 32) :
    Taken (pieces.foldl (fun ctx data => sha1Hash data ctx) (sha1Begin ctx)) pieces.flatten := by
  have steps (xs : List Byte) (ctx : Ctx) (taken : Taken ctx xs) :
      Taken (pieces.foldl (fun ctx data => sha1Hash data ctx) ctx) (xs ++ pieces.flatten) := by
    induction pieces generalizing xs ctx with
    | nil =>
        rw [List.flatten_nil, List.append_nil]
        exact taken
    | cons piece pieces ih =>
        rw [List.foldl_cons, List.flatten_cons, ← List.append_assoc]
        exact ih (fun piece member => bounded piece (List.mem_cons_of_mem _ member)) _ _
          (taken.sha1Hash piece (bounded piece List.mem_cons_self))
  exact steps [] _ (sha1Begin_taken ctx)

/-- The hash of a message that comes in pieces is that of the whole message, whatever the context
held before. -/
theorem sha1_pieces (ctx : Ctx) (pieces : List (List Byte))
    (bounded : ∀ piece ∈ pieces, piece.length < 2 ^ 32) :
    sha1End (pieces.foldl (fun ctx data => sha1Hash data ctx) (sha1Begin ctx)) =
      digest pieces.flatten :=
  (pieces_taken ctx pieces bounded).sha1End

/-- What an earlier hash has left. -/
def staleCtx : Ctx :=
  ⟨0x2A#32, 0x1#32, Vector.replicate 5 0xDEADBEEF#32, Vector.replicate 16 0xFFFFFFFF#32⟩

theorem sha1_pieces_abc :
    sha1End (sha1Hash [0x62#8, 0x63#8] (sha1Hash [0x61#8] (sha1Begin staleCtx))) =
      digest [0x61#8, 0x62#8, 0x63#8] :=
  sha1_pieces staleCtx [[0x61#8], [0x62#8, 0x63#8]] (by decide)

end Digest

end Stroopwafel.Sha1Ctx
