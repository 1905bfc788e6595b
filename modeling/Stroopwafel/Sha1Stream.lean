import Stroopwafel.Layout
import Stroopwafel.Sha1Compile

set_option autoImplicit false

namespace Stroopwafel.Sha1Ctx

open Memory Sha1 Layout BlockHash

section Buffer

/-- Byte `p` of the buffer. The host is little-endian. -/
def byteAt (w : Vector Word 16) (p : Nat) : Byte :=
  (w[p / 4]?.getD 0#32).extractLsb' (8 * (p % 4)) 8

def ofBytes (f : Nat → Byte) : Vector Word 16 :=
  Vector.ofFn fun i : Fin 16 =>
    (f (4 * i.val + 3) ++ f (4 * i.val + 2)) ++ (f (4 * i.val + 1) ++ f (4 * i.val))

/-- `memcpy(((unsigned char*)ctx->wbuf) + pos, ..)` -/
def memcpy (w : Vector Word 16) (pos : Nat) (data : List Byte) : Vector Word 16 :=
  ofBytes (overlay (byteAt w) pos data)

def bsw32 (w : Vector Word 16) (n : Nat) : Vector Word 16 :=
  w.mapIdx fun i x => if i < n then bswap32 x else x

end Buffer

/-- What is in the buffer before is of no matter. -/
def sha1Begin (ctx : Ctx) : Ctx :=
  { ctx with
    count0 := 0#32
    count1 := 0#32
    hash := #v[0x67452301#32, 0xEFCDAB89#32, 0x98BADCFE#32, 0x10325476#32, 0xC3D2E1F0#32] }

/-- `count[0] & SHA1_MASK` -/
def position (count0 : Word) : Fin 64 :=
  ⟨(count0 &&& 63#32).toNat, by
    rw [BitVec.toNat_and]
    exact Nat.lt_of_le_of_lt Nat.and_le_right (by decide)⟩

/-- `while(len >= space)`, where `space` is what the buffer has left, and the `memcpy` of what is
left of the data. -/
def hashLoop (pos : Fin 64) (data : List Byte) (ctx : Ctx) : Ctx :=
  let space := 64 - pos.val
  if _ : data.length ≥ space then
    let wbuf := bsw32 (memcpy ctx.wbuf pos (data.take space)) 16
    hashLoop 0 (data.drop space) (sha1Compile { ctx with wbuf := wbuf })
  else { ctx with wbuf := memcpy ctx.wbuf pos data }
termination_by data.length
decreasing_by
  have inside := pos.isLt
  rw [List.length_drop]
  omega

/-- `len` has 64 bits, the two counts 32 bits each. -/
def sha1Hash (data : List Byte) (ctx : Ctx) : Ctx :=
  let pos := position ctx.count0
  let count0 := ctx.count0 + BitVec.ofNat 32 data.length
  let count1 := if count0.toNat < data.length then ctx.count1 + 1#32 else ctx.count1
  hashLoop pos data { ctx with count0 := count0, count1 := count1 }

section Bytes

/-- The bytes that each mask of `bswap_32` keeps. -/
theorem masks_getLsbD : ∀ i < 32, (0x00FF00FF#32).getLsbD i = (i / 8 % 2 == 0) ∧
    (0xFF00FF00#32).getLsbD i = (i / 8 % 2 == 1) := by decide

theorem bswap32_bytes (b0 b1 b2 b3 : Byte) :
    bswap32 ((b3 ++ b2) ++ (b1 ++ b0)) = (b0 ++ b1) ++ (b2 ++ b3) := by
  unfold bswap32 rotr32
  apply BitVec.eq_of_getLsbD_eq
  intro i inside
  obtain ⟨even, odd⟩ := masks_getLsbD i inside
  simp only [BitVec.getLsbD_or, BitVec.getLsbD_and, BitVec.getLsbD_shiftLeft,
    BitVec.getLsbD_ushiftRight, BitVec.getLsbD_append, even, odd]
  grind

theorem bytes_extract (f : Nat → Byte) {r : Nat} (small : r < 4) :
    ((f 3 ++ f 2) ++ (f 1 ++ f 0)).extractLsb' (8 * r) 8 = f r := by
  apply BitVec.eq_of_getLsbD_eq
  intro i inside
  simp only [BitVec.getLsbD_append, BitVec.getLsbD_extractLsb']
  grind

theorem byteAt_ofBytes (f : Nat → Byte) {p : Nat} (inside : p < 64) :
    byteAt (ofBytes f) p = f p := by
  have byte := bytes_extract (fun q => f (4 * (p / 4) + q)) (Nat.mod_lt p (by decide))
  rw [Nat.div_add_mod] at byte
  unfold byteAt ofBytes
  rw [Vector.getElem?_eq_getElem (by omega), Vector.getElem_ofFn, Option.getD_some]
  exact byte

variable {w : Vector Word 16} {xs : List Byte}

/-- A swapped word has the bytes of the buffer in their order. -/
theorem bsw32_bytes {n i : Nat} (swapped : i < n) (inside : i < 16) :
    (bsw32 w n)[i] =
      (byteAt w (4 * i) ++ byteAt w (4 * i + 1)) ++
        (byteAt w (4 * i + 2) ++ byteAt w (4 * i + 3)) := by
  have byte (q : Nat) (small : q < 4) : byteAt w (4 * i + q) = w[i].extractLsb' (8 * q) 8 := by
    rw [byteAt, show (4 * i + q) / 4 = i by omega, show (4 * i + q) % 4 = q by omega,
      Vector.getElem?_eq_getElem inside, Option.getD_some]
  have first := byte 0 (by decide)
  rw [Nat.add_zero] at first
  unfold bsw32
  rw [Vector.getElem_mapIdx, if_pos swapped, ← bytes32_join w[i], bswap32_bytes, first,
    byte 1 (by decide), byte 2 (by decide), byte 3 (by decide)]

theorem bsw32_wordOf {n i : Nat} (swapped : i < n) (inside : i < 16)
    (same : ∀ q < 4, byteAt w (4 * i + q) = byteOf xs (4 * i + q)) :
    (bsw32 w n)[i] = wordOf xs i := by
  have first := same 0 (by decide)
  rw [Nat.add_zero] at first
  rw [bsw32_bytes swapped inside, first, same 1 (by decide), same 2 (by decide),
    same 3 (by decide)]
  rfl

/-- Behind the `pos` bytes of `xs` the copied bytes go on. -/
theorem byteAt_memcpy {data : List Byte} {p : Nat}
    (held : ∀ p < xs.length, byteAt w p = byteOf xs p) (inside : p < 64)
    (covered : p < (xs ++ data).length) :
    byteAt (memcpy w xs.length data) p = byteOf (xs ++ data) p := by
  unfold memcpy
  rw [byteAt_ofBytes _ inside]
  by_cases front : p < xs.length
  · rw [overlay_before _ _ _ _ front, byteOf_front _ _ front, held p front]
  · obtain ⟨j, rfl⟩ := Nat.exists_eq_add_of_le (Nat.le_of_not_lt front)
    rw [List.length_append] at covered
    rw [overlay_inside _ _ _ _ (by omega), byteOf_behind _ _ (by omega), Nat.add_sub_cancel_left,
      byteOf, List.getElem?_eq_getElem (by omega), Option.getD_some]

end Bytes

section Stream

def Buffered (ctx : Ctx) (xs : List Byte) : Prop :=
  ∀ p < xs.length, byteAt ctx.wbuf p = byteOf xs p

theorem sha1Compile_block {ctx : Ctx} {block : List Byte} (size : block.length = 64)
    (buffered : Buffered ctx block) :
    view 0 (sha1Compile { ctx with wbuf := bsw32 ctx.wbuf 16 }).hash =
      compress (view 0 ctx.hash) block := by
  refine sha1Compile_hash _ block ?_
  intro i inside
  exact bsw32_wordOf inside inside fun q small => buffered _ (by omega)

/-- The loop compresses the whole blocks of what was buffered and the data, and buffers the rest. -/
theorem hashLoop_spec (pos : Fin 64) (data ys : List Byte) (ctx : Ctx) (size : ys.length = pos.val)
    (buffered : Buffered ctx ys) :
    view 0 (hashLoop pos data ctx).hash = blocks compress 64 (view 0 ctx.hash) (ys ++ data) ∧
      Buffered (hashLoop pos data ctx) (rest 64 (ys ++ data)) ∧
      (hashLoop pos data ctx).count0 = ctx.count0 ∧
      (hashLoop pos data ctx).count1 = ctx.count1 := by
  have room := pos.isLt
  unfold hashLoop
  by_cases full : data.length ≥ 64 - pos.val
  · rw [dif_pos full]
    have taken : (ys ++ data.take (64 - pos.val)).length = 64 := by
      rw [List.length_append, List.length_take]
      omega
    have held : Buffered { ctx with wbuf := memcpy ctx.wbuf pos.val (data.take (64 - pos.val)) }
        (ys ++ data.take (64 - pos.val)) := by
      intro p inside
      rw [← size] at inside ⊢
      exact byteAt_memcpy buffered (by rw [size] at inside; omega) inside
    have block := sha1Compile_block taken held
    have shorter : (data.drop (64 - pos.val)).length < data.length := by
      rw [List.length_drop]
      omega
    obtain ⟨hash, held', low, high⟩ := hashLoop_spec 0 (data.drop (64 - pos.val)) []
      (sha1Compile { ctx with
        wbuf := bsw32 (memcpy ctx.wbuf pos.val (data.take (64 - pos.val))) 16 }) rfl nofun
    have split : ys ++ data =
        (ys ++ data.take (64 - pos.val)) ++ data.drop (64 - pos.val) := by
      rw [List.append_assoc, List.take_append_drop]
    have whole : 64 ∣ (ys ++ data.take (64 - pos.val)).length := by
      exact taken.symm ▸ Nat.dvd_refl 64
    rw [split, blocks_cons compress 64 _ _ _ taken, rest_front 64 _ _ whole, ← block]
    exact ⟨hash, held', low, high⟩
  · rw [dif_neg full]
    have short : (ys ++ data).length < 64 := by
      rw [List.length_append]
      omega
    rw [blocks_short compress 64 _ _ short, rest_short 64 _ short]
    refine ⟨rfl, ?_, rfl, rfl⟩
    intro p inside
    rw [← size]
    exact byteAt_memcpy buffered (by omega) inside
termination_by data.length

/-- The context has taken `xs` in. -/
structure Taken (ctx : Ctx) (xs : List Byte) : Prop where
  count : ctx.count1.toNat * 2 ^ 32 + ctx.count0.toNat = xs.length % 2 ^ 64
  hash : view 0 ctx.hash = blocks compress 64 initial xs
  buffered : Buffered ctx (rest 64 xs)

theorem position_val (count0 : Word) : (position count0).val = count0.toNat % 64 := by
  unfold position
  dsimp only
  rw [BitVec.toNat_and]
  exact Nat.and_two_pow_sub_one_eq_mod count0.toNat 6

theorem sha1Begin_taken (ctx : Ctx) : Taken (sha1Begin ctx) [] where
  count := by simp [sha1Begin]
  hash := (blocks_short compress 64 _ _ (by decide)).symm
  buffered := nofun

theorem Taken.position {ctx : Ctx} {xs : List Byte} (taken : Taken ctx xs) :
    (rest 64 xs).length = (position ctx.count0).val := by
  have count := taken.count
  rw [rest_length, position_val]
  omega

/-- The carry into the upper count, modulo 2 ^ 64. -/
theorem carry_count {high low n len : Nat} (first : high < 2 ^ 32) (second : low < 2 ^ 32)
    (bound : len < 2 ^ 32) (count : high * 2 ^ 32 + low = n % 2 ^ 64)
    (carry : (low + len) % 2 ^ 32 < len) :
    (high + 1) % 2 ^ 32 * 2 ^ 32 + (low + len) % 2 ^ 32 = (n + len) % 2 ^ 64 := by
  obtain ⟨d, excess⟩ : ∃ d, low + len = 2 ^ 32 + d := ⟨low + len - 2 ^ 32, by omega⟩
  have small : d < 2 ^ 32 := by omega
  have sum : (n + len) % 2 ^ 64 = ((high + 1) * 2 ^ 32 + d) % 2 ^ 64 := by
    rw [← Nat.mod_add_mod, ← count, Nat.add_assoc, excess, ← Nat.add_assoc, Nat.succ_mul]
  rw [sum, excess, Nat.add_mod_left, Nat.mod_eq_of_lt small]
  clear sum count carry
  by_cases last : high + 1 < 2 ^ 32
  · rw [Nat.mod_eq_of_lt last, Nat.mod_eq_of_lt]
    omega
  · have top : high + 1 = 2 ^ 32 := by omega
    rw [top, Nat.mod_self, Nat.zero_mul, Nat.zero_add, show 2 ^ 32 * 2 ^ 32 = 2 ^ 64 from rfl,
      Nat.add_mod_left, Nat.mod_eq_of_lt (by omega)]

/-- A piece of less than 4 GiB. -/
theorem Taken.sha1Hash {ctx : Ctx} {xs : List Byte} (taken : Taken ctx xs) (data : List Byte)
    (bound : data.length < 2 ^ 32) : Taken (sha1Hash data ctx) (xs ++ data) := by
  have count := taken.count
  unfold Sha1Ctx.sha1Hash
  generalize sum : ctx.count0 + BitVec.ofNat 32 data.length = count0
  have low : count0.toNat = (ctx.count0.toNat + data.length) % 2 ^ 32 := by
    rw [← sum, BitVec.toNat_add, BitVec.toNat_ofNat, Nat.mod_eq_of_lt bound]
  obtain ⟨hash, held, same0, same1⟩ := hashLoop_spec (Sha1Ctx.position ctx.count0) data (rest 64 xs)
    { ctx with
      count0 := count0
      count1 := if count0.toNat < data.length then ctx.count1 + 1#32 else ctx.count1 }
    taken.position taken.buffered
  refine ⟨?_, ?_, ?_⟩
  · rw [same0, same1, List.length_append]
    dsimp only
    by_cases carry : count0.toNat < data.length
    · have one : (1#32).toNat = 1 := rfl
      rw [if_pos carry, BitVec.toNat_add, one]
      rw [low] at carry ⊢
      exact carry_count ctx.count1.isLt ctx.count0.isLt bound count carry
    · rw [if_neg carry]
      omega
  · rw [hash, blocks_append compress 64 initial xs data]
    exact congrArg (blocks compress 64 · (rest 64 xs ++ data)) taken.hash
  · rw [rest_append]
    exact held

end Stream

end Stroopwafel.Sha1Ctx
