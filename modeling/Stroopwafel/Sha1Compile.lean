import Stroopwafel.Sha1

set_option autoImplicit false

namespace Stroopwafel.Sha1Ctx

open Memory Sha1

/-- `sha1_ctx` -/
structure Ctx where
  /-- `count[0]` and `count[1]` -/
  count0 : Word
  count1 : Word
  hash : Vector Word 5
  wbuf : Vector Word 16

section Macros

def rotl32 (x : Word) (n : Nat) : Word := (x <<< n) ||| (x >>> (32 - n))
def rotr32 (x : Word) (n : Nat) : Word := (x >>> n) ||| (x <<< (32 - n))

def bswap32 (x : Word) : Word := (rotr32 x 24 &&& 0x00FF00FF#32) ||| (rotr32 x 8 &&& 0xFF00FF00#32)

def ch (x y z : Word) : Word := z ^^^ (x &&& (y ^^^ z))
def parity (x y z : Word) : Word := x ^^^ y ^^^ z
def maj (x y z : Word) : Word := (x &&& y) ||| (z &&& (x ^^^ y))

end Macros

/-- The variables `v0` to `v4`, and the buffer. -/
structure Cycle where
  v : Vector Word 5
  w : Vector Word 16

/-- `hf(i)`, which can write the buffer. -/
abbrev Input := Nat → Vector Word 16 → Word × Vector Word 16

/-- `w[i]` -/
def input : Input := fun i w => (w[i]?.getD 0#32, w)

/-- `w[(i) & 15] = rotl32(w[((i) + 13) & 15] ^ .., 1)` -/
def expand : Input := fun i w =>
  let x := rotl32 (w[(i + 13) % 16] ^^^ w[(i + 8) % 16] ^^^ w[(i + 2) % 16] ^^^ w[i % 16]) 1
  (x, w.set (i % 16) x)

section Cycles

variable (f : Word → Word → Word → Word) (k : Word)

def oneCycle (a b c d e : Fin 5) (h : Vector Word 16 → Word × Vector Word 16) (s : Cycle) : Cycle :=
  let (h, w) := h s.w
  let v := s.v.set e (s.v[e] + (rotr32 s.v[a] 27 + f s.v[b] s.v[c] s.v[d] + k + h))
  ⟨v.set b (rotr32 v[b] 2), w⟩

def fiveCycle (hf : Input) (i : Nat) (s : Cycle) : Cycle :=
  let s := oneCycle f k 0 1 2 3 4 (hf i) s
  let s := oneCycle f k 4 0 1 2 3 (hf (i + 1)) s
  let s := oneCycle f k 3 4 0 1 2 (hf (i + 2)) s
  let s := oneCycle f k 2 3 4 0 1 (hf (i + 3)) s
  oneCycle f k 1 2 3 4 0 (hf (i + 4)) s

end Cycles

def cycles (s : Cycle) : Cycle :=
  let s := fiveCycle ch 0x5A827999#32 input 0 s
  let s := fiveCycle ch 0x5A827999#32 input 5 s
  let s := fiveCycle ch 0x5A827999#32 input 10 s
  let s := oneCycle ch 0x5A827999#32 0 1 2 3 4 (input 15) s
  let s := oneCycle ch 0x5A827999#32 4 0 1 2 3 (expand 16) s
  let s := oneCycle ch 0x5A827999#32 3 4 0 1 2 (expand 17) s
  let s := oneCycle ch 0x5A827999#32 2 3 4 0 1 (expand 18) s
  let s := oneCycle ch 0x5A827999#32 1 2 3 4 0 (expand 19) s
  let s := fiveCycle parity 0x6ED9EBA1#32 expand 20 s
  let s := fiveCycle parity 0x6ED9EBA1#32 expand 25 s
  let s := fiveCycle parity 0x6ED9EBA1#32 expand 30 s
  let s := fiveCycle parity 0x6ED9EBA1#32 expand 35 s
  let s := fiveCycle maj 0x8F1BBCDC#32 expand 40 s
  let s := fiveCycle maj 0x8F1BBCDC#32 expand 45 s
  let s := fiveCycle maj 0x8F1BBCDC#32 expand 50 s
  let s := fiveCycle maj 0x8F1BBCDC#32 expand 55 s
  let s := fiveCycle parity 0xCA62C1D6#32 expand 60 s
  let s := fiveCycle parity 0xCA62C1D6#32 expand 65 s
  let s := fiveCycle parity 0xCA62C1D6#32 expand 70 s
  fiveCycle parity 0xCA62C1D6#32 expand 75 s

def sha1Compile (ctx : Ctx) : Ctx :=
  let s := cycles ⟨ctx.hash, ctx.wbuf⟩
  { ctx with
    hash := #v[ctx.hash[0] + s.v[0], ctx.hash[1] + s.v[1], ctx.hash[2] + s.v[2],
      ctx.hash[3] + s.v[3], ctx.hash[4] + s.v[4]]
    wbuf := s.w }

section Words

theorem rotl32_eq (x : Word) {n : Nat} (small : n < 32) : rotl32 x n = x.rotateLeft n := by
  rw [rotl32, BitVec.rotateLeft_def, Nat.mod_eq_of_lt small]

theorem rotr32_eq (x : Word) {n : Nat} (positive : 0 < n) (small : n < 32) :
    rotr32 x n = x.rotateLeft (32 - n) := by
  rw [rotr32, BitVec.rotateLeft_def, Nat.mod_eq_of_lt (by omega), BitVec.or_comm,
    show 32 - (32 - n) = n by omega]

theorem ch_eq (x y z : Word) : ch x y z = (x &&& y) ^^^ (~~~x &&& z) := by
  apply BitVec.eq_of_getLsbD_eq
  intro i inside
  unfold ch
  simp only [BitVec.getLsbD_xor, BitVec.getLsbD_and, BitVec.getLsbD_not, inside, decide_true,
    Bool.true_and]
  cases x.getLsbD i <;> cases y.getLsbD i <;> cases z.getLsbD i <;> rfl

theorem maj_eq (x y z : Word) : maj x y z = (x &&& y) ^^^ (x &&& z) ^^^ (y &&& z) := by
  apply BitVec.eq_of_getLsbD_eq
  intro i inside
  unfold maj
  simp only [BitVec.getLsbD_xor, BitVec.getLsbD_and, BitVec.getLsbD_or]
  cases x.getLsbD i <;> cases y.getLsbD i <;> cases z.getLsbD i <;> rfl

end Words

section Rounds

/-- Where the variables of a round are: each round they move on by one. -/
def place (t j : Nat) : Fin 5 := ⟨(j + 4 * t) % 5, Nat.mod_lt _ (by decide)⟩

def view (t : Nat) (v : Vector Word 5) : Work :=
  ⟨v[place t 0], v[place t 1], v[place t 2], v[place t 3], v[place t 4]⟩

/-- The state in front of round `t`: the buffer holds the last sixteen words of the schedule. -/
structure Reached (m : Nat → Word) (x : Work) (t : Nat) (s : Cycle) : Prop where
  vars : view t s.v = rounds m x t
  words : ∀ j, j < max t 16 → max t 16 ≤ j + 16 → s.w[j % 16] = schedule m j

/-- `hf` gives the word of round `t`. -/
def Gives (m : Nat → Word) (t : Nat) (hf : Vector Word 16 → Word × Vector Word 16) : Prop :=
  ∀ w : Vector Word 16,
    (∀ j, j < max t 16 → max t 16 ≤ j + 16 → w[j % 16] = schedule m j) →
    (hf w).1 = schedule m t ∧
      ∀ j, j < max (t + 1) 16 → max (t + 1) 16 ≤ j + 16 → (hf w).2[j % 16] = schedule m j

theorem input_gives (m : Nat → Word) {t : Nat} (first : t < 16) : Gives m t (input t) := by
  intro w words
  have size : max t 16 = 16 := by omega
  have size' : max (t + 1) 16 = 16 := by omega
  rw [size] at words
  rw [size']
  refine ⟨?_, words⟩
  have word := words t first (by omega)
  unfold input
  rw [Vector.getElem?_eq_getElem first, Option.getD_some, ← word]
  simp only [Nat.mod_eq_of_lt first]

theorem expand_getElem (t : Nat) (w : Vector Word 16) (j : Nat) :
    (expand t w).2[j % 16] = if t % 16 = j % 16 then (expand t w).1 else w[j % 16] := by
  unfold expand
  rw [Vector.getElem_set]

theorem expand_gives (m : Nat → Word) {t : Nat} (later : 16 ≤ t) : Gives m t (expand t) := by
  intro w words
  have size : max t 16 = t := by omega
  have size' : max (t + 1) 16 = t + 1 := by omega
  rw [size] at words
  rw [size']
  have back (q : Nat) (few : q ≤ 16) (some : 1 ≤ q) :
      w[(t + (16 - q)) % 16] = schedule m (t - q) := by
    rw [← words (t - q) (by omega) (by omega)]
    congr 1
    omega
  have fresh : (expand t w).1 = schedule m t := by
    have at3 := back 3 (by decide) (by decide)
    have at8 := back 8 (by decide) (by decide)
    have at14 := back 14 (by decide) (by decide)
    have at16 := back 16 (by decide) (by decide)
    rw [schedule_later m later, ← at3, ← at8, ← at14, ← at16]
    exact rotl32_eq _ (by decide)
  refine ⟨fresh, ?_⟩
  intro j upper lower
  rw [expand_getElem, fresh]
  by_cases now : j = t
  · rw [if_pos (by rw [now]), now]
  · rw [if_neg (by omega)]
    exact words j (by omega) (by omega)

/-- The five variables are in different places. -/
theorem place_inj (t : Nat) {i j : Nat} (first : i < 5) (second : j < 5) (different : i ≠ j) :
    (place t i).val ≠ (place t j).val := by
  unfold place
  dsimp only
  omega

theorem place_first (t : Nat) : place (t + 1) 0 = place t 4 := by
  apply Fin.ext
  unfold place
  dsimp only
  omega

theorem place_next (t j : Nat) : place (t + 1) (j + 1) = place t j := by
  apply Fin.ext
  unfold place
  dsimp only
  omega

variable {m : Nat → Word} {x : Work} {fn : Word → Word → Word → Word} {kt : Word}

/-- One cycle is one round, on the places that the round has reached. -/
theorem oneCycle_reached {t : Nat} {hf : Vector Word 16 → Word × Vector Word 16} {s : Cycle}
    (function : fn = Sha1.f t) (constant : kt = Sha1.k t) (gives : Gives m t hf)
    (reached : Reached m x t s) :
    Reached m x (t + 1)
      (oneCycle fn kt (place t 0) (place t 1) (place t 2) (place t 3) (place t 4) hf s) := by
  obtain ⟨word, words⟩ := gives s.w reached.words
  refine ⟨?_, words⟩
  have vars := reached.vars
  rw [rounds, ← vars, ← word, function, constant]
  have apart (i j : Nat) (first : i < 5 := by decide) (second : j < 5 := by decide)
      (different : i ≠ j := by decide) := place_inj t first second different
  have five (y : Word) : rotr32 y 27 = y.rotateLeft 5 := rotr32_eq y (by decide) (by decide)
  have thirty (y : Word) : rotr32 y 2 = y.rotateLeft 30 := rotr32_eq y (by decide) (by decide)
  unfold oneCycle Sha1.round view
  simp only [five, thirty, place_first, place_next, Fin.getElem_fin, Vector.getElem_set,
    apart 1 4, apart 4 1, apart 1 0, apart 4 0, apart 1 2, apart 4 2, apart 1 3, apart 4 3,
    if_false, if_true, Work.mk.injEq, true_and]
  ac_rfl

theorem places (t r : Nat) (residue : t % 5 = r) (j : Nat) :
    place t j = ⟨(j + 4 * r) % 5, Nat.mod_lt _ (by decide)⟩ := by
  apply Fin.ext
  unfold place
  dsimp only
  omega

/-- Five cycles are five rounds: then the variables are back in their places. -/
theorem fiveCycle_reached {t : Nat} {hf : Input} {s : Cycle} (whole : t % 5 = 0)
    (function : ∀ i < 5, fn = Sha1.f (t + i)) (constant : ∀ i < 5, kt = Sha1.k (t + i))
    (gives : ∀ i < 5, Gives m (t + i) (hf (t + i))) (reached : Reached m x t s) :
    Reached m x (t + 5) (fiveCycle fn kt hf t s) := by
  have cycle (i : Nat) (few : i < 5) (s : Cycle) (reached : Reached m x (t + i) s) :=
    oneCycle_reached (function i few) (constant i few) (gives i few) reached
  have first := cycle 0 (by decide) _ reached
  have second := cycle 1 (by decide) _ first
  have third := cycle 2 (by decide) _ second
  have fourth := cycle 3 (by decide) _ third
  have fifth := cycle 4 (by decide) _ fourth
  simp only [places t 0 whole, places (t + 1) 1 (by omega), places (t + 2) 2 (by omega),
    places (t + 3) 3 (by omega), places (t + 4) 4 (by omega), Nat.add_zero] at fifth
  exact fifth

/-- The functions and constants of the macros are those of the rounds. -/
theorem first_rounds {t : Nat} (upper : t < 20) : ch = Sha1.f t ∧ 0x5A827999#32 = Sha1.k t := by
  refine ⟨?_, (if_pos upper).symm⟩
  funext x y z
  rw [ch_eq, Sha1.f, if_pos upper]

theorem second_rounds {t : Nat} (lower : 20 ≤ t) (upper : t < 40) :
    parity = Sha1.f t ∧ 0x6ED9EBA1#32 = Sha1.k t := by
  unfold Sha1.f Sha1.k
  rw [if_neg (by omega), if_pos upper]
  refine ⟨?_, rfl⟩
  funext x y z
  rw [if_neg (by omega), if_pos upper, parity]

theorem third_rounds {t : Nat} (lower : 40 ≤ t) (upper : t < 60) :
    maj = Sha1.f t ∧ 0x8F1BBCDC#32 = Sha1.k t := by
  unfold Sha1.f Sha1.k
  rw [if_neg (by omega), if_neg (by omega), if_pos upper]
  refine ⟨?_, rfl⟩
  funext x y z
  rw [if_neg (by omega), if_neg (by omega), if_pos upper, maj_eq]

theorem fourth_rounds {t : Nat} (lower : 60 ≤ t) :
    parity = Sha1.f t ∧ 0xCA62C1D6#32 = Sha1.k t := by
  unfold Sha1.f Sha1.k
  rw [if_neg (by omega), if_neg (by omega), if_neg (by omega)]
  refine ⟨?_, rfl⟩
  funext x y z
  rw [if_neg (by omega), if_neg (by omega), if_neg (by omega), parity]

/-- The macros in their order are the eighty rounds. -/
theorem cycles_reached {s : Cycle} (start : Reached m x 0 s) : Reached m x 80 (cycles s) := by
  have five (t : Nat) {s : Cycle} (whole : t % 5 = 0) (upper : t + 5 ≤ 16)
      (reached : Reached m x t s) :=
    fiveCycle_reached whole (fun i few => (first_rounds (show t + i < 20 by omega)).1)
      (fun i few => (first_rounds (show t + i < 20 by omega)).2)
      (fun i few => input_gives m (by omega)) reached
  have one (t : Nat) {s : Cycle} (later : 16 ≤ t) (upper : t < 20) (reached : Reached m x t s) :=
    oneCycle_reached (first_rounds upper).1 (first_rounds upper).2 (expand_gives m later) reached
  have second (t : Nat) {s : Cycle} (whole : t % 5 = 0) (lower : 20 ≤ t) (upper : t + 5 ≤ 40)
      (reached : Reached m x t s) :=
    fiveCycle_reached whole (fun i few => (second_rounds (t := t + i) (by omega) (by omega)).1)
      (fun i few => (second_rounds (t := t + i) (by omega) (by omega)).2)
      (fun i few => expand_gives m (by omega)) reached
  have third (t : Nat) {s : Cycle} (whole : t % 5 = 0) (lower : 40 ≤ t) (upper : t + 5 ≤ 60)
      (reached : Reached m x t s) :=
    fiveCycle_reached whole (fun i few => (third_rounds (t := t + i) (by omega) (by omega)).1)
      (fun i few => (third_rounds (t := t + i) (by omega) (by omega)).2)
      (fun i few => expand_gives m (by omega)) reached
  have fourth (t : Nat) {s : Cycle} (whole : t % 5 = 0) (lower : 60 ≤ t)
      (reached : Reached m x t s) :=
    fiveCycle_reached whole (fun i few => (fourth_rounds (t := t + i) (by omega)).1)
      (fun i few => (fourth_rounds (t := t + i) (by omega)).2)
      (fun i few => expand_gives m (by omega)) reached
  have at5 := five 0 rfl (by decide) start
  have at10 := five 5 rfl (by decide) at5
  have at15 := five 10 rfl (by decide) at10
  have at16 := oneCycle_reached (first_rounds (by decide)).1 (first_rounds (by decide)).2
    (input_gives m (by decide)) at15
  have at17 := one 16 (by decide) (by decide) at16
  have at18 := one 17 (by decide) (by decide) at17
  have at19 := one 18 (by decide) (by decide) at18
  have at20 := one 19 (by decide) (by decide) at19
  have at25 := second 20 rfl (by decide) (by decide) at20
  have at30 := second 25 rfl (by decide) (by decide) at25
  have at35 := second 30 rfl (by decide) (by decide) at30
  have at40 := second 35 rfl (by decide) (by decide) at35
  have at45 := third 40 rfl (by decide) (by decide) at40
  have at50 := third 45 rfl (by decide) (by decide) at45
  have at55 := third 50 rfl (by decide) (by decide) at50
  have at60 := third 55 rfl (by decide) (by decide) at55
  have at65 := fourth 60 rfl (by decide) at60
  have at70 := fourth 65 rfl (by decide) at65
  have at75 := fourth 70 rfl (by decide) at70
  exact fourth 75 rfl (by decide) at75

/-- What `sha1_compile` does to the hash is the compression of the words in the buffer. -/
theorem sha1Compile_hash (ctx : Ctx) (block : List Byte)
    (words : ∀ i, (inside : i < 16) → ctx.wbuf[i] = wordOf block i) :
    view 0 (sha1Compile ctx).hash = compress (view 0 ctx.hash) block := by
  have start : Reached (wordOf block) (view 0 ctx.hash) 0 ⟨ctx.hash, ctx.wbuf⟩ := by
    refine ⟨rfl, ?_⟩
    intro j upper _
    have first : j < 16 := by omega
    rw [schedule_input _ first, ← words j first]
    simp only [Nat.mod_eq_of_lt first]
  have vars := (cycles_reached start).vars
  unfold compress
  rw [← vars]
  rfl

end Rounds

end Stroopwafel.Sha1Ctx
