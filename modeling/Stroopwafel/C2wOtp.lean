import Stroopwafel.Scan
import Stroopwafel.Stubs

set_option autoImplicit false

namespace Stroopwafel.C2wOtp

open Memory Scan Stubs

section Model

def otpLiteral : Word := 0x0D8001EC#32

/-- PUSH {R4-R7,LR} -/
def push : Half := 0xB5F0#16

/-- `c2w_otp_replacement_t`: it starts with another push, and neither its code nor its pool holds
what the loops look for. -/
structure Stub where
  head : Half
  rest : List Half
  length : rest.length = 15
  once : head ∉ rest
  other : ∀ h ∈ head :: rest, h ≠ push ∧ h ≠ 0x0D80#16 ∧ h ≠ 0x01EC#16

def Stub.block (stub : Stub) : List Half := stub.head :: stub.rest

variable (stub : Stub)

def pushRound (b : Word) (m : Mem) : Option (ForInStep Mem) :=
  if read16 m b = push then return .done (store m b (blockBytes stub.block)) else return .yield m

def literalRound (a : Word) (m : Mem) : Option (ForInStep Mem) :=
  if read32 m a = otpLiteral then do
    let m' ← scanDown (a - 0x1000#32) 2#32 (pushRound stub) 0x802 a m
    return .yield m'
  else return .yield m

def c2wBootHookFindAndReplaceOtpread (m : Mem) : Option Mem :=
  let iosPaddr := read32 m 0x1018#32
  let iosEnd := iosPaddr + 0x260000#32
  scan iosEnd 4#32 (literalRound stub) 0x98001 iosPaddr m

end Model

section Readers

variable (m : Mem)

def iosPaddr : Nat := (read32 m 0x1018#32).toNat

/-- The image is a range of words in the address space, behind the first page and before the last
stub. -/
structure Placed : Prop where
  aligned : iosPaddr m % 4 = 0
  lower : 0x1000 < iosPaddr m
  upper : iosPaddr m + 0x260020 ≤ 2 ^ 32

def InImage (a : Word) : Prop :=
  a.toNat % 4 = 0 ∧ iosPaddr m ≤ a.toNat ∧ a.toNat < iosPaddr m + 0x260000

def IsLiteral (a : Word) : Prop := InImage m a ∧ read32 m a = otpLiteral

def IsPush (b : Word) : Prop := b.toNat % 2 = 0 ∧ read16 m b = push

/-- The nearest push in the image before a literal. -/
structure IsReader (a t : Word) : Prop where
  isPush : IsPush m t
  inImage : iosPaddr m ≤ t.toNat
  before : t.toNat ≤ a.toNat
  within : a.toNat ≤ t.toNat + 0x1000
  nearest : ∀ c, IsPush m c → c.toNat ≤ a.toNat → c.toNat ≤ t.toNat

/-- The readers of the literals below `bound`. -/
def Earlier (bound : Nat) (t : Word) : Prop :=
  ∃ a, IsLiteral m a ∧ a.toNat < bound ∧ IsReader m a t

def Reader (t : Word) : Prop := ∃ a, IsLiteral m a ∧ IsReader m a t

/-- What has to hold at a literal for the scan back to hit its reader or nothing. -/
structure Safe (a : Word) : Prop where
  apart : ∀ t e, IsReader m a t → Earlier m a.toNat e → e.toNat < t.toNat →
    e.toNat + 32 ≤ t.toNat
  again : ∀ t, IsReader m a t → Earlier m a.toNat t → t.toNat + 32 ≤ a.toNat →
    ∀ c, IsPush m c → a.toNat ≤ c.toNat + 0x1000 → c.toNat < t.toNat →
      ∃ e, Earlier m a.toNat e ∧ e.toNat ≤ c.toNat ∧ c.toNat < e.toNat + 32
  below : (¬ ∃ t, IsReader m a t) → ∀ c, IsPush m c → a.toNat ≤ c.toNat + 0x1000 →
    ¬ c.toNat < iosPaddr m

variable {m}

theorem earlier_push {bound : Nat} {e : Word} (earlier : Earlier m bound e) :
    IsPush m e ∧ iosPaddr m ≤ e.toNat ∧ e.toNat < bound := by
  obtain ⟨a, _, below, reader⟩ := earlier
  exact ⟨reader.isPush, reader.inImage, Nat.lt_of_le_of_lt reader.before below⟩

theorem reader_iff (t : Word) : Reader m t ↔ Earlier m (iosPaddr m + 0x260000) t := by
  constructor
  · intro ⟨a, literal, reader⟩
    exact ⟨a, literal, literal.1.2.2, reader⟩
  · intro ⟨a, literal, _, reader⟩
    exact ⟨a, literal, reader⟩

theorem earlier_succ {a : Word} (aligned : a.toNat % 4 = 0) (t : Word) :
    Earlier m (a.toNat + 4) t ↔ Earlier m a.toNat t ∨ (IsLiteral m a ∧ IsReader m a t) := by
  constructor
  · intro ⟨a', literal, below, reader⟩
    by_cases same : a'.toNat = a.toNat
    · rw [BitVec.eq_of_toNat_eq same] at literal reader
      exact .inr ⟨literal, reader⟩
    · have aligned' := literal.1.1
      exact .inl ⟨a', literal, by omega, reader⟩
  · intro either
    rcases either with ⟨a', literal, below, reader⟩ | ⟨literal, reader⟩
    · exact ⟨a', literal, by omega, reader⟩
    · exact ⟨a, literal, by omega, reader⟩

theorem IsReader.unique {a t t' : Word} (reader : IsReader m a t) (reader' : IsReader m a t') :
    t = t' :=
  BitVec.eq_of_toNat_eq (Nat.le_antisymm (reader'.nearest t reader.isPush reader.before)
    (reader.nearest t' reader'.isPush reader'.before))

theorem IsReader.earlier_le {a t e : Word} (reader : IsReader m a t)
    (earlier : Earlier m a.toNat e) : e.toNat ≤ t.toNat := by
  obtain ⟨isPush, _, below⟩ := earlier_push earlier
  exact reader.nearest e isPush (Nat.le_of_lt below)

/-- The highest address of a kind at or below `a`. -/
theorem exists_nearest (kind : Word → Prop) (a c : Word) (found : kind c)
    (below : c.toNat ≤ a.toNat) :
    ∃ b, kind b ∧ c.toNat ≤ b.toNat ∧ b.toNat ≤ a.toNat ∧
      ∀ c', kind c' → c'.toNat ≤ a.toNat → c'.toNat ≤ b.toNat := by
  -- on the distance to `a`
  obtain ⟨n, distance⟩ := Nat.exists_eq_add_of_le below
  induction n using Nat.strongRecOn generalizing c with
  | _ n ih =>
      by_cases higher : ∃ c', kind c' ∧ c.toNat < c'.toNat ∧ c'.toNat ≤ a.toNat
      · obtain ⟨c', found', above, below'⟩ := higher
        obtain ⟨b, isKind, lower, upper, nearest⟩ :=
          ih (a.toNat - c'.toNat) (by omega) c' found' below' (by omega)
        exact ⟨b, isKind, by omega, upper, nearest⟩
      · refine ⟨c, found, Nat.le_refl _, below, ?_⟩
        intro c' found' below'
        apply Nat.le_of_not_lt
        intro above
        exact higher ⟨c', found', above, below'⟩

theorem reader_exists {a b : Word} (isPush : IsPush m b) (inImage : iosPaddr m ≤ b.toNat)
    (before : b.toNat ≤ a.toNat) (within : a.toNat ≤ b.toNat + 0x1000) : ∃ t, IsReader m a t := by
  obtain ⟨t, isPush', lower, upper, nearest⟩ := exists_nearest (IsPush m) a b isPush before
  exact ⟨t, isPush', by omega, upper, by omega, nearest⟩

end Readers

section Rounds

variable {stub : Stub} {m cur : Mem} {a : Word}

@[simp] theorem block_length (stub : Stub) : stub.block.length = 16 := by
  unfold Stub.block
  rw [List.length_cons, stub.length]

theorem Placed.room (placed : Placed m) {w : Word} (isPush : w.toNat % 2 = 0)
    (inImage : w.toNat < iosPaddr m + 0x260000) : Room stub.block w := by
  have upper := placed.upper
  unfold Room
  rw [block_length]
  exact ⟨isPush, by omega⟩

theorem Placed.earlier_room (placed : Placed m) {bound : Nat}
    (inside : bound ≤ iosPaddr m + 0x260000) (w : Word) (earlier : Earlier m bound w) :
    Room stub.block w := by
  obtain ⟨isPush, _, below⟩ := earlier_push earlier
  exact placed.room isPush.1 (by omega)

/-- The scan back finds the nearest push there is, or none. -/
theorem literalRound_found (stub : Stub) (aligned : a.toNat % 4 = 0) (lower : 0x1000 < a.toNat)
    (literal : read32 cur a = otpLiteral) :
    ∃ cur', literalRound stub a cur = some (.yield cur') ∧
      ((∃ b, IsPush cur b ∧ b.toNat ≤ a.toNat ∧ a.toNat ≤ b.toNat + 0x1000 ∧
          (∀ c, IsPush cur c → c.toNat ≤ a.toNat → c.toNat ≤ b.toNat) ∧
          cur' = store cur b (blockBytes stub.block)) ∨
        (∀ c, IsPush cur c → c.toNat ≤ a.toNat → ¬ a.toNat ≤ c.toNat + 0x1000) ∧ cur' = cur) := by
  have ran := scanDown_ok (pushRound stub) (a - 0x1000#32) 2#32 a 0x800 0x802 (by decide)
    (by decide) (by bv_omega) (by bv_omega)
    (fun i m' => m' = cur ∧ ∀ j < i, read16 cur (a - BitVec.ofNat 32 (2 * j)) ≠ push)
    (fun cur' => (∃ b, IsPush cur b ∧ b.toNat ≤ a.toNat ∧ a.toNat ≤ b.toNat + 0x1000 ∧
          (∀ c, IsPush cur c → c.toNat ≤ a.toNat → c.toNat ≤ b.toNat) ∧
          cur' = store cur b (blockBytes stub.block)) ∨
        (∀ c, IsPush cur c → c.toNat ≤ a.toNat → ¬ a.toNat ≤ c.toNat + 0x1000) ∧ cur' = cur)
    cur ⟨rfl, fun j inside => absurd inside (Nat.not_lt_zero j)⟩ ?_ ?_
  · obtain ⟨cur', back, post⟩ := ran
    refine ⟨cur', ?_, post⟩
    unfold literalRound
    rw [if_pos literal, back]
    rfl
  · intro i inside m' ⟨same, above⟩
    subst same
    change (∃ s', pushRound stub (a - BitVec.ofNat 32 (2 * i)) m' = _ ∧ _) ∨
      ∃ s', pushRound stub (a - BitVec.ofNat 32 (2 * i)) m' = _ ∧ _
    unfold pushRound
    by_cases here : read16 m' (a - BitVec.ofNat 32 (2 * i)) = push
    · right
      refine ⟨_, if_pos here, .inl ⟨_, ⟨by bv_omega, here⟩, by bv_omega, by bv_omega, ?_, rfl⟩⟩
      intro c isPush below
      apply Nat.le_of_not_lt
      intro higher
      have even := isPush.1
      apply above ((a.toNat - c.toNat) / 2) (by bv_omega)
      rw [show a - BitVec.ofNat 32 (2 * ((a.toNat - c.toNat) / 2)) = c by bv_omega]
      exact isPush.2
    · left
      refine ⟨_, if_neg here, rfl, ?_⟩
      intro j later
      by_cases last : j = i
      · rwa [last]
      · exact above j (by omega)
  · intro m' ⟨same, above⟩
    refine .inr ⟨?_, same⟩
    intro c isPush below within
    have even := isPush.1
    apply above ((a.toNat - c.toNat) / 2) (by omega)
    rw [show a - BitVec.ofNat 32 (2 * ((a.toNat - c.toNat) / 2)) = c by bv_omega]
    exact isPush.2

theorem literalRound_other (other : read32 cur a ≠ otpLiteral) :
    literalRound stub a cur = some (.yield cur) := by
  unfold literalRound
  rw [if_neg other]
  rfl

/-- Any round copies the stub to one place or does nothing. -/
theorem literalRound_shape (stub : Stub) (placed : Placed m) (inImage : InImage m a) (cur : Mem) :
    ∃ cur', literalRound stub a cur = some (.yield cur') ∧
      (cur' = cur ∨ ∃ b, Room stub.block b ∧ cur' = store cur b (blockBytes stub.block)) := by
  obtain ⟨aligned, lower, upper⟩ := inImage
  by_cases literal : read32 cur a = otpLiteral
  · have first := placed.lower
    obtain ⟨cur', result, ⟨b, isPush, before, _, _, stored⟩ | ⟨_, same⟩⟩ :=
      literalRound_found stub aligned (by omega) literal
    · exact ⟨cur', result, .inr ⟨b, placed.room isPush.1 (by omega), stored⟩⟩
    · exact ⟨cur', result, .inl same⟩
  · exact ⟨cur, literalRound_other literal, .inl rfl⟩

section Stubbed

variable {bound : Nat} (placed : Placed m) (inside : bound ≤ iosPaddr m + 0x260000)
  (stubbed : Stubbed stub.block (Earlier m bound) m cur)
include placed inside stubbed

/-- A push that is still there. -/
theorem isPush_iff (b : Word) :
    IsPush cur b ↔ IsPush m b ∧ ¬ Covered stub.block (Earlier m bound) b := by
  have room : ∀ w, Earlier m bound w → Room stub.block w := placed.earlier_room inside
  constructor
  · intro ⟨even, here⟩
    have uncovered : ¬ Covered stub.block (Earlier m bound) b := by
      intro covered
      exact (stub.other _ (stubbed.covered room even covered)).1 here
    rw [stubbed.uncovered room even uncovered] at here
    exact ⟨⟨even, here⟩, uncovered⟩
  · intro ⟨⟨even, here⟩, uncovered⟩
    exact ⟨even, (stubbed.uncovered room even uncovered).trans here⟩

theorem literal_iff (aligned : a.toNat % 4 = 0) (within : bound ≤ a.toNat)
    (inImage : a.toNat < iosPaddr m + 0x260000) :
    read32 cur a = otpLiteral ↔
      read32 m a = otpLiteral ∧ ¬ Covered stub.block (Earlier m bound) a := by
  have room : ∀ w, Earlier m bound w → Room stub.block w := placed.earlier_room inside
  have upper := placed.upper
  have second : (a + 2#32).toNat = a.toNat + 2 := by bv_omega
  -- the places are below `a`, so that its first halfword is covered with its second
  have together : Covered stub.block (Earlier m bound) (a + 2#32) →
      Covered stub.block (Earlier m bound) a := by
    intro ⟨w, earlier, lower, upper⟩
    rw [second] at upper
    obtain ⟨_, _, below⟩ := earlier_push earlier
    exact ⟨w, earlier, by omega, by omega⟩
  by_cases covered : Covered stub.block (Earlier m bound) a
  · have notLiteral : read32 cur a ≠ otpLiteral := by
      intro literal
      have high : read16 cur a = 0x0D80#16 := by
        have half := congrArg (BitVec.extractLsb' 16 16) literal
        rw [read32, BitVec.extractLsb'_append_eq_left] at half
        exact half
      exact (stub.other _ (stubbed.covered room (by omega) covered)).2.1 high
    exact ⟨fun literal => absurd literal notLiteral, fun both => absurd covered both.2⟩
  · have uncovered : ¬ Covered stub.block (Earlier m bound) (a + 2#32) :=
      fun covered' => covered (together covered')
    have same : read32 cur a = read32 m a := by
      unfold read32
      rw [stubbed.uncovered room (by omega) covered, stubbed.uncovered room (by omega) uncovered]
    rw [same, and_iff_left covered]

end Stubbed

/-- A stub that covers what lies behind the reader of `a` is the reader's own. -/
theorem Safe.covering (apart : ∀ t e, IsReader m a t → Earlier m a.toNat e →
      e.toNat < t.toNat → e.toNat + 32 ≤ t.toNat) {t e x : Word} (reader : IsReader m a t)
    (earlier : Earlier m a.toNat e) (behind : t.toNat ≤ x.toNat)
    (covers : x.toNat < e.toNat + 32) : e = t := by
  have order := reader.earlier_le earlier
  by_cases strict : e.toNat < t.toNat
  · have gap := apart t e reader earlier strict
    omega
  · exact BitVec.eq_of_toNat_eq (by omega)

/-- A safe round hits the reader of its literal, if that has not been done before. -/
theorem literalRound_safe (placed : Placed m) (inImage : InImage m a)
    (safe : IsLiteral m a → Safe m a)
    (stubbed : Stubbed stub.block (Earlier m a.toNat) m cur) :
    ∃ cur', literalRound stub a cur = some (.yield cur') ∧
      Stubbed stub.block (Earlier m (a.toNat + 4)) m cur' := by
  obtain ⟨aligned, lower, upper⟩ := inImage
  have first := placed.lower
  have inside : a.toNat ≤ iosPaddr m + 0x260000 := Nat.le_of_lt upper
  have room : ∀ w, Earlier m a.toNat w → Room stub.block w := placed.earlier_room inside
  have literalIff := literal_iff placed inside stubbed aligned (Nat.le_refl _) upper
  have pushIff := isPush_iff placed inside stubbed
  -- nothing to do, when the reader is one already
  have done : (∀ t, IsLiteral m a → IsReader m a t → Earlier m a.toNat t) →
      Stubbed stub.block (Earlier m (a.toNat + 4)) m cur := by
    intro again
    apply stubbed.congr
    intro t
    rw [earlier_succ aligned]
    exact ⟨fun either => either.elim id fun ⟨isLiteral, reader⟩ => again t isLiteral reader, .inl⟩
  by_cases literal : read32 cur a = otpLiteral
  · obtain ⟨word, uncovered⟩ := literalIff.mp literal
    have isLiteral : IsLiteral m a := ⟨⟨aligned, lower, upper⟩, word⟩
    have isSafe := safe isLiteral
    have covering := @Safe.covering m a isSafe.apart
    obtain ⟨cur', result, found | ⟨absent, same⟩⟩ :=
      literalRound_found stub aligned (by omega) literal
    · obtain ⟨b, isPush, before, within, nearest, stored⟩ := found
      obtain ⟨isPushB, uncoveredB⟩ := (pushIff b).mp isPush
      have hasReader : ∃ t, IsReader m a t := by
        apply Classical.byContradiction
        intro none
        by_cases inImageB : iosPaddr m ≤ b.toNat
        · exact none (reader_exists isPushB inImageB before within)
        · exact isSafe.below none b isPushB within (Nat.lt_of_not_le inImageB)
      obtain ⟨t, reader⟩ := hasReader
      have order := reader.nearest b isPushB before
      by_cases covered : Covered stub.block (Earlier m a.toNat) t
      · -- the reader was hit before, so that no other push may be in reach
        obtain ⟨e, earlier, _, upper'⟩ := covered
        rw [block_length] at upper'
        rw [covering reader earlier (Nat.le_refl _) upper'] at earlier
        have beyond : t.toNat + 32 ≤ a.toNat := by
          apply Nat.le_of_not_lt
          intro covers
          exact uncovered ⟨t, earlier, reader.before, by rwa [block_length]⟩
        have other : b.toNat ≠ t.toNat := by
          intro same
          exact uncoveredB ⟨t, earlier, by omega, by rw [block_length]; omega⟩
        obtain ⟨e', earlier', lower', covers⟩ :=
          isSafe.again t reader earlier beyond b isPushB within (by omega)
        exact absurd ⟨e', earlier', lower', by rwa [block_length]⟩ uncoveredB
      · have lower' := nearest t ((pushIff t).mpr ⟨reader.isPush, covered⟩) reader.before
        have same : b = t := BitVec.eq_of_toNat_eq (Nat.le_antisymm order lower')
        subst same
        refine ⟨cur', result, ?_⟩
        rw [stored]
        have added := stubbed.store room b (placed.room isPushB.1 (by omega)) ?_
        · apply added.congr
          intro t
          rw [earlier_succ aligned]
          constructor
          · exact Or.imp_right fun ⟨_, reader'⟩ => reader'.unique reader
          · exact Or.imp_right fun same => ⟨isLiteral, same ▸ reader⟩
        · intro e earlier
          have below := reader.earlier_le earlier
          by_cases strict : e.toNat < b.toNat
          · left
            rw [block_length]
            exact isSafe.apart b e reader earlier strict
          · have same : e = b := BitVec.eq_of_toNat_eq (by omega)
            refine absurd ⟨e, earlier, below, ?_⟩ covered
            rw [block_length, same]
            omega
    · subst same
      refine ⟨cur', result, done ?_⟩
      intro t _ reader
      by_cases covered : Covered stub.block (Earlier m a.toNat) t
      · obtain ⟨e, earlier, lower', upper'⟩ := covered
        rw [block_length] at upper'
        exact covering reader earlier (Nat.le_refl _) upper' ▸ earlier
      · exact absurd reader.within
          (absent t ((pushIff t).mpr ⟨reader.isPush, covered⟩) reader.before)
  · refine ⟨cur, literalRound_other literal, done ?_⟩
    intro t isLiteral reader
    have covered : Covered stub.block (Earlier m a.toNat) a := by
      apply Classical.not_not.mp
      intro uncovered
      exact literal (literalIff.mpr ⟨isLiteral.2, uncovered⟩)
    obtain ⟨e, earlier, _, upper'⟩ := covered
    rw [block_length] at upper'
    exact Safe.covering (safe isLiteral).apart reader earlier reader.before upper' ▸ earlier

end Rounds

section Run

variable {stub : Stub} {m : Mem}

/-- An invariant of the outer loop, by the address that it has come to. -/
theorem run_ok (stub : Stub) (placed : Placed m) (inv : Nat → Mem → Prop)
    (init : inv (iosPaddr m) m)
    (round : ∀ a, InImage m a → ∀ cur, inv a.toNat cur →
      ∃ cur', literalRound stub a cur = some (.yield cur') ∧ inv (a.toNat + 4) cur') :
    ∃ m', c2wBootHookFindAndReplaceOtpread stub m = some m' ∧
      inv (iosPaddr m + 0x260000) m' := by
  have aligned := placed.aligned
  have upper := placed.upper
  unfold iosPaddr at aligned upper
  apply scan_ok (literalRound stub) _ 4#32 _ 0x98000 0x98001 (by decide) (by decide)
    (by bv_omega) (fun i cur => inv (iosPaddr m + 4 * i) cur)
  · exact init
  · intro i inside cur holds
    have address : (read32 m 0x1018#32 + BitVec.ofNat 32 ((4#32 : Word).toNat * i)).toNat =
        iosPaddr m + 4 * i := by
      unfold iosPaddr
      bv_omega
    have inImage : InImage m
        (read32 m 0x1018#32 + BitVec.ofNat 32 ((4#32 : Word).toNat * i)) := by
      unfold InImage
      rw [address]
      unfold iosPaddr
      omega
    rw [← address] at holds
    obtain ⟨cur', result, kept⟩ := round _ inImage cur holds
    rw [address] at kept
    exact .inl ⟨cur', result, kept⟩
  · exact fun _ holds => holds

theorem run_safe (placed : Placed m) (safe : ∀ a, IsLiteral m a → Safe m a) :
    ∃ m', c2wBootHookFindAndReplaceOtpread stub m = some m' ∧
      Stubbed stub.block (Reader m) m m' := by
  have result := run_ok stub placed
    (fun bound => Stubbed stub.block (Earlier m bound) m) ?_ ?_
  · obtain ⟨m', ran, stubbed⟩ := result
    exact ⟨m', ran, stubbed.congr reader_iff⟩
  · apply Stubbed.none
    intro t ⟨a, literal, below, _⟩
    exact absurd literal.1.2.1 (Nat.not_le_of_lt below)
  · intro a inImage cur stubbed
    exact literalRound_safe placed inImage (safe a) stubbed

/-- The nearest push that is there when a literal is met is gone in the end. -/
theorem nearest_gone (placed : Placed m) {a b : Word} (literal : IsLiteral m a)
    (safe : ∀ a', IsLiteral m a' → a'.toNat < a.toNat → Safe m a')
    (uncovered : ¬ Covered stub.block (Earlier m a.toNat) a) (isPush : IsPush m b)
    (uncoveredB : ¬ Covered stub.block (Earlier m a.toNat) b) (before : b.toNat ≤ a.toNat)
    (within : a.toNat ≤ b.toNat + 0x1000)
    (nearest : ∀ c, IsPush m c → ¬ Covered stub.block (Earlier m a.toNat) c →
      c.toNat ≤ a.toNat → c.toNat ≤ b.toNat) :
    ∃ m', c2wBootHookFindAndReplaceOtpread stub m = some m' ∧ read16 m' b ≠ push := by
  obtain ⟨alignedA, lowerA, upperA⟩ := literal.1
  have inside : a.toNat ≤ iosPaddr m + 0x260000 := Nat.le_of_lt upperA
  -- up to `a` the stubs are at the readers; behind `a` no round brings the push back
  have result := run_ok stub placed (fun bound cur =>
    (bound ≤ a.toNat → Stubbed stub.block (Earlier m bound) m cur) ∧
      (a.toNat < bound → read16 cur b ≠ push)) ⟨?_, ?_⟩ ?_
  · obtain ⟨m', ran, _, gone⟩ := result
    exact ⟨m', ran, gone upperA⟩
  · intro _
    apply Stubbed.none
    intro t ⟨a', literal', below, _⟩
    exact absurd literal'.1.2.1 (Nat.not_le_of_lt below)
  · intro above
    exact absurd lowerA (Nat.not_le_of_lt above)
  · intro x inImage cur ⟨stubs, gone⟩
    have alignedX := inImage.1
    rcases Nat.lt_trichotomy x.toNat a.toNat with before' | same | behind
    · obtain ⟨cur', result, stubbed⟩ := literalRound_safe placed inImage
        (fun literal' => safe x literal' before') (stubs (Nat.le_of_lt before'))
      exact ⟨cur', result, fun _ => stubbed, fun passed => by omega⟩
    · have here : x = a := BitVec.eq_of_toNat_eq same
      subst here
      have stubbed := stubs (Nat.le_refl _)
      have pushIff := isPush_iff placed inside stubbed
      have met : read32 cur x = otpLiteral :=
        (literal_iff placed inside stubbed alignedA (Nat.le_refl _) upperA).mpr
          ⟨literal.2, uncovered⟩
      have first := placed.lower
      obtain ⟨cur', result, ⟨b', isPush', before', _, nearest', stored⟩ | ⟨absent, _⟩⟩ :=
        literalRound_found stub alignedA (by omega) met
      · obtain ⟨isPushB, uncoveredB'⟩ := (pushIff b').mp isPush'
        have same' : b' = b := BitVec.eq_of_toNat_eq (Nat.le_antisymm
          (nearest b' isPushB uncoveredB' before')
          (nearest' b ((pushIff b).mpr ⟨isPush, uncoveredB⟩) before))
        refine ⟨cur', result, fun passed => by omega, fun _ => ?_⟩
        have head := read16_store_block cur b' stub.block 0 (by simp) (by simp)
        rw [Nat.mul_zero, BitVec.add_zero, same'] at head
        rw [stored, same', head]
        exact (stub.other _ (List.getElem_mem _)).1
      · exact absurd within (absent b ((pushIff b).mpr ⟨isPush, uncoveredB⟩) before)
    · obtain ⟨cur', result, unchanged | ⟨b', room, stored⟩⟩ :=
        literalRound_shape stub placed inImage cur
      · exact ⟨cur', result, fun passed => by omega, fun _ => unchanged ▸ gone behind⟩
      · refine ⟨cur', result, fun passed => by omega, fun _ => ?_⟩
        rw [stored]
        rcases read16_block b' b room isPush.1 with isStub | kept
        · exact (stub.other _ isStub).1
        · rw [kept]
          exact gone behind

/-- Where the stub is at the readers only, every literal was safe. -/
theorem safe_of_stubbed (placed : Placed m) (m' : Mem)
    (ran : c2wBootHookFindAndReplaceOtpread stub m = some m')
    (stubbed : Stubbed stub.block (Reader m) m m') (a : Word) (literal : IsLiteral m a) :
    Safe m a := by
  obtain ⟨n, bound⟩ : ∃ n, a.toNat < n := ⟨a.toNat + 1, Nat.lt_succ_self _⟩
  induction n generalizing a with
  | zero => exact absurd bound (Nat.not_lt_zero _)
  | succ n ih =>
      have earlierSafe : ∀ a', IsLiteral m a' → a'.toNat < a.toNat → Safe m a' :=
        fun a' literal' below => ih a' literal' (by omega)
      have readerRoom : ∀ w, Reader m w → Room stub.block w := fun w reader =>
        placed.earlier_room (Nat.le_refl _) w ((reader_iff w).mp reader)
      have isReader : ∀ {e}, Earlier m a.toNat e → Reader m e :=
        fun ⟨a', literal', _, reader⟩ => ⟨a', literal', reader⟩
      have apart : ∀ t e, IsReader m a t → Earlier m a.toNat e → e.toNat < t.toNat →
          e.toNat + 32 ≤ t.toNat := by
        intro t e reader earlier order
        have gap := Stubbed.apart stubbed readerRoom stub.once e t (isReader earlier)
          ⟨a, literal, reader⟩ order
        rwa [show 2 * (stub.head :: stub.rest).length = 32 by
          rw [List.length_cons, stub.length]] at gap
      -- a push in reach that is there when `a` is met is overwritten, and so near to a reader
      have overwritten : ¬ Covered stub.block (Earlier m a.toNat) a → ∀ c, IsPush m c →
          ¬ Covered stub.block (Earlier m a.toNat) c → c.toNat ≤ a.toNat →
          a.toNat ≤ c.toNat + 0x1000 → ∃ b r, IsPush m b ∧
            ¬ Covered stub.block (Earlier m a.toNat) b ∧ c.toNat ≤ b.toNat ∧ b.toNat ≤ a.toNat ∧
            Reader m r ∧ r.toNat ≤ b.toNat ∧ b.toNat < r.toNat + 32 := by
        intro uncovered c isPush uncoveredC before within
        obtain ⟨b, ⟨isPushB, uncoveredB⟩, lower, upper, nearest⟩ := exists_nearest
          (fun c => IsPush m c ∧ ¬ Covered stub.block (Earlier m a.toNat) c) a c
          ⟨isPush, uncoveredC⟩ before
        obtain ⟨m'', ran', gone⟩ := nearest_gone placed literal earlierSafe uncovered isPushB
          uncoveredB upper (by omega) fun c' isPush' uncovered' =>
            nearest c' ⟨isPush', uncovered'⟩
        rw [ran] at ran'
        cases ran'
        have covered : Covered stub.block (Reader m) b := by
          apply Classical.byContradiction
          intro outside
          rw [stubbed.uncovered readerRoom isPushB.1 outside] at gone
          exact gone isPushB.2
        obtain ⟨r, reader, lower', upper'⟩ := covered
        rw [block_length] at upper'
        exact ⟨b, r, isPushB, uncoveredB, lower, upper, reader, lower', upper'⟩
      refine ⟨apart, ?_, ?_⟩
      · intro t reader earlier beyond c isPush within below
        apply Classical.byContradiction
        intro free
        have uncovered : ¬ Covered stub.block (Earlier m a.toNat) a := by
          intro ⟨e, earlier', _, covers⟩
          rw [block_length] at covers
          have same := Safe.covering apart reader earlier' reader.before covers
          rw [same] at covers
          omega
        have uncoveredC : ¬ Covered stub.block (Earlier m a.toNat) c := by
          intro ⟨e, earlier', lower, covers⟩
          rw [block_length] at covers
          exact free ⟨e, earlier', lower, covers⟩
        have before := reader.before
        obtain ⟨b, r, isPushB, uncoveredB, _, upper, ⟨a', literal', reader'⟩, lower', covers⟩ :=
          overwritten uncovered c isPush uncoveredC (by omega) within
        have order := reader.nearest b isPushB upper
        by_cases earlier' : a'.toNat < a.toNat
        · apply uncoveredB
          exact ⟨r, ⟨a', literal', earlier', reader'⟩, lower', by rwa [block_length]⟩
        · have order' := reader'.nearest t reader.isPush (by omega)
          have same : b = t := BitVec.eq_of_toNat_eq (by omega)
          apply uncoveredB
          rw [same]
          exact ⟨t, earlier, Nat.le_refl _, by rw [block_length]; omega⟩
      · intro none c isPush within below
        have lowerA := literal.1.2.1
        have uncovered : ¬ Covered stub.block (Earlier m a.toNat) a := by
          intro ⟨e, earlier, lower, covers⟩
          rw [block_length] at covers
          obtain ⟨isPush', inImage, _⟩ := earlier_push earlier
          exact none (reader_exists isPush' inImage lower (by omega))
        have uncoveredC : ¬ Covered stub.block (Earlier m a.toNat) c := by
          intro ⟨e, earlier, lower, _⟩
          have inImage := (earlier_push earlier).2.1
          omega
        obtain ⟨b, r, isPushB, _, lower, upper, ⟨_, _, reader'⟩, lower', _⟩ :=
          overwritten uncovered c isPush uncoveredC (by omega) within
        have inImage := reader'.inImage
        exact none (reader_exists isPushB (by omega) upper (by omega))

end Run

section Replaced

/-- The stub ends up at the readers and nothing else changes if and only if every literal is
safe. -/
theorem replaced_iff (stub : Stub) (m : Mem) (placed : Placed m) :
    (∃ m', c2wBootHookFindAndReplaceOtpread stub m = some m' ∧
      Stubbed stub.block (Reader m) m m') ↔ ∀ a, IsLiteral m a → Safe m a :=
  ⟨fun ⟨m', ran, stubbed⟩ => safe_of_stubbed placed m' ran stubbed, run_safe placed⟩

/-- The stub as it is assembled. -/
def c2wOtpReplacement : Stub where
  head := 0xB530#16
  rest := [0x188C#16, 0x4D05#16, 0x0080#16, 0x1828#16, 0x42A1#16, 0xD004#16, 0x7802#16, 0x700A#16,
    0x3001#16, 0x3101#16, 0xE7F8#16, 0xBD30#16, 0x0000#16, 0xFFF0#16, 0x7C80#16]
  length := rfl
  once := by decide
  other := by
    simp [push]

/-- Two functions, and two literals that belong to the second. -/
def sampleImage : List Word :=
  [0xB5F00000#32] ++ List.replicate 15 0#32 ++ [0xB5F00000#32] ++ List.replicate 8 0#32 ++
    [otpLiteral, otpLiteral]

def sampleMem : Mem :=
  store (write32 (fun _ => 0#8) 0x1018#32 0x13000000#32) 0x13000000#32
    (sampleImage.flatMap bytes32)

theorem sampleMem_paddr : iosPaddr sampleMem = 0x13000000 := by
  decide

theorem sampleMem_placed : Placed sampleMem where
  aligned := by decide
  lower := by decide
  upper := by decide

theorem replaced_iff_sample :
    (∃ m', c2wBootHookFindAndReplaceOtpread c2wOtpReplacement sampleMem = some m' ∧
      Stubbed c2wOtpReplacement.block (Reader sampleMem) sampleMem m') ↔
      ∀ a, IsLiteral sampleMem a → Safe sampleMem a :=
  replaced_iff c2wOtpReplacement sampleMem sampleMem_placed

theorem sampleMem_reader (a : Word) (lower : 0x13000040 ≤ a.toNat) (upper : a.toNat ≤ 0x13000068) :
    IsReader sampleMem a 0x13000040#32 := by
  refine ⟨⟨by decide, by decide⟩, by decide, lower, by bv_omega, ?_⟩
  intro c isPush below
  apply Nat.le_of_not_lt
  intro above
  have between : ∀ i < 20, read16 sampleMem (0x13000042#32 + BitVec.ofNat 32 (2 * i)) ≠ push := by
    decide
  have even := isPush.1
  apply between ((c.toNat - 0x13000042) / 2) (by bv_omega)
  rw [show 0x13000042#32 + BitVec.ofNat 32 (2 * ((c.toNat - 0x13000042) / 2)) = c by bv_omega]
  exact isPush.2

/-- No literal belongs to the first function. -/
theorem sampleMem_first (a : Word) (literal : IsLiteral sampleMem a) (below : a.toNat < 0x13000068)
    (reader : IsReader sampleMem a 0x13000000#32) : False := by
  obtain ⟨⟨aligned, lower, _⟩, word⟩ := literal
  rw [sampleMem_paddr] at lower
  by_cases second : 0x13000040 ≤ a.toNat
  · exact absurd ((sampleMem_reader a second (by omega)).unique reader) (by decide)
  · have before : ∀ i < 16, read32 sampleMem (0x13000000#32 + BitVec.ofNat 32 (4 * i)) ≠
        otpLiteral := by
      decide
    apply before ((a.toNat - 0x13000000) / 4) (by omega)
    rw [show 0x13000000#32 + BitVec.ofNat 32 (4 * ((a.toNat - 0x13000000) / 4)) = a by bv_omega]
    exact word

/-- With the push of the second function gone, the second literal brings the stub to the first. -/
theorem unrelated_overwritten :
    ¬ ∃ m', c2wBootHookFindAndReplaceOtpread c2wOtpReplacement sampleMem = some m' ∧
      Stubbed c2wOtpReplacement.block (Reader sampleMem) sampleMem m' := by
  rintro ⟨m', ran, stubbed⟩
  have literals : IsLiteral sampleMem 0x13000064#32 ∧ IsLiteral sampleMem 0x13000068#32 :=
    ⟨⟨by unfold InImage; decide, by decide⟩, by unfold InImage; decide, by decide⟩
  have safe := safe_of_stubbed sampleMem_placed m' ran stubbed _ literals.2
  obtain ⟨e, ⟨a, literal, below, reader⟩, lower, _⟩ := safe.again 0x13000040#32
    (sampleMem_reader _ (by decide) (by decide))
    ⟨0x13000064#32, literals.1, by decide, sampleMem_reader _ (by decide) (by decide)⟩ (by decide)
    0x13000000#32 ⟨by decide, by decide⟩ (by decide) (by decide)
  have inImage := reader.inImage
  rw [sampleMem_paddr] at inImage
  have first : e = 0x13000000#32 := by bv_omega
  exact sampleMem_first a literal below (first ▸ reader)

end Replaced

end Stroopwafel.C2wOtp
