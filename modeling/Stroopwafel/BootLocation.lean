import Stroopwafel.IpcIoctl
import Stroopwafel.RedSeeprom

set_option autoImplicit false

namespace Stroopwafel.Ipc

open Memory CString Prsh

/-- `MIN_DEV_SLC` and `MIN_DEV_SD` -/
abbrev minDevSlc : Word := 1#32
abbrev minDevSd : Word := 2#32

/-- `sizeof(minute_path_t)`; the path follows the device. -/
abbrev minutePathBytes : Nat := 260

/-- Where one of the two decoders has the names that it looks for. -/
structure Names where
  minuteOnSlc : Word
  minuteLocation : Word

structure Names.Stand (names : Names) (m : Mem) : Prop where
  minuteOnSlc : Str m names.minuteOnSlc (chars "minute_on_slc".toList)
  minuteLocation : Str m names.minuteLocation (chars "minute_location".toList)
  onSlcNonzero : names.minuteOnSlc ≠ 0#32
  locationNonzero : names.minuteLocation ≠ 0#32

def slcPath : List Byte := chars "/vol/system/hax".toList
def sdPath : List Byte := chars "/vol/sdcard".toList
def fwImg : List Byte := chars "fw.img".toList
def minuteImg : List Byte := chars "minute.img".toList

/-- Where `init_config` has the names that it looks for. -/
structure ConfigNames extends Names where
  minuteBoot : Word
  stroopwafelConfig : Word
  rednand : Word
  otp : Word
  seeprom : Word

/-- `is_55x`, and what `init_config` calls. `rednand_init` can end in `crash_and_burn` too. -/
structure Setup where
  is55x : Bool
  rednandInit : Mem → Word → Word → Option Mem
  redseepromEnable : Mem → Word → Mem

/-- `initilized` of a `rednand_config`. -/
def initilized (m : Mem) (rednandConf : Word) : Prop := m (rednandConf + 26#32) ≠ 0#8

instance (m : Mem) (rednandConf : Word) : Decidable (initilized m rednandConf) :=
  inferInstanceAs (Decidable (_ ≠ _))

section InitConfig

variable (debug : Bool) (setup : Setup) (buf : Buffers) (m : Mem) (s : State)

/-- The part of `init_config` that sets redNAND up. -/
def configRednand (name : Word) : Option (Mem × State) :=
  let out := prshGetEntry debug m s name (some 0#32) (some 0#32)
  let rednandConf := out.data.getD 0#32
  if out.ret ≥ 0 ∧ initilized m rednandConf then
    if setup.is55x then
      (setup.rednandInit m rednandConf (out.size.getD 0#32)).map fun m => (m, out.state)
    else none
  else some (m, out.state)

/-- The part that chooses where `fw.img` is loaded from. The data pointer itself is the
location. -/
def configLocation (names : Names) : Mem × State :=
  let out := prshGetEntry debug m s names.minuteOnSlc none none
  let minuteOnSlc := decide (out.ret = 0)
  let out := prshGetEntry debug m out.state names.minuteLocation (some 0#32) none
  let minuteLocation := out.data.getD 0#32
  let (m, minuteOnSlc) :=
    if out.ret = 0 then
      (if minuteLocation.getLsbD 1 then strcpy m buf.fwImgFilenameBuffer minuteImg else m,
        minuteLocation.getLsbD 0)
    else (m, minuteOnSlc)
  (if minuteOnSlc then strcpy m buf.fwImgPathBuffer slcPath else m, out.state)

structure Config where
  mem : Mem
  prsh : State
  otpPtr : Word

/-- The part for the OTP and the SEEPROM. -/
def configKeys (otp seeprom otpPtr : Word) : Option Config :=
  let out := prshGetEntry debug m s otp (some otpPtr) (some 0#32)
  let otpPtr := out.data.getD otpPtr
  let out := prshGetEntry debug m out.state seeprom (some 0#32) (some 0#32)
  if out.ret = 0 then
    if (out.size.getD 0#32).toNat < RedSeeprom.seepromSize then none
    else some ⟨setup.redseepromEnable m (out.data.getD 0#32), out.state, otpPtr⟩
  else some ⟨m, out.state, otpPtr⟩

/-- `none` where `crash_and_burn` ends it. -/
def initConfig (names : ConfigNames) (otpPtr : Word) : Option Config :=
  let out := prshGetEntry debug m s names.minuteBoot none none
  if out.ret ≠ 0 then none
  else
    let out := prshGetEntry debug m out.state names.stroopwafelConfig (some 0#32) (some 0#32)
    (configRednand debug setup m out.state names.rednand).bind fun found =>
      let located := configLocation debug buf found.1 found.2 names.toNames
      configKeys debug setup located.1 located.2 names.otp names.seeprom otpPtr

end InitConfig

/-- A word is read through a pointer; what an unaligned load gives is left to the machine. -/
def loadWord (unaligned : Mem → Word → Word) (m : Mem) (p : Word) : Word :=
  if p.toNat % 4 = 0 then read32 m p else unaligned m p

/-- `IOCTL_GET_MINUTE_PATH`. The data pointer points at the location. -/
def ioctlGetMinutePath (debug : Bool) (unaligned : Mem → Word → Word) (names : Names) (m : Mem)
    (s : State) (bufferIo lengthIo : Word) : Word × Mem × State :=
  if bufferIo ≠ 0#32 ∧ minutePathBytes ≤ lengthIo.toNat then
    let out := prshGetEntry debug m s names.minuteOnSlc none none
    let minuteOnSlc := decide (out.ret = 0)
    let out := prshGetEntry debug m out.state names.minuteLocation (some 0#32) none
    let pLocation := out.data.getD 0#32
    let (minuteOnSlc, filename) :=
      if out.ret = 0 ∧ pLocation ≠ 0#32 then
        let location := loadWord unaligned m pLocation
        (location.getLsbD 0, if location.getLsbD 1 then minuteImg else fwImg)
      else (minuteOnSlc, fwImg)
    let (device, path) :=
      if minuteOnSlc then (minDevSlc, chars "/sys/hax/".toList ++ filename)
      else (minDevSd, chars "/".toList ++ filename)
    (BitVec.ofNat 32 minutePathBytes,
      strcpy (write32 m bufferIo device) (bufferIo + 4#32) path, out.state)
  else (iosErrorInvalidArg, m, s)

/-- The data pointer of the first entry that has the name. -/
def lookup (m : Mem) (name : Word) : Option Word :=
  match findMagic m windowWords windowStart with
  | none => none
  | some buffer =>
      let header := buffer - 4#32
      if (totalEntries m header).toNat > maxEntries then none
      else (searchFrom m header name (entries m header).toNat 0).1.map (entryData m header)

theorem prshGetEntry_lookup (debug : Bool) (m : Mem) (s : State) (name : Word)
    (data size : Option Word) (before : s = prshReset ∨ s = settled m) (named : name ≠ 0#32) :
    let out := prshGetEntry debug m s name data size
    out.state = settled m ∧ (out.ret = 0 ↔ (lookup m name).isSome) ∧
      (lookup m name = none → out.ret < 0 ∧ out.data = data) ∧
      ∀ p, lookup m name = some p → out.data = data.map fun _ => p := by
  refine ⟨prshGetEntry_state debug m s name data size before, ?_⟩
  by_cases found : ∃ header, Located m header
  · obtain ⟨header, located⟩ := found
    have place : lookup m name =
        if (totalEntries m header).toNat > maxEntries then none
        else (searchFrom m header name (entries m header).toNat 0).1.map (entryData m header) := by
      rw [lookup, (located_iff m header).mp located]
      simp only [BitVec.add_sub_cancel]
    by_cases sound : (totalEntries m header).toNat ≤ maxEntries
    · rw [if_neg (Nat.not_lt.mpr sound)] at place
      cases result : (searchFrom m header name (entries m header).toNat 0).1 with
      | some i =>
          obtain ⟨ret, delivered, _⟩ := prshGetEntry_found debug m s name data size before named
            located sound result
          rw [result] at place
          simp only [ret, delivered, place, Option.map_some, Option.isSome_some,
            reduceCtorEq, false_imp_iff, Option.some.injEq, true_and]
          rintro p rfl
          rfl
      | none =>
          obtain ⟨ret, kept, _⟩ := prshGetEntry_absent debug m s name data size before named
            located sound result
          rw [result] at place
          simp [ret, kept, place]
    · have corrupt := Nat.lt_of_not_le sound
      obtain ⟨ret, kept, _⟩ := prshGetEntry_corrupt debug m s name data size before named located
        corrupt
      rw [if_pos corrupt] at place
      simp [ret, kept, place]
  · obtain ⟨ret, kept, _⟩ := prshGetEntry_missing debug m s name data size before named found
    have nowhere : lookup m name = none := by
      unfold lookup
      split
      · rfl
      · rename_i buffer magicFound
        refine absurd ⟨buffer - 4#32, ?_⟩ found
        rw [located_iff, magicFound, BitVec.sub_add_cancel]
    simp [ret, kept, nowhere]

/-- Both memories hold the same table: the window, and the header and entries that are found
by it. -/
structure SameTable (m m' : Mem) : Prop where
  window : ∀ k < windowWords, read32 m' (windowStart + BitVec.ofNat 32 (4 * k)) =
    read32 m (windowStart + BitVec.ofNat 32 (4 * k))
  totalEntries : ∀ header, Located m header → totalEntries m' header = totalEntries m header
  entries : ∀ header, Located m header → entries m' header = entries m header
  name : ∀ header, Located m header → ∀ i < (Prsh.entries m header).toNat, ∀ j < nameBytes,
    m' (entryAddress header i + BitVec.ofNat 32 j) = m (entryAddress header i + BitVec.ofNat 32 j)
  data : ∀ header, Located m header → ∀ i < (Prsh.entries m header).toNat,
    entryData m' header i = entryData m header i

section Table

variable {m m' : Mem}

theorem findMagic_congr (remaining : Nat) (start : Word)
    (same : ∀ k < remaining, read32 m' (start + BitVec.ofNat 32 (4 * k)) =
      read32 m (start + BitVec.ofNat 32 (4 * k))) :
    findMagic m' remaining start = findMagic m remaining start := by
  induction remaining generalizing start with
  | zero => rfl
  | succ remaining ih =>
      have here := same 0 (by omega)
      rw [Nat.mul_zero, BitVec.add_zero] at here
      rw [findMagic, findMagic, here, ih]
      intro k inside
      rw [next_word]
      exact same (k + 1) (by omega)

theorem searchFrom_congr {header name name' : Word} (remaining i : Nat)
    (same : ∀ j, i ≤ j → j < i + remaining →
      strncmp m' name' (entryAddress header j) nameBytes =
        strncmp m name (entryAddress header j) nameBytes) :
    searchFrom m' header name' remaining i = searchFrom m header name remaining i := by
  induction remaining generalizing i with
  | zero => rfl
  | succ remaining ih =>
      rw [searchFrom, searchFrom, same i (Nat.le_refl i) (by omega), ih (i + 1)]
      intro j lower upper
      exact same j (by omega) (by omega)

theorem SameTable.findMagic (table : SameTable m m') :
    findMagic m' windowWords windowStart = findMagic m windowWords windowStart :=
  findMagic_congr _ _ table.window

theorem SameTable.settled (table : SameTable m m') : settled m' = settled m := by
  unfold Prsh.settled
  rw [table.findMagic]
  split
  · rfl
  · rename_i buffer found
    have located : Located m (buffer - 4#32) := by
      rw [located_iff, found, BitVec.sub_add_cancel]
    rw [table.totalEntries _ located]

theorem SameTable.refl (m : Mem) : SameTable m m :=
  ⟨fun _ _ => rfl, fun _ _ => rfl, fun _ _ => rfl, fun _ _ _ _ _ _ => rfl, fun _ _ _ _ => rfl⟩

/-- A memory whose bytes come from two that have the table has it. -/
theorem SameTable.mixed {m₁ m₂ : Mem} (first : SameTable m m₁) (second : SameTable m m₂)
    (either : ∀ x, m' x = m₁ x ∨ m' x = m₂ x) : SameTable m m' := by
  have word : ∀ a, read32 m₁ a = read32 m a → read32 m₂ a = read32 m a →
      read32 m' a = read32 m a := by
    intro a same₁ same₂
    apply Same.read32
    intro i inside
    rcases either (a + BitVec.ofNat 32 i) with from₁ | from₂
    · exact from₁.trans (same_of_read32 same₁ i inside)
    · exact from₂.trans (same_of_read32 same₂ i inside)
  exact
    { window := fun k inside => word _ (first.window k inside) (second.window k inside)
      totalEntries := fun header located =>
        word _ (first.totalEntries header located) (second.totalEntries header located)
      entries := fun header located =>
        word _ (first.entries header located) (second.entries header located)
      name := by
        intro header located i used j inside
        rcases either (entryAddress header i + BitVec.ofNat 32 j) with from₁ | from₂
        · exact from₁.trans (first.name header located i used j inside)
        · exact from₂.trans (second.name header located i used j inside)
      data := fun header located i used =>
        word _ (first.data header located i used) (second.data header located i used) }

/-- The same entry is found for a name, wherever the name stands. -/
theorem SameTable.lookup (table : SameTable m m') {name name' : Word} {s : List Byte}
    (str : Str m name s) (str' : Str m' name' s) : lookup m' name' = lookup m name := by
  unfold Ipc.lookup
  rw [table.findMagic]
  split
  · rfl
  · rename_i buffer found
    have located : Located m (buffer - 4#32) := by
      rw [located_iff, found, BitVec.sub_add_cancel]
    have searched : searchFrom m' (buffer - 4#32) name' (Prsh.entries m (buffer - 4#32)).toNat 0 =
        searchFrom m (buffer - 4#32) name (Prsh.entries m (buffer - 4#32)).toNat 0 := by
      apply searchFrom_congr
      intro i _ inside
      exact strncmp_congr str str' _ _ (table.name _ located i (by omega))
    simp only [table.totalEntries _ located, table.entries _ located, searched]
    split
    · rfl
    · rcases searchFrom_spec m (buffer - 4#32) name (Prsh.entries m (buffer - 4#32)).toNat 0 with
        ⟨i, first, _, inside, _⟩ | ⟨none, _⟩
      · rw [first, Option.map_some, Option.map_some, table.data _ located i (by omega)]
      · rw [none, Option.map_none, Option.map_none]

end Table

/-- What a decoder makes of the two entries: the device, and the file name. -/
@[ext] structure Choice where
  slc : Bool
  filename : List Byte

/-- The choice that the word `location` stands for. -/
def Choice.ofLocation (location : Word) : Choice :=
  ⟨location.getLsbD 0, if location.getLsbD 1 then minuteImg else fwImg⟩

/-- `init_config` takes the pointer for the word. -/
def configured (onSlc location : Option Word) : Choice :=
  match location with
  | none => ⟨onSlc.isSome, fwImg⟩
  | some p => .ofLocation p

/-- The command reads the word behind the pointer. -/
def reported (load : Word → Word) (onSlc location : Option Word) : Choice :=
  match location with
  | none => ⟨onSlc.isSome, fwImg⟩
  | some p => if p = 0#32 then ⟨onSlc.isSome, fwImg⟩ else .ofLocation (load p)

theorem configLocation_eq (debug : Bool) (buf : Buffers) (names : Names) (m : Mem) (s : State)
    (before : s = prshReset ∨ s = settled m) (stand : names.Stand m) :
    let choice := configured (lookup m names.minuteOnSlc) (lookup m names.minuteLocation)
    let named := if choice.filename = minuteImg then
      strcpy m buf.fwImgFilenameBuffer minuteImg else m
    configLocation debug buf m s names =
      (if choice.slc then strcpy named buf.fwImgPathBuffer slcPath else named, settled m) := by
  obtain ⟨state, onSlc, _⟩ := prshGetEntry_lookup debug m s names.minuteOnSlc none none before
    stand.onSlcNonzero
  obtain ⟨state', location, absent, present⟩ := prshGetEntry_lookup debug m (settled m)
    names.minuteLocation (some 0#32) none (.inr rfl) stand.locationNonzero
  simp only [configLocation, state, state', onSlc, location]
  cases found : lookup m names.minuteLocation with
  | none =>
      simp only [configured, Option.isSome_none, Bool.false_eq_true, if_false,
        show fwImg ≠ minuteImg by decide]
      simp
  | some p =>
      simp only [configured, present p found, Choice.ofLocation, Option.isSome_some, if_true,
        Option.map_some, Option.getD_some]
      by_cases minute : p.getLsbD 1 = true
      · simp only [minute, if_true]
      · simp [show fwImg ≠ minuteImg by decide]

theorem ioctlGetMinutePath_eq (debug : Bool) (unaligned : Mem → Word → Word) (names : Names)
    (m : Mem) (s : State) (bufferIo lengthIo : Word) (before : s = prshReset ∨ s = settled m)
    (stand : names.Stand m) (present : bufferIo ≠ 0#32)
    (room : minutePathBytes ≤ lengthIo.toNat) :
    let choice := reported (loadWord unaligned m) (lookup m names.minuteOnSlc)
      (lookup m names.minuteLocation)
    ioctlGetMinutePath debug unaligned names m s bufferIo lengthIo =
      (BitVec.ofNat 32 minutePathBytes,
        strcpy (write32 m bufferIo (if choice.slc then minDevSlc else minDevSd)) (bufferIo + 4#32)
          ((if choice.slc then chars "/sys/hax/".toList else chars "/".toList) ++ choice.filename),
        settled m) := by
  obtain ⟨state, onSlc, _⟩ := prshGetEntry_lookup debug m s names.minuteOnSlc none none before
    stand.onSlcNonzero
  obtain ⟨state', location, absent, delivered⟩ := prshGetEntry_lookup debug m (settled m)
    names.minuteLocation (some 0#32) none (.inr rfl) stand.locationNonzero
  simp only [ioctlGetMinutePath, present, ne_eq, not_false_eq_true, room, and_self, if_true, state,
    state', onSlc, location]
  cases found : lookup m names.minuteLocation with
  | none =>
      simp only [reported, Option.isSome_none, Bool.false_eq_true, false_and, if_false]
      by_cases slc : (lookup m names.minuteOnSlc).isSome = true
      · simp [slc]
      · simp [slc]
  | some p =>
      simp only [reported, delivered p found, Choice.ofLocation, Option.isSome_some, true_and,
        Option.map_some, Option.getD_some]
      by_cases null : p = 0#32
      · by_cases slc : (lookup m names.minuteOnSlc).isSome = true
        · simp [null, slc]
        · simp [null, slc]
      · simp only [null, not_false_eq_true, if_true, if_false]
        cases (loadWord unaligned m p).getLsbD 0 with
        | true => rfl
        | false => rfl

/-- The answer in `out` names what the buffers in `m` hold. -/
structure Agrees (buf : Buffers) (m out : Mem) (bufferIo : Word) : Prop where
  device : read32 out bufferIo = minDevSlc ↔ Str m buf.fwImgPathBuffer slcPath
  filename : ∃ dir base, Str out (bufferIo + 4#32) (dir ++ slash :: base) ∧ slash ∉ base ∧
    Str m buf.fwImgFilenameBuffer base

/-- The buffers hold what was chosen. -/
structure Holds (buf : Buffers) (m : Mem) (choice : Choice) : Prop where
  path : Str m buf.fwImgPathBuffer (if choice.slc then slcPath else sdPath)
  filename : Str m buf.fwImgFilenameBuffer choice.filename

/-- A choice names one of the two images. -/
def Choice.Known (choice : Choice) : Prop :=
  choice.filename = fwImg ∨ choice.filename = minuteImg

theorem Choice.ofLocation_known (location : Word) : (Choice.ofLocation location).Known := by
  unfold ofLocation Known
  cases location.getLsbD 1 with
  | true => exact .inr rfl
  | false => exact .inl rfl

theorem configured_known (onSlc location : Option Word) : (configured onSlc location).Known := by
  unfold configured
  split
  · exact .inl rfl
  · exact Choice.ofLocation_known _

theorem reported_known (load : Word → Word) (onSlc location : Option Word) :
    (reported load onSlc location).Known := by
  unfold reported
  split
  · exact .inl rfl
  · split
    · exact .inl rfl
    · exact Choice.ofLocation_known _

theorem Choice.ofLocation_eq_iff (location location' : Word) :
    Choice.ofLocation location = Choice.ofLocation location' ↔
      location.getLsbD 0 = location'.getLsbD 0 ∧ location.getLsbD 1 = location'.getLsbD 1 := by
  unfold ofLocation
  rw [Choice.mk.injEq]
  apply and_congr_right
  intro _
  cases location.getLsbD 1 <;> cases location'.getLsbD 1 <;> decide

theorem Choice.Known.slashless {choice : Choice} (known : choice.Known) :
    slash ∉ choice.filename ∧ 0#8 ∉ choice.filename ∧ choice.filename.length ≤ 10 := by
  rcases known with name | name
  · rw [name]
    decide
  · rw [name]
    decide

/-- Both ways to read the entries make the same choice under this condition. -/
def Consistent (load : Word → Word) (onSlc location : Option Word) : Prop :=
  match location with
  | none => True
  | some p =>
      if p = 0#32 then onSlc = none
      else (load p).getLsbD 0 = p.getLsbD 0 ∧ (load p).getLsbD 1 = p.getLsbD 1

theorem reported_eq_configured_iff (load : Word → Word) (onSlc location : Option Word) :
    reported load onSlc location = configured onSlc location ↔ Consistent load onSlc location := by
  unfold reported configured Consistent
  cases location with
  | none => exact iff_of_true rfl trivial
  | some p =>
      by_cases null : p = 0#32
      · subst null
        simp only [if_true, Choice.ofLocation, Choice.mk.injEq]
        cases onSlc with
        | none => simp
        | some q => simp
      · simp only [if_neg null]
        exact Choice.ofLocation_eq_iff _ _

/-- What is left in the buffers. -/
theorem configLocation_holds (debug : Bool) (buf : Buffers) (names : Names) (m : Mem) (s : State)
    (before : s = prshReset ∨ s = settled m) (stand : names.Stand m) (buffers : buf.Apart)
    (path : Str m buf.fwImgPathBuffer sdPath) (filename : Str m buf.fwImgFilenameBuffer fwImg) :
    Holds buf (configLocation debug buf m s names).1
      (configured (lookup m names.minuteOnSlc) (lookup m names.minuteLocation)) := by
  have known := configured_known (lookup m names.minuteOnSlc) (lookup m names.minuteLocation)
  rw [configLocation_eq debug buf names m s before stand]
  generalize configured (lookup m names.minuteOnSlc) (lookup m names.minuteLocation) = choice
    at known
  have step : ∀ named, Str named buf.fwImgPathBuffer sdPath →
      Str named buf.fwImgFilenameBuffer choice.filename →
      Holds buf (if choice.slc then strcpy named buf.fwImgPathBuffer slcPath else named)
        choice := by
    intro named path' filename'
    cases slc : choice.slc with
    | false => exact ⟨by simpa [slc] using path', filename'⟩
    | true =>
        refine ⟨by simpa [slc] using strcpy_str named _ slcPath (by decide) (by decide), ?_⟩
        apply filename'.congr
        intro i inside
        have short := known.slashless.2.2
        refine store_apart named _ _ 32 _ ?_ i (by omega)
        exact (Memory.Apart.comm buffers).mono (Nat.le_refl _) (by decide)
  by_cases minute : choice.filename = minuteImg
  · rw [if_pos minute]
    apply step
    · apply path.congr
      intro i inside
      refine store_apart m _ _ pathBufferBytes _ ?_ i (Nat.lt_of_le_of_lt inside (by decide))
      exact Memory.Apart.mono buffers (Nat.le_refl _) (by decide)
    · rw [minute]
      exact strcpy_str m _ minuteImg (by decide) (by decide)
  · rw [if_neg minute]
    have image := known.resolve_right minute
    exact step m path (image ▸ filename)

/-- `rednand_init` leaves what the lookups and the command use alone. -/
structure Kept (buf : Buffers) (names : Names) (m m' : Mem) : Prop where
  table : SameTable m m'
  stand : names.Stand m'
  path : Same m m' buf.fwImgPathBuffer pathBufferBytes
  filename : Same m m' buf.fwImgFilenameBuffer filenameBufferBytes

structure Setup.Spares (setup : Setup) (buf : Buffers) (names : Names) (m : Mem) : Prop where
  rednand : ∀ conf size m', setup.rednandInit m conf size = some m' → Kept buf names m m'
  path : ∀ m' seeprom,
    Same m' (setup.redseepromEnable m' seeprom) buf.fwImgPathBuffer pathBufferBytes
  filename : ∀ m' seeprom,
    Same m' (setup.redseepromEnable m' seeprom) buf.fwImgFilenameBuffer filenameBufferBytes

section Returns

variable {debug : Bool} {setup : Setup} {buf : Buffers} {m : Mem} {s : State}

theorem configKeys_same {otp seeprom otpPtr : Word} {config : Config}
    (returned : configKeys debug setup m s otp seeprom otpPtr = some config) {a : Word} {n : Nat}
    (spares : ∀ m' buffer, Same m' (setup.redseepromEnable m' buffer) a n) :
    Same m config.mem a n := by
  unfold configKeys at returned
  dsimp only at returned
  split at returned
  · split at returned
    · cases returned
    · obtain rfl := Option.some.inj returned
      exact spares m _
  · obtain rfl := Option.some.inj returned
    exact .refl _ _ _

variable (before : s = prshReset ∨ s = settled m)
include before

theorem configRednand_returns {name : Word} {found : Mem × State}
    (returned : configRednand debug setup m s name = some found) :
    found.2 = settled m ∧
      (found.1 = m ∨ ∃ conf size, setup.rednandInit m conf size = some found.1) := by
  have state := prshGetEntry_state debug m s name (some 0#32) (some 0#32) before
  unfold configRednand at returned
  simp only [state] at returned
  split at returned
  · split at returned
    · obtain ⟨m₁, ran, rfl⟩ := Option.map_eq_some_iff.mp returned
      exact ⟨rfl, .inr ⟨_, _, ran⟩⟩
    · cases returned
  · obtain rfl := Option.some.inj returned
    exact ⟨rfl, .inl rfl⟩

theorem configKeys_state {otp seeprom otpPtr : Word} {config : Config}
    (returned : configKeys debug setup m s otp seeprom otpPtr = some config) :
    config.prsh = settled m := by
  have first := prshGetEntry_state debug m s otp (some otpPtr) (some 0#32) before
  have second := prshGetEntry_state debug m (settled m) seeprom (some 0#32) (some 0#32) (.inr rfl)
  unfold configKeys at returned
  simp only [first, second] at returned
  split at returned
  · split at returned
    · cases returned
    · obtain rfl := Option.some.inj returned
      rfl
  · obtain rfl := Option.some.inj returned
    rfl

theorem initConfig_returns {names : ConfigNames} {otpPtr : Word} {config : Config}
    (returned : initConfig debug setup buf m s names otpPtr = some config) :
    ∃ m₁, (m₁ = m ∨ ∃ conf size, setup.rednandInit m conf size = some m₁) ∧
      let located := configLocation debug buf m₁ (settled m) names.toNames
      configKeys debug setup located.1 located.2 names.otp names.seeprom otpPtr = some config := by
  have first := prshGetEntry_state debug m s names.minuteBoot none none before
  have second := prshGetEntry_state debug m (settled m) names.stroopwafelConfig (some 0#32)
    (some 0#32) (.inr rfl)
  unfold initConfig at returned
  simp only [first, second] at returned
  split at returned
  · cases returned
  · obtain ⟨found, ran, keys⟩ := Option.bind_eq_some_iff.mp returned
    obtain ⟨state, origin⟩ := configRednand_returns (.inr rfl) ran
    rw [state] at keys
    exact ⟨found.1, origin, keys⟩

end Returns

/-- Only the two buffers are stored to. -/
theorem configLocation_outside (debug : Bool) (buf : Buffers) (names : Names) (m : Mem) (s : State)
    (before : s = prshReset ∨ s = settled m) (stand : names.Stand m) (x : Word)
    (path : Beyond x buf.fwImgPathBuffer pathBufferBytes)
    (filename : Beyond x buf.fwImgFilenameBuffer filenameBufferBytes) :
    (configLocation debug buf m s names).1 x = m x := by
  have inPath : Beyond x buf.fwImgPathBuffer (slcPath ++ [0#8]).length := fun i inside =>
    path i (Nat.lt_of_lt_of_le inside (by decide))
  have inFilename : Beyond x buf.fwImgFilenameBuffer (minuteImg ++ [0#8]).length :=
    fun i inside => filename i (Nat.lt_of_lt_of_le inside (by decide))
  rw [configLocation_eq debug buf names m s before stand]
  dsimp only
  split
  · rw [strcpy, store_beyond _ x inPath]
    split
    · rw [strcpy, store_beyond _ x inFilename]
    · rfl
  · split
    · rw [strcpy, store_beyond _ x inFilename]
    · rfl

/-- What `init_config` leaves, as long as the table and the two buffers stay as they are. -/
theorem initConfig_holds (debug : Bool) (setup : Setup) (buf : Buffers) (names : ConfigNames)
    (m : Mem) (s : State) (otpPtr : Word) (before : s = prshReset ∨ s = settled m)
    (stand : names.Stand m) (buffers : buf.Apart) (path : Str m buf.fwImgPathBuffer sdPath)
    (filename : Str m buf.fwImgFilenameBuffer fwImg) (spares : setup.Spares buf names.toNames m)
    {config : Config} (returned : initConfig debug setup buf m s names otpPtr = some config)
    {m' : Mem} (table : SameTable m m')
    (keptPath : Same config.mem m' buf.fwImgPathBuffer pathBufferBytes)
    (keptFilename : Same config.mem m' buf.fwImgFilenameBuffer filenameBufferBytes) :
    Holds buf m' (configured (lookup m names.minuteOnSlc) (lookup m names.minuteLocation)) ∧
      config.prsh = settled m' := by
  obtain ⟨m₁, origin, keys⟩ := initConfig_returns before returned
  have kept : Kept buf names.toNames m m₁ := by
    rcases origin with rfl | ⟨conf, size, ran⟩
    · exact ⟨.refl _, stand, .refl _ _ _, .refl _ _ _⟩
    · exact spares.rednand conf size m₁ ran
  have state : settled m = settled m₁ := kept.table.settled.symm
  have known := configured_known (lookup m names.minuteOnSlc) (lookup m names.minuteLocation)
  have stored := configLocation_holds debug buf names.toNames m₁ (settled m) (.inr state)
    kept.stand buffers
    (path.congr fun i inside => kept.path i (Nat.lt_of_le_of_lt inside (by decide)))
    (filename.congr fun i inside => kept.filename i (Nat.lt_of_le_of_lt inside (by decide)))
  have outside := configLocation_outside debug buf names.toNames m₁ (settled m) (.inr state)
    kept.stand
  have chosen : (configLocation debug buf m₁ (settled m) names.toNames).2 = settled m := by
    rw [configLocation_eq debug buf names.toNames m₁ (settled m) (.inr state) kept.stand, state]
  rw [kept.table.lookup stand.minuteOnSlc kept.stand.minuteOnSlc,
    kept.table.lookup stand.minuteLocation kept.stand.minuteLocation] at stored
  generalize configLocation debug buf m₁ (settled m) names.toNames = located
    at keys stored outside chosen
  have samePath : Same located.1 m' buf.fwImgPathBuffer pathBufferBytes :=
    (configKeys_same keys spares.path).trans keptPath
  have sameFilename : Same located.1 m' buf.fwImgFilenameBuffer filenameBufferBytes :=
    (configKeys_same keys spares.filename).trans keptFilename
  -- where a buffer was stored to it is as the command finds it, with the table
  have either : ∀ x, located.1 x = m₁ x ∨ located.1 x = m' x := by
    intro x
    by_cases inPath : Beyond x buf.fwImgPathBuffer pathBufferBytes
    · by_cases inFilename : Beyond x buf.fwImgFilenameBuffer filenameBufferBytes
      · exact .inl (outside x inPath inFilename)
      · unfold Beyond at inFilename
        push Not at inFilename
        obtain ⟨i, inside, rfl⟩ := inFilename
        exact .inr (sameFilename i inside).symm
    · unfold Beyond at inPath
      push Not at inPath
      obtain ⟨i, inside, rfl⟩ := inPath
      exact .inr (samePath i inside).symm
  have tableLocated : SameTable m located.1 := kept.table.mixed table either
  refine ⟨⟨?_, ?_⟩, ?_⟩
  · refine stored.path.congr fun i inside => samePath i (Nat.lt_of_le_of_lt inside ?_)
    split <;> decide
  · have short := known.slashless.2.2
    exact stored.filename.congr fun i inside => sameFilename i
      (Nat.lt_of_le_of_lt inside (Nat.lt_of_le_of_lt short (by decide)))
  · have settledLocated := tableLocated.settled
    rw [configKeys_state (.inr (chosen.trans settledLocated.symm)) keys, settledLocated,
      table.settled]

theorem Holds.slc_iff {buf : Buffers} {m : Mem} {choice : Choice} (holds : Holds buf m choice) :
    Str m buf.fwImgPathBuffer slcPath ↔ choice.slc = true := by
  cases slc : choice.slc with
  | true => simpa [slc] using holds.path
  | false =>
      have path := holds.path
      rw [slc] at path
      exact iff_of_false (fun other => absurd (path.unique other) (by decide)) (by decide)

/-- The path does not touch the device in front of it. -/
theorem minutePath_device (m : Mem) (bufferIo device : Word) (path : List Byte)
    (short : path.length < 256) :
    read32 (strcpy (write32 m bufferIo device) (bufferIo + 4#32) path) bufferIo = device := by
  have order := apart_offsets bufferIo 0 4 4 (path ++ [0#8]).length (by omega)
    (by rw [List.length_append, List.length_singleton]; omega) (by omega)
  rw [BitVec.add_zero] at order
  rw [strcpy, (store_apart _ _ _ 4 _ order).read32, read32_write32]

/-- A path that is written says what the buffers hold exactly when both choices are one. -/
theorem agrees_iff (buf : Buffers) (m out : Mem) (bufferIo : Word) (choice answer : Choice)
    (holds : Holds buf m choice) (known : answer.Known) (front : List Byte)
    (device : read32 out bufferIo = if answer.slc then minDevSlc else minDevSd)
    (path : Str out (bufferIo + 4#32) (front ++ slash :: answer.filename)) :
    Agrees buf m out bufferIo ↔ answer = choice := by
  have slashless := known.slashless.1
  have deviceSlc :
      (if answer.slc then minDevSlc else minDevSd) = minDevSlc ↔ answer.slc = true := by
    cases answer.slc <;> decide
  constructor
  · intro agrees
    have both := agrees.device
    rw [device, deviceSlc, holds.slc_iff] at both
    obtain ⟨dir, base, path', last, name⟩ := agrees.filename
    have sameName := (last_slash_unique slashless last (path.unique path')).2
    exact Choice.ext (Bool.eq_iff_iff.mpr both) (sameName.trans (name.unique holds.filename))
  · rintro rfl
    refine ⟨?_, front, answer.filename, path, slashless, holds.filename⟩
    rw [device, deviceSlc, holds.slc_iff]

/-- The answer of the command as a device and a path with one last slash. -/
theorem ioctlGetMinutePath_answer (debug : Bool) (unaligned : Mem → Word → Word) (names : Names)
    (m : Mem) (s : State) (bufferIo lengthIo : Word) (before : s = prshReset ∨ s = settled m)
    (stand : names.Stand m) (present : bufferIo ≠ 0#32)
    (room : minutePathBytes ≤ lengthIo.toNat) :
    let answer := reported (loadWord unaligned m) (lookup m names.minuteOnSlc)
      (lookup m names.minuteLocation)
    let out := (ioctlGetMinutePath debug unaligned names m s bufferIo lengthIo).2.1
    (read32 out bufferIo = if answer.slc then minDevSlc else minDevSd) ∧
      ∃ front, Str out (bufferIo + 4#32) (front ++ slash :: answer.filename) := by
  have known := reported_known (loadWord unaligned m) (lookup m names.minuteOnSlc)
    (lookup m names.minuteLocation)
  simp only [ioctlGetMinutePath_eq debug unaligned names m s bufferIo lengthIo before stand present
    room]
  generalize reported (loadWord unaligned m) (lookup m names.minuteOnSlc)
    (lookup m names.minuteLocation) = answer at known
  obtain ⟨_, nonzero, short⟩ := known.slashless
  have filed : ∀ front : List Byte, 0#8 ∉ front → front.length ≤ 8 →
      0#8 ∉ (front ++ [slash]) ++ answer.filename ∧
        ((front ++ [slash]) ++ answer.filename).length < 256 := by
    intro front plain few
    rw [List.mem_append, List.mem_append, List.mem_singleton, List.length_append,
      List.length_append, List.length_singleton, not_or, not_or]
    exact ⟨⟨⟨plain, by decide⟩, nonzero⟩, by omega⟩
  have written : ∀ (device : Word) (front : List Byte), 0#8 ∉ front → front.length ≤ 8 →
      let out := strcpy (write32 m bufferIo device) (bufferIo + 4#32)
        ((front ++ [slash]) ++ answer.filename)
      read32 out bufferIo = device ∧
        ∃ front, Str out (bufferIo + 4#32) (front ++ slash :: answer.filename) := by
    intro device front plain few
    obtain ⟨absent, bound⟩ := filed front plain few
    refine ⟨minutePath_device m bufferIo device _ bound, front, ?_⟩
    have str := strcpy_str (write32 m bufferIo device) (bufferIo + 4#32) _ absent (by omega)
    rwa [List.append_assoc front [slash], List.singleton_append] at str ⊢
  cases answer.slc with
  | true => exact written minDevSlc (chars "/sys/hax".toList) (by decide) (by decide)
  | false => exact written minDevSd [] (by decide) (by decide)

/-- What is reported is what was configured exactly for a consistent location. -/
theorem ioctlGetMinutePath_agrees_iff (debug : Bool) (unaligned : Mem → Word → Word)
    (setup : Setup) (buf : Buffers) (names : ConfigNames) (names' : Names) (m m' : Mem) (s : State)
    (otpPtr bufferIo lengthIo : Word) (before : s = prshReset ∨ s = settled m)
    (stand : names.Stand m) (stand' : names'.Stand m') (buffers : buf.Apart)
    (path : Str m buf.fwImgPathBuffer sdPath) (filename : Str m buf.fwImgFilenameBuffer fwImg)
    (spares : setup.Spares buf names.toNames m) (config : Config)
    (returned : initConfig debug setup buf m s names otpPtr = some config)
    (table : SameTable m m')
    (keptPath : Same config.mem m' buf.fwImgPathBuffer pathBufferBytes)
    (keptFilename : Same config.mem m' buf.fwImgFilenameBuffer filenameBufferBytes)
    (present : bufferIo ≠ 0#32) (room : minutePathBytes ≤ lengthIo.toNat) :
    Agrees buf m'
        (ioctlGetMinutePath debug unaligned names' m' config.prsh bufferIo lengthIo).2.1
        bufferIo ↔
      Consistent (loadWord unaligned m') (lookup m names.minuteOnSlc)
        (lookup m names.minuteLocation) := by
  obtain ⟨holds, state⟩ := initConfig_holds debug setup buf names m s otpPtr before stand buffers
    path filename spares returned table keptPath keptFilename
  obtain ⟨device, front, written⟩ := ioctlGetMinutePath_answer debug unaligned names' m' _ bufferIo
    lengthIo (.inr state) stand' present room
  rw [table.lookup stand.minuteOnSlc stand'.minuteOnSlc,
    table.lookup stand.minuteLocation stand'.minuteLocation] at device written
  rw [agrees_iff buf m' _ bufferIo _ _ holds (reported_known _ _ _) front device written,
    reported_eq_configured_iff]

def namesSample : ConfigNames where
  minuteOnSlc := 0x05200000#32
  minuteLocation := 0x05200100#32
  minuteBoot := 0x05200200#32
  stroopwafelConfig := 0x05200300#32
  rednand := 0x05200400#32
  otp := 0x05200500#32
  seeprom := 0x05200600#32

/-- `minute_boot`, and `minute_location` with the data pointer 0x08000000, where the word 3 is. -/
def tableSample : Mem :=
  let m := writeWords (fun _ => 0#8) 0x100003FC#32 [0#32, magic, 0#32, 0#32, 0#32, 2#32, 2#32]
  let m := strcpy m (entryAddress 0x100003FC#32 0) (chars "minute_boot".toList)
  let m := write32 m (entryAddress 0x100003FC#32 0 + 0x100#32) 2#32
  let m := strcpy m (entryAddress 0x100003FC#32 1) (chars "minute_location".toList)
  let m := write32 m (entryAddress 0x100003FC#32 1 + 0x100#32) 0x08000000#32
  let m := write32 m 0x08000000#32 3#32
  let m := strcpy m namesSample.minuteOnSlc (chars "minute_on_slc".toList)
  let m := strcpy m namesSample.minuteLocation (chars "minute_location".toList)
  let m := strcpy m namesSample.minuteBoot (chars "minute_boot".toList)
  let m := strcpy m namesSample.stroopwafelConfig (chars "stroopwafel_config".toList)
  let m := strcpy m namesSample.rednand (chars "rednand".toList)
  let m := strcpy m namesSample.otp (chars "otp".toList)
  let m := strcpy m namesSample.seeprom (chars "seeprom".toList)
  strcpy (strcpy m bufferSample.fwImgPathBuffer sdPath) bufferSample.fwImgFilenameBuffer fwImg

/-- The table has nothing to set up. -/
def setupSample : Setup := ⟨true, fun m _ _ => some m, fun m _ => m⟩

theorem tableSample_stand : namesSample.Stand tableSample where
  minuteOnSlc := ⟨by decide +kernel, by decide +kernel, by decide, by decide⟩
  minuteLocation := ⟨by decide +kernel, by decide +kernel, by decide, by decide⟩
  onSlcNonzero := by decide
  locationNonzero := by decide

theorem tableSample_path : Str tableSample bufferSample.fwImgPathBuffer sdPath :=
  ⟨by decide +kernel, by decide +kernel, by decide, by decide⟩

theorem tableSample_filename : Str tableSample bufferSample.fwImgFilenameBuffer fwImg :=
  ⟨by decide +kernel, by decide +kernel, by decide, by decide⟩

theorem tableSample_lookup : lookup tableSample namesSample.minuteOnSlc = none ∧
    lookup tableSample namesSample.minuteLocation = some 0x08000000#32 := by
  decide +kernel

theorem setupSample_spares : setupSample.Spares bufferSample namesSample.toNames tableSample where
  rednand _ _ m' ran := by
    obtain rfl := Option.some.inj ran
    exact ⟨.refl _, tableSample_stand, .refl _ _ _, .refl _ _ _⟩
  path _ _ := .refl _ _ _
  filename _ _ := .refl _ _ _

def configSample : Config := ⟨tableSample, settled tableSample, 0#32⟩

theorem tableSample_config :
    initConfig false setupSample bufferSample tableSample prshReset namesSample 0#32 =
      some configSample := by
  obtain ⟨first, boot, -⟩ := prshGetEntry_lookup false tableSample prshReset
    namesSample.minuteBoot none none (.inl rfl) (by decide)
  have located : configLocation false bufferSample tableSample (settled tableSample)
      namesSample.toNames = (tableSample, settled tableSample) := by
    rw [configLocation_eq _ _ _ _ _ (.inr rfl) tableSample_stand, tableSample_lookup.1,
      tableSample_lookup.2]
    rfl
  have present : (lookup tableSample namesSample.minuteBoot).isSome = true := by
    decide +kernel
  obtain ⟨noRednand, noOtp, noSeeprom⟩ : lookup tableSample namesSample.rednand = none ∧
      lookup tableSample namesSample.otp = none ∧
      lookup tableSample namesSample.seeprom = none := by
    decide +kernel
  have missing := fun name data (named : name ≠ 0#32) =>
    prshGetEntry_lookup false tableSample (settled tableSample) name (some data) (some 0#32)
      (.inr rfl) named
  obtain ⟨second, -, -, -⟩ := missing namesSample.stroopwafelConfig 0#32 (by decide)
  obtain ⟨third, -, rednand, -⟩ := missing namesSample.rednand 0#32 (by decide)
  obtain ⟨fourth, -, otp, -⟩ := missing namesSample.otp 0#32 (by decide)
  obtain ⟨last, -, seeprom, -⟩ := missing namesSample.seeprom 0#32 (by decide)
  have skipped : configRednand false setupSample tableSample (settled tableSample)
      namesSample.rednand = some (tableSample, settled tableSample) := by
    unfold configRednand
    dsimp only
    rw [if_neg fun both => absurd (rednand noRednand).1 (Int.not_lt.mpr both.1), third]
  have kept : configKeys false setupSample tableSample (settled tableSample) namesSample.otp
      namesSample.seeprom 0#32 = some configSample := by
    unfold configKeys
    simp only [fourth, last]
    rw [if_neg (Int.ne_of_lt (seeprom noSeeprom).1), (otp noOtp).2]
    rfl
  unfold initConfig
  simp only [first, second, ne_eq, boot.mpr present, not_true_eq_false, if_false]
  rw [skipped, Option.bind_some, located]
  exact kept

/-- The answer to the command in the sample. -/
def answerSample : Mem :=
  (ioctlGetMinutePath false read32 namesSample.toNames tableSample configSample.prsh
    0x08100000#32 260#32).2.1

theorem ioctlGetMinutePath_agrees_iff_sample :
    Agrees bufferSample tableSample answerSample 0x08100000#32 ↔
      Consistent (loadWord read32 tableSample) (lookup tableSample namesSample.minuteOnSlc)
        (lookup tableSample namesSample.minuteLocation) :=
  ioctlGetMinutePath_agrees_iff false read32 setupSample bufferSample namesSample
    namesSample.toNames tableSample tableSample prshReset 0#32 0x08100000#32 260#32 (.inl rfl)
    tableSample_stand tableSample_stand bufferSample_apart tableSample_path tableSample_filename
    setupSample_spares configSample tableSample_config (.refl _) (.refl _ _ _) (.refl _ _ _)
    (by decide) (by decide)

/-- The SLC is reported, and the SD card is configured. -/
theorem ioctlGetMinutePath_disagrees :
    initConfig false setupSample bufferSample tableSample prshReset namesSample 0#32 =
        some configSample ∧
      ¬ Agrees bufferSample tableSample answerSample 0x08100000#32 := by
  refine ⟨tableSample_config, ?_⟩
  have device := (ioctlGetMinutePath_answer false read32 namesSample.toNames tableSample _
    0x08100000#32 260#32 (.inr (show configSample.prsh = settled tableSample from rfl))
    tableSample_stand (by decide) (by decide)).1
  rw [tableSample_lookup.1, tableSample_lookup.2] at device
  have slc : read32 answerSample 0x08100000#32 = minDevSlc :=
    device.trans (by decide +kernel)
  intro agrees
  exact absurd (tableSample_path.unique (agrees.device.mp slc)) (by decide)

end Stroopwafel.Ipc
