import Stroopwafel.CString

set_option autoImplicit false

namespace Stroopwafel.Dynamic

open Memory CString

abbrev ipxElfMagic : Word := 0x7F454C46#32
abbrev ptDynamic : Word := 2#32

abbrev dtNull : Word := 0#32
abbrev dtPltrelsz : Word := 2#32
abbrev dtStrtab : Word := 5#32
abbrev dtSymtab : Word := 6#32
abbrev dtRel : Word := 17#32
abbrev dtRelsz : Word := 18#32
abbrev dtJmprel : Word := 23#32

abbrev rArmAbs32 : Word := 2#32
abbrev rArmGlobDat : Word := 21#32
abbrev rArmJumpSlot : Word := 22#32
abbrev rArmRelative : Word := 23#32

/-- `sizeof(Elf32_Phdr)`, `sizeof(Elf32_Dyn)`, `sizeof(Elf32_Rel)` and `sizeof(Elf32_Sym)` -/
abbrev phdrBytes : Nat := 32
abbrev dynBytes : Nat := 8
abbrev relBytes : Nat := 8
abbrev symBytes : Nat := 16

/-- `ELF32_R_SYM` and `ELF32_R_TYPE` -/
def relSym (info : Word) : Nat := info.toNat / 256
def relType (info : Word) : Word := info &&& 0xFF#32

section Headers

variable (m : Mem) (base : Word)

def wafelGetPluginPhdrs : Word :=
  if read32 m base ≠ ipxElfMagic then 0#32 else base + read32 m (base + 28#32)

def wafelGetPluginNumPhdrs : Nat :=
  if read32 m base ≠ ipxElfMagic then 0 else (read16 m (base + 44#32)).toNat

/-- The first header that is `PT_DYNAMIC`, of the `remaining` ones from `ph` on. -/
def findDynamic : Nat → Word → Word
  | 0, _ => 0#32
  | remaining + 1, ph =>
      if read32 m ph = ptDynamic then base + read32 m (ph + 8#32)
      else findDynamic remaining (ph + BitVec.ofNat 32 phdrBytes)

def wafelGetPluginDynamic : Word :=
  let phdrs := wafelGetPluginPhdrs m base
  let count := wafelGetPluginNumPhdrs m base
  if phdrs = 0#32 ∨ count = 0 then 0#32 else findDynamic m base count phdrs

def wafelPluginNext : Word := read32 m (base + read32 m (base + 24#32) + 0x10#32)

end Headers

/-- What is gathered from a dynamic section. A pointer that is 0 is `NULL`. -/
structure Scan where
  symtab : Word
  strtab : Word
  rel : Word
  relsz : Word

/-- The sizes of both tables are summed, and the later pointer of the two is kept. -/
def Scan.entry (base : Word) (s : Scan) (tag val : Word) : Scan :=
  if tag = dtSymtab then { s with symtab := base + val }
  else if tag = dtStrtab then { s with strtab := base + val }
  else if tag = dtRel ∨ tag = dtJmprel then { s with rel := base + val }
  else if tag = dtRelsz ∨ tag = dtPltrelsz then
    { s with relsz := s.relsz + BitVec.ofNat 32 (val.toNat / relBytes) }
  else s

/-- The loop up to `DT_NULL`, over `fuel` entries at most. -/
def scan (m : Mem) (base : Word) : Nat → Word → Scan → Scan
  | 0, _, s => s
  | fuel + 1, dyn, s =>
      if read32 m dyn = dtNull then s
      else scan m base fuel (dyn + BitVec.ofNat 32 dynBytes)
        (s.entry base (read32 m dyn) (read32 m (dyn + 4#32)))

def scanDynamic (m : Mem) (base dyn : Word) : Scan :=
  scan m base (2 ^ 32) dyn ⟨0#32, 0#32, 0#32, 0#32⟩

section Symbols

variable (m : Mem)

/-- The fields of an `Elf32_Sym`. -/
def stName (sym : Word) : Word := read32 m sym
def stValue (sym : Word) : Word := read32 m (sym + 4#32)
def stShndx (sym : Word) : Half := read16 m (sym + 14#32)

def symAddress (symtab : Word) (i : Nat) : Word := symtab + BitVec.ofNat 32 (symBytes * i)

/-- A symbol with the name and a value that is not 0, of the `remaining` ones from the `i`-th. -/
def findValue (base symtab strtab name : Word) : Nat → Nat → Word
  | 0, _ => 0#32
  | remaining + 1, i =>
      let sym := symAddress symtab i
      if strncmp m (strtab + stName m sym) name (2 ^ 32) = 0 ∧ stValue m sym ≠ 0#32 then
        base + stValue m sym
      else findValue base symtab strtab name remaining (i + 1)

/-- The symbol table is taken to end where the string table starts. -/
def wafelGetSymbolAddr (base name : Word) : Word :=
  let s := scanDynamic m base (wafelGetPluginDynamic m base)
  findValue m base s.symtab s.strtab name ((s.strtab - s.symtab).toNat / symBytes) 0

def wafelFindSymbol (name : Word) : List Word → Word
  | [] => 0#32
  | elf :: rest =>
      let ptr := wafelGetSymbolAddr m elf name
      if ptr ≠ 0#32 then ptr else wafelFindSymbol name rest

end Symbols

/-- The value that a relocation stores. The addend is left out. -/
def symVal (m : Mem) (elfs : List Word) (base symtab strtab rel : Word) : Word :=
  let symIdx := relSym (read32 m (rel + 4#32))
  let sym := symAddress symtab symIdx
  let name := strtab + stName m sym
  let val := if stValue m sym = 0#32 then 0#32 else base + stValue m sym
  if stShndx m sym = 0#16 ∧ symIdx ≠ 0 then wafelFindSymbol m name elfs else val

def linkOne (elfs : List Word) (base symtab strtab : Word) (m : Mem) (rel : Word) : Mem :=
  let type := relType (read32 m (rel + 4#32))
  if type = rArmRelative then m
  else if type = rArmGlobDat ∨ type = rArmJumpSlot ∨ type = rArmAbs32 then
    write32 m (base + read32 m rel) (symVal m elfs base symtab strtab rel)
  else m

/-- The memory, and the addresses that were taken for relocations. -/
def linkFrom (elfs : List Word) (base symtab strtab : Word) :
    Nat → Word → Mem × List Word → Mem × List Word
  | 0, _, p => p
  | remaining + 1, rel, p => linkFrom elfs base symtab strtab remaining
      (rel + BitVec.ofNat 32 relBytes)
      (linkOne elfs base symtab strtab p.1 rel, p.2 ++ [rel])

def wafelLinkPlugin (m : Mem) (elfs : List Word) (base : Word) : Mem × List Word :=
  let dyn := wafelGetPluginDynamic m base
  if dyn = 0#32 then (m, [])
  else
    let s := scanDynamic m base dyn
    if s.rel = 0#32 then (m, [])
    else linkFrom elfs base s.symtab s.strtab s.relsz.toNat s.rel (m, [])

/-- The entries `ds` stand at `dyn`, with `DT_NULL` behind them. -/
inductive DynAt (m : Mem) : Word → List (Word × Word) → Prop where
  | null (dyn : Word) : read32 m dyn = dtNull → DynAt m dyn []
  | entry (dyn tag val : Word) (rest : List (Word × Word)) : read32 m dyn = tag → tag ≠ dtNull →
      read32 m (dyn + 4#32) = val → DynAt m (dyn + BitVec.ofNat 32 dynBytes) rest →
      DynAt m dyn ((tag, val) :: rest)

/-- The entries with one tag. -/
def values (ds : List (Word × Word)) (tag : Word) : List Word :=
  (ds.filter fun d => d.1 = tag).map Prod.snd

/-- A relocation table, as the dynamic section describes it. -/
structure Table where
  ptr : Word
  size : Word

def Table.count (t : Table) : Nat := t.size.toNat / relBytes

/-- `count` relocations, the first at `rel`. -/
def relsFrom (rel : Word) (count : Nat) : List Word :=
  (List.range count).map fun k => rel + BitVec.ofNat 32 (relBytes * k)

def Table.rels (base : Word) (t : Table) : List Word := relsFrom (base + t.ptr) t.count

/-- The dynamic section has these tables, in the image of the plugin. -/
structure Describes (base : Word) (ds : List (Word × Word)) (rel jmprel : Option Table) :
    Prop where
  relPtr : values ds dtRel = rel.toList.map Table.ptr
  relSize : values ds dtRelsz = rel.toList.map Table.size
  jmprelPtr : values ds dtJmprel = jmprel.toList.map Table.ptr
  jmprelSize : values ds dtPltrelsz = jmprel.toList.map Table.size
  relPlaced : ∀ t ∈ rel, base + t.ptr ≠ 0#32
  jmprelPlaced : ∀ t ∈ jmprel, base + t.ptr ≠ 0#32

/-- The last entry with a pointer to a table. -/
def lastTable (ds : List (Word × Word)) : Option (Word × Word) :=
  ds.reverse.find? fun d => d.1 = dtRel ∨ d.1 = dtJmprel

/-- `other` has no entries, or starts right behind `t`. -/
def Table.Followed (base : Word) (t other : Table) : Prop :=
  other.count = 0 ∨ base + other.ptr = base + t.ptr + BitVec.ofNat 32 (relBytes * t.count)

/-- The table whose tag comes last is followed by the other one. -/
def Joined (base : Word) (ds : List (Word × Word)) (rel jmprel : Option Table) : Prop :=
  ∀ r ∈ rel, ∀ j ∈ jmprel, ∀ d ∈ lastTable ds,
    if d.1 = dtRel then r.Followed base j else j.Followed base r

section Section

variable {m : Mem}

theorem DynAt.unique {dyn : Word} {ds ds' : List (Word × Word)} (stands : DynAt m dyn ds)
    (stands' : DynAt m dyn ds') : ds = ds' := by
  induction stands generalizing ds' with
  | null dyn zero =>
      cases stands' with
      | null => rfl
      | entry _ tag val rest isTag nonzero => exact absurd (isTag.symm.trans zero) nonzero
  | entry dyn tag val rest isTag nonzero isVal _ ih =>
      cases stands' with
      | null _ zero => exact absurd (isTag.symm.trans zero) nonzero
      | entry _ tag' val' rest' isTag' _ isVal' next =>
          rw [← isTag, ← isTag', ← isVal, ← isVal', ih next]

theorem DynAt.drop {dyn : Word} {ds : List (Word × Word)} (stands : DynAt m dyn ds) (k : Nat)
    (within : k ≤ ds.length) :
    DynAt m (dyn + BitVec.ofNat 32 (dynBytes * k)) (ds.drop k) := by
  induction stands generalizing k with
  | null dyn zero =>
      obtain rfl : k = 0 := Nat.le_zero.mp within
      simpa using DynAt.null dyn zero
  | entry dyn tag val rest isTag nonzero isVal next ih =>
      cases k with
      | zero => simpa using DynAt.entry dyn tag val rest isTag nonzero isVal next
      | succ k =>
          have later := ih k (by simpa using within)
          rwa [ofNat_add_ofNat, Nat.add_comm, ← Nat.mul_succ] at later

/-- The section ends before the addresses wrap. -/
theorem DynAt.length_lt {dyn : Word} {ds : List (Word × Word)} (stands : DynAt m dyn ds) :
    ds.length < 2 ^ 29 := by
  apply Nat.lt_of_not_le
  intro long
  have again := stands.drop (2 ^ 29) long
  rw [show BitVec.ofNat 32 (dynBytes * 2 ^ 29) = 0#32 from rfl, BitVec.add_zero] at again
  have lengths := congrArg List.length (stands.unique again)
  rw [List.length_drop] at lengths
  omega

/-- The scan folds the entries. -/
theorem scan_eq (base dyn : Word) (ds : List (Word × Word)) (stands : DynAt m dyn ds)
    (fuel : Nat) (enough : ds.length < fuel) (s : Scan) :
    scan m base fuel dyn s = ds.foldl (fun s d => s.entry base d.1 d.2) s := by
  induction stands generalizing fuel s with
  | null dyn zero =>
      obtain ⟨fuel, rfl⟩ := Nat.exists_eq_add_of_le' (show 1 ≤ fuel by omega)
      rw [scan, if_pos zero]
      rfl
  | entry dyn tag val rest isTag nonzero isVal _ ih =>
      rw [List.length_cons] at enough
      obtain ⟨fuel, rfl⟩ := Nat.exists_eq_add_of_le' (show 1 ≤ fuel by omega)
      rw [scan, isTag, isVal, if_neg nonzero, ih fuel (by omega)]
      rfl

end Section

section Fold

variable (base : Word) (ds : List (Word × Word)) (s : Scan)

def folded : Scan := ds.foldl (fun s d => s.entry base d.1 d.2) s

theorem entry_rel (tag val : Word) :
    (s.entry base tag val).rel = if tag = dtRel ∨ tag = dtJmprel then base + val else s.rel := by
  unfold Scan.entry
  by_cases symtab : tag = dtSymtab
  · subst symtab
    rfl
  · by_cases strtab : tag = dtStrtab
    · subst strtab
      rfl
    · rw [if_neg symtab, if_neg strtab]
      by_cases table : tag = dtRel ∨ tag = dtJmprel
      · rw [if_pos table, if_pos table]
      · rw [if_neg table, if_neg table]
        split <;> rfl

theorem entry_relsz (tag val : Word) :
    (s.entry base tag val).relsz =
      if tag = dtRelsz ∨ tag = dtPltrelsz then s.relsz + BitVec.ofNat 32 (val.toNat / relBytes)
      else s.relsz := by
  unfold Scan.entry
  by_cases symtab : tag = dtSymtab
  · subst symtab
    rfl
  · by_cases strtab : tag = dtStrtab
    · subst strtab
      rfl
    · rw [if_neg symtab, if_neg strtab]
      by_cases table : tag = dtRel ∨ tag = dtJmprel
      · rw [if_pos table]
        rcases table with rfl | rfl
        · rfl
        · rfl
      · rw [if_neg table]
        split <;> rfl

theorem folded_rel :
    (folded base ds s).rel = match lastTable ds with
      | some d => base + d.2
      | none => s.rel := by
  unfold folded lastTable
  induction ds generalizing s with
  | nil => rfl
  | cons d rest ih =>
      rw [List.foldl_cons, ih, List.reverse_cons, List.find?_append, entry_rel]
      cases List.find? (fun d => decide (d.1 = dtRel ∨ d.1 = dtJmprel)) rest.reverse with
      | some e => rfl
      | none =>
          by_cases table : d.1 = dtRel ∨ d.1 = dtJmprel
          · simp [table]
          · simp [table]

def counts (vs : List Word) : Nat := (vs.map fun v => v.toNat / relBytes).sum

theorem values_cons (d : Word × Word) (tag : Word) :
    values (d :: ds) tag = if d.1 = tag then d.2 :: values ds tag else values ds tag := by
  unfold values
  by_cases same : d.1 = tag
  · simp [same]
  · simp [same]

/-- What every entry with one tag overwrites comes from the last of them. -/
theorem foldl_last {σ β : Type} (step : σ → Word × Word → σ) (get : σ → β) (val : Word → β)
    (tag : Word) (entry : ∀ s d, get (step s d) = if d.1 = tag then val d.2 else get s)
    (ds : List (Word × Word)) (s : σ) :
    get (ds.foldl step s) = match (values ds tag).getLast? with
      | some v => val v
      | none => get s := by
  induction ds generalizing s with
  | nil => rfl
  | cons d rest ih =>
      rw [List.foldl_cons, ih, entry, values_cons]
      by_cases here : d.1 = tag
      · rw [if_pos here, if_pos here]
        cases values rest tag with
        | nil => rfl
        | cons v vs => rfl
      · rw [if_neg here, if_neg here]

theorem folded_relsz :
    (folded base ds s).relsz =
      s.relsz + BitVec.ofNat 32 (counts (values ds dtRelsz) + counts (values ds dtPltrelsz)) := by
  unfold folded
  induction ds generalizing s with
  | nil => simp [values, counts]
  | cons d rest ih =>
      rw [List.foldl_cons, ih, entry_relsz, values_cons, values_cons]
      by_cases relsz : d.1 = dtRelsz
      · have other : d.1 ≠ dtPltrelsz := by
          rw [relsz]
          decide
        rw [if_pos (.inl relsz), if_pos relsz, if_neg other]
        simp only [counts, List.map_cons, List.sum_cons, BitVec.ofNat_add]
        grind
      · by_cases pltrelsz : d.1 = dtPltrelsz
        · rw [if_pos (.inr pltrelsz), if_neg relsz, if_pos pltrelsz]
          simp only [counts, List.map_cons, List.sum_cons, BitVec.ofNat_add]
          grind
        · rw [if_neg (not_or.mpr ⟨relsz, pltrelsz⟩), if_neg relsz, if_neg pltrelsz]

end Fold

section Runs

theorem relsFrom_append (rel : Word) (front back : Nat) :
    relsFrom rel (front + back) =
      relsFrom rel front ++ relsFrom (rel + BitVec.ofNat 32 (relBytes * front)) back := by
  unfold relsFrom
  rw [List.range_add, List.map_append, List.map_map]
  congr 1
  apply List.map_congr_left
  intro k _
  rw [Function.comp_apply, ofNat_add_ofNat, Nat.mul_add]

theorem relsFrom_succ (rel : Word) (count : Nat) :
    relsFrom rel (count + 1) = rel :: relsFrom (rel + BitVec.ofNat 32 relBytes) count := by
  rw [Nat.add_comm, relsFrom_append]
  simp [relsFrom]

theorem mem_relsFrom {rel x : Word} {count : Nat} :
    x ∈ relsFrom rel count ↔ ∃ k < count, x = rel + BitVec.ofNat 32 (relBytes * k) := by
  unfold relsFrom
  rw [List.mem_map]
  constructor
  · rintro ⟨k, inside, rfl⟩
    exact ⟨k, List.mem_range.mp inside, rfl⟩
  · rintro ⟨k, inside, rfl⟩
    exact ⟨k, List.mem_range.mpr inside, rfl⟩

/-- A run that is not empty and does not go all the way round has one start. -/
theorem relsFrom_start {a b : Word} {count : Nat} (some : 0 < count) (bound : count < 2 ^ 29)
    (same : ∀ x, x ∈ relsFrom a count ↔ x ∈ relsFrom b count) : a = b := by
  have first : a ∈ relsFrom b count := (same a).mp (mem_relsFrom.mpr ⟨0, some, by simp⟩)
  obtain ⟨k, inside, place⟩ := mem_relsFrom.mp first
  cases k with
  | zero => simpa using place
  | succ k =>
      -- the relocation below `a` would be in the run from `b`, so in the one from `a` too
      have below : a - 8#32 ∈ relsFrom a count := by
        refine (same _).mpr (mem_relsFrom.mpr ⟨k, by omega, ?_⟩)
        simp only [relBytes] at place ⊢
        bv_omega
      obtain ⟨l, within, wraps⟩ := mem_relsFrom.mp below
      simp only [relBytes] at wraps
      bv_omega

theorem linkFrom_visited (elfs : List Word) (base symtab strtab : Word) (count : Nat) (rel : Word)
    (p : Mem × List Word) :
    (linkFrom elfs base symtab strtab count rel p).2 = p.2 ++ relsFrom rel count := by
  induction count generalizing rel p with
  | zero => simp [linkFrom, relsFrom]
  | succ count ih => rw [linkFrom, ih, relsFrom_succ, List.append_assoc, List.singleton_append]

/-- A run over both counts visits both tables exactly when the second starts behind the first. -/
theorem relsFrom_perm_iff {a b : Word} {front back : Nat} (bound : back < 2 ^ 29) :
    (relsFrom a (front + back)).Perm (relsFrom a front ++ relsFrom b back) ↔
      back = 0 ∨ b = a + BitVec.ofNat 32 (relBytes * front) := by
  rw [relsFrom_append, List.perm_append_left_iff]
  constructor
  · intro perm
    rcases Nat.eq_zero_or_pos back with empty | some
    · exact .inl empty
    · exact .inr (relsFrom_start some bound fun x => perm.symm.mem_iff)
  · rintro (rfl | rfl)
    · exact .refl _
    · exact .refl _

end Runs

theorem Table.count_lt (t : Table) : t.count < 2 ^ 29 := by
  have bound := t.size.isLt
  simp only [count, relBytes]
  omega

theorem mem_values {ds : List (Word × Word)} {tag val : Word} :
    val ∈ values ds tag ↔ (tag, val) ∈ ds := by
  unfold values
  simp

section Tables

variable {base : Word} {ds : List (Word × Word)} {rel jmprel : Option Table}

/-- The entry that the scan keeps describes one of the two tables. -/
theorem Describes.lastTable (describes : Describes base ds rel jmprel) {d : Word × Word}
    (last : lastTable ds = some d) :
    (d.1 = dtRel ∧ ∃ t ∈ rel, d.2 = t.ptr) ∨ (d.1 = dtJmprel ∧ ∃ t ∈ jmprel, d.2 = t.ptr) := by
  have member : d ∈ ds := List.mem_reverse.mp (List.mem_of_find?_eq_some last)
  have tagged := List.find?_some last
  rw [decide_eq_true_eq] at tagged
  obtain ⟨tag, val⟩ := d
  rcases tagged with rfl | rfl
  · left
    have listed := mem_values.mpr member
    rw [describes.relPtr, List.mem_map] at listed
    obtain ⟨t, inside, rfl⟩ := listed
    exact ⟨rfl, t, Option.mem_toList.mp inside, rfl⟩
  · right
    have listed := mem_values.mpr member
    rw [describes.jmprelPtr, List.mem_map] at listed
    obtain ⟨t, inside, rfl⟩ := listed
    exact ⟨rfl, t, Option.mem_toList.mp inside, rfl⟩

/-- Without an entry there is no table. -/
theorem Describes.none (describes : Describes base ds rel jmprel)
    (absent : Dynamic.lastTable ds = none) :
    rel = none ∧ jmprel = none := by
  have untagged : ∀ d ∈ ds, d.1 ≠ dtRel ∧ d.1 ≠ dtJmprel := by
    intro d member
    have failed := List.find?_eq_none.mp absent d (List.mem_reverse.mpr member)
    rw [decide_eq_true_eq, not_or] at failed
    exact failed
  constructor
  · cases rel with
    | none => rfl
    | some t =>
        have listed : t.ptr ∈ values ds dtRel := by
          rw [describes.relPtr]
          simp
        exact absurd rfl (untagged _ (mem_values.mp listed)).1
  · cases jmprel with
    | none => rfl
    | some t =>
        have listed : t.ptr ∈ values ds dtJmprel := by
          rw [describes.jmprelPtr]
          simp
        exact absurd rfl (untagged _ (mem_values.mp listed)).2

def tableCount (t : Option Table) : Nat := (t.map Table.count).getD 0

def tableRels (base : Word) (t : Option Table) : List Word := (t.map (Table.rels base)).getD []

theorem tableCount_eq (t : Option Table) :
    counts (t.toList.map Table.size) = tableCount t := by
  cases t with
  | none => rfl
  | some t => simp [counts, tableCount, Table.count]

theorem tableCount_lt (t : Option Table) : tableCount t < 2 ^ 29 := by
  cases t with
  | none => decide
  | some t => exact t.count_lt

/-- Where the relocations are taken from. -/
def visited (base : Word) (ds : List (Word × Word)) (rel jmprel : Option Table) : List Word :=
  match Dynamic.lastTable ds with
  | some d => relsFrom (base + d.2) (tableCount rel + tableCount jmprel)
  | none => []

theorem wafelLinkPlugin_visited (m : Mem) (elfs : List Word) {dyn : Word}
    (describes : Describes base ds rel jmprel) (isDyn : wafelGetPluginDynamic m base = dyn)
    (present : dyn ≠ 0#32) (stands : DynAt m dyn ds) :
    (wafelLinkPlugin m elfs base).2 = visited base ds rel jmprel := by
  unfold visited
  have bound := stands.length_lt
  have scanned : scanDynamic m base dyn = folded base ds ⟨0#32, 0#32, 0#32, 0#32⟩ :=
    scan_eq base dyn ds stands (2 ^ 32) (by omega) _
  have size : (scanDynamic m base dyn).relsz.toNat = tableCount rel + tableCount jmprel := by
    have relBound := tableCount_lt rel
    have jmprelBound := tableCount_lt jmprel
    rw [scanned, folded_relsz, describes.relSize, describes.jmprelSize, tableCount_eq,
      tableCount_eq, BitVec.zero_add, BitVec.toNat_ofNat, Nat.mod_eq_of_lt (by omega)]
  have pointer : (scanDynamic m base dyn).rel = match Dynamic.lastTable ds with
      | some d => base + d.2
      | none => 0#32 := by
    rw [scanned, folded_rel]
  cases last : Dynamic.lastTable ds with
  | none =>
      rw [last] at pointer
      simp only [wafelLinkPlugin, isDyn, if_neg present, pointer, if_true]
  | some d =>
      rw [last] at pointer
      have placed : (scanDynamic m base dyn).rel ≠ 0#32 := by
        rw [pointer]
        rcases describes.lastTable last with ⟨_, t, member, value⟩ | ⟨_, t, member, value⟩
        · simpa only [value] using describes.relPlaced t member
        · simpa only [value] using describes.jmprelPlaced t member
      simp only [wafelLinkPlugin, isDyn, if_neg present, if_neg placed, size]
      rw [linkFrom_visited, pointer, List.nil_append]

/-- A run from one of the two tables. -/
theorem relsFrom_tables_iff (base : Word) (t : Table) (other : Option Table) :
    (relsFrom (base + t.ptr) (t.count + tableCount other)).Perm
        (t.rels base ++ tableRels base other) ↔
      ∀ o ∈ other, t.Followed base o := by
  cases other with
  | none => simp [tableCount, tableRels, Table.rels]
  | some o =>
      rw [tableCount, tableRels, Option.map_some, Option.map_some, Option.getD_some,
        Option.getD_some, Table.rels, Table.rels, relsFrom_perm_iff o.count_lt]
      simp [Table.Followed]

theorem Describes.visited_perm_iff (describes : Describes base ds rel jmprel) :
    (visited base ds rel jmprel).Perm (tableRels base rel ++ tableRels base jmprel) ↔
      Joined base ds rel jmprel := by
  unfold visited
  cases last : Dynamic.lastTable ds with
  | none =>
      obtain ⟨rfl, rfl⟩ := describes.none last
      simp [tableRels, Joined]
  | some d =>
      rcases describes.lastTable last with ⟨tag, t, member, value⟩ | ⟨tag, t, member, value⟩
      · obtain rfl : rel = some t := member
        have run := relsFrom_tables_iff base t jmprel
        simp only [value, tableCount, tableRels, Option.map_some, Option.getD_some] at run ⊢
        rw [run]
        simp [Joined, last, tag]
      · obtain rfl : jmprel = some t := member
        have run := relsFrom_tables_iff base t rel
        simp only [value, tableCount, tableRels, Option.map_some, Option.getD_some] at run ⊢
        rw [Nat.add_comm, List.perm_append_comm.congr_right, run]
        simp [Joined, last, tag, show dtJmprel ≠ dtRel by decide]

/-- The entries of both tables are linked once exactly when the tables are joined. -/
theorem wafelLinkPlugin_visits_iff (m : Mem) (elfs : List Word) (base dyn : Word)
    (ds : List (Word × Word)) (rel jmprel : Option Table)
    (describes : Describes base ds rel jmprel) (isDyn : wafelGetPluginDynamic m base = dyn)
    (present : dyn ≠ 0#32) (stands : DynAt m dyn ds) :
    (wafelLinkPlugin m elfs base).2.Perm (tableRels base rel ++ tableRels base jmprel) ↔
      Joined base ds rel jmprel := by
  rw [wafelLinkPlugin_visited m elfs describes isDyn present stands]
  exact describes.visited_perm_iff

end Tables

/-- A plugin at 0x27C00000 with one program header and the dynamic section `ds`. -/
def pluginSample (ds : List Word) : Mem :=
  let m := writeWords (fun _ => 0#8) 0x27C00000#32 [ipxElfMagic]
  let m := writeWords m 0x27C0001C#32 [0x34#32]
  let m := writeWords m 0x27C0002C#32 [0x00010000#32]
  let m := writeWords m 0x27C00034#32 [ptDynamic, 0#32, 0x100#32]
  writeWords m 0x27C00100#32 ds

/-- Two relocations at 0x200 and one behind them. -/
def relSample : Table := ⟨0x200#32, 16#32⟩
def jmprelSample : Table := ⟨0x210#32, 8#32⟩

/-- The pointers in the order in which a linker usually writes them, and the other way round. -/
def usualOrder : List (Word × Word) :=
  [(dtPltrelsz, 8#32), (dtJmprel, 0x210#32), (dtRel, 0x200#32), (dtRelsz, 16#32)]
def otherOrder : List (Word × Word) :=
  [(dtRel, 0x200#32), (dtRelsz, 16#32), (dtPltrelsz, 8#32), (dtJmprel, 0x210#32)]

def dynWords (ds : List (Word × Word)) : List Word := ds.flatMap fun d => [d.1, d.2]

theorem wafelLinkPlugin_visits_iff_sample :
    (wafelLinkPlugin (pluginSample (dynWords usualOrder)) [] 0x27C00000#32).2.Perm
        (tableRels 0x27C00000#32 (some relSample) ++ tableRels 0x27C00000#32 (some jmprelSample)) ↔
      Joined 0x27C00000#32 usualOrder (some relSample) (some jmprelSample) :=
  wafelLinkPlugin_visits_iff _ [] 0x27C00000#32 0x27C00100#32 usualOrder (some relSample)
    (some jmprelSample)
    ⟨by decide, by decide, by decide, by decide, by simp [relSample], by simp [jmprelSample]⟩
    (by decide +kernel) (by decide)
    (.entry _ _ _ _ (by decide +kernel) (by decide) (by decide +kernel)
      (.entry _ _ _ _ (by decide +kernel) (by decide) (by decide +kernel)
        (.entry _ _ _ _ (by decide +kernel) (by decide) (by decide +kernel)
          (.entry _ _ _ _ (by decide +kernel) (by decide) (by decide +kernel)
            (.null _ (by decide +kernel))))))

/-- The three relocations are at 0x200, 0x208 and 0x210; those visited start at 0x210. -/
theorem wafelLinkPlugin_misses_table :
    ¬ (wafelLinkPlugin (pluginSample (dynWords otherOrder)) [] 0x27C00000#32).2.Perm
        (tableRels 0x27C00000#32 (some relSample) ++
          tableRels 0x27C00000#32 (some jmprelSample)) := by
  intro perm
  have visited : 0x27C00200#32 ∈
      (wafelLinkPlugin (pluginSample (dynWords otherOrder)) [] 0x27C00000#32).2 :=
    perm.symm.mem_iff.mp (by decide +kernel)
  have missing : 0x27C00200#32 ∉
      (wafelLinkPlugin (pluginSample (dynWords otherOrder)) [] 0x27C00000#32).2 := by
    decide +kernel
  exact missing visited

end Stroopwafel.Dynamic
