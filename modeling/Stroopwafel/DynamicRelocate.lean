import Stroopwafel.DynamicLink
import Stroopwafel.Footprint

set_option autoImplicit false

namespace Stroopwafel.Dynamic

open Memory CString Footprint

section Model

variable (m : Mem) (base : Word)

/-- The address of the word `is_relocated` in the entry block. -/
def relocatedFlag : Word := base + read32 m (base + 24#32) + 0x14#32

def wafelIsRelocated : Word := read32 m (relocatedFlag m base)

def wafelSetRelocated : Mem := write32 m (relocatedFlag m base) 1#32

end Model

/-- What is gathered for the relocation. A pointer that is 0 is `NULL`. -/
structure RelScan where
  rel : Word
  relsz : Nat

/-- Of more than one table the last one is kept. -/
def RelScan.entry (base : Word) (s : RelScan) (tag val : Word) : RelScan :=
  if tag = dtRel then { s with rel := base + val }
  else if tag = dtRelsz then { s with relsz := val.toNat / relBytes }
  else s

/-- The loop up to `DT_NULL`, over `fuel` entries at most. -/
def scanRel (m : Mem) (base : Word) : Nat → Word → RelScan → RelScan
  | 0, _, s => s
  | fuel + 1, dyn, s =>
      if read32 m dyn = dtNull then s
      else scanRel m base fuel (dyn + BitVec.ofNat 32 dynBytes)
        (s.entry base (read32 m dyn) (read32 m (dyn + 4#32)))

def relocateOne (base : Word) (m : Mem) (rel : Word) : Mem :=
  if relType (read32 m (rel + 4#32)) = rArmRelative then
    let ptr := base + read32 m rel
    if read32 m ptr < base then write32 m ptr (read32 m ptr + base) else m
  else m

def relocateFrom (base : Word) : Nat → Word → Mem → Mem
  | 0, _, m => m
  | remaining + 1, rel, m =>
      relocateFrom base remaining (rel + BitVec.ofNat 32 relBytes) (relocateOne base m rel)

/-- `__wafel_dynamic` -/
def wafelDynamic (m : Mem) (base dyn : Word) : Mem :=
  if wafelIsRelocated m base ≠ 0#32 then m
  else
    let s := scanRel m base (2 ^ 32) dyn ⟨0#32, 0⟩
    wafelSetRelocated (if s.rel ≠ 0#32 then relocateFrom base s.relsz s.rel m else m) base

/-- So many calls. -/
def wafelDynamicCalls (m : Mem) (base dyn : Word) : Nat → Mem
  | 0 => m
  | n + 1 => wafelDynamic (wafelDynamicCalls m base dyn n) base dyn

/-- A plugin with its dynamic section and the tables that this describes. -/
structure Plugin where
  base : Word
  dyn : Word
  ds : List (Word × Word)
  rel : Option Table
  jmprel : Option Table

namespace Plugin

variable (p : Plugin)

def flag (m : Mem) : Word := relocatedFlag m p.base

/-- The entries that linking takes. -/
def taken : List Word := visited p.base p.ds p.rel p.jmprel

/-- The words that the `R_ARM_RELATIVE` entries of the table `DT_REL` are for. -/
def relativeSlots (m : Mem) : List Word :=
  ((tableRels p.base p.rel).filter fun rel => typeAt m rel = rArmRelative).map
    fun rel => p.base + read32 m rel

def linkedSlots (m : Mem) : List Word :=
  (p.taken.filter fun rel => Linked m rel).map fun rel => p.base + read32 m rel

end Plugin

/-- `x` is one of the four bytes at `a`. -/
def InWord (a x : Word) : Prop := ∃ i < 4, x = a + BitVec.ofNat 32 i

section Data

variable (data : Word → Prop) (m : Mem)

/-- Symbol `i` and its name are in `data`. -/
def SymbolIn (symtab strtab : Word) (i : Nat) : Prop :=
  Within data (symAddress symtab i) symBytes ∧
    ∃ name, Str m (strtab + stName m (symAddress symtab i)) name ∧
      Within data (strtab + stName m (symAddress symtab i)) (name.length + 1)

/-- A plugin in which symbols are looked up: all that is read of it is in `data`. -/
structure Searched (base : Word) : Prop where
  header : Within data base 52
  phdrs : Within data (wafelGetPluginPhdrs m base) (phdrBytes * wafelGetPluginNumPhdrs m base)
  dynSection : ∃ ds, DynAt m (wafelGetPluginDynamic m base) ds ∧
    Within data (wafelGetPluginDynamic m base) (dynBytes * (ds.length + 1))
  symbols : ∀ s, s = scanDynamic m base (wafelGetPluginDynamic m base) →
    ∀ i < (s.strtab - s.symtab).toNat / symBytes, SymbolIn data m s.symtab s.strtab i

namespace Plugin

variable (p : Plugin)

/-- All that both functions read of the plugin is in `data`, apart from the flag and the slots. -/
structure At : Prop where
  header : Within data p.base 52
  phdrs : Within data (wafelGetPluginPhdrs m p.base)
    (phdrBytes * wafelGetPluginNumPhdrs m p.base)
  dynamic : wafelGetPluginDynamic m p.base = p.dyn
  present : p.dyn ≠ 0#32
  stands : DynAt m p.dyn p.ds
  dynSection : Within data p.dyn (dynBytes * (p.ds.length + 1))
  describes : Describes p.base p.ds p.rel p.jmprel
  table : ∀ rel ∈ tableRels p.base p.rel, Within data rel relBytes
  entries : ∀ rel ∈ p.taken, Within data rel relBytes
  symbols : ∀ rel ∈ p.taken, Linked m rel → ∀ s, s = scanDynamic m p.base p.dyn →
    SymbolIn data m s.symtab s.strtab (symIdx m rel)

/-- The flag and the slots are apart from what is read and from each other. -/
structure Separate : Prop where
  outside : ∀ a ∈ p.flag m :: (p.relativeSlots m ++ p.linkedSlots m), ∀ x, InWord a x → ¬ data x
  relative : ∀ a ∈ p.relativeSlots m, ∀ b ∈ p.relativeSlots m, a = b ∨ Apart a 4 b 4
  linked : ∀ a ∈ p.relativeSlots m, ∀ b ∈ p.linkedSlots m, Apart a 4 b 4
  relativeFlag : ∀ a ∈ p.relativeSlots m, Apart a 4 (p.flag m) 4
  linkedFlag : ∀ a ∈ p.linkedSlots m, Apart a 4 (p.flag m) 4

/-- A slot has an offset from the base, and the address fits in a word. -/
def Unrelocated : Prop :=
  ∀ a ∈ p.relativeSlots m, read32 m a < p.base ∧ (read32 m a).toNat + p.base.toNat < 2 ^ 32

end Plugin

end Data

section Words

theorem inWord_iff (a x : Word) : InWord a x ↔ (x - a).toNat < 4 := by
  constructor
  · rintro ⟨i, inside, rfl⟩
    rw [add_sub_self_toNat a i (by omega)]
    exact inside
  · intro inside
    refine ⟨(x - a).toNat, inside, ?_⟩
    rw [BitVec.ofNat_toNat, BitVec.setWidth_eq]
    grind

theorem not_inWord_of_apart {a b x : Word} (apart : Apart a 4 b 4) (inside : InWord a x) :
    ¬ InWord b x := by
  obtain ⟨i, bound, rfl⟩ := inside
  rintro ⟨j, bound', same⟩
  exact apart i bound j bound' same

theorem write32_outside (m : Mem) (a w x : Word) (outside : ¬ InWord a x) :
    write32 m a w x = m x :=
  store_outside m a x (bytes32 w)
    (Nat.le_of_not_lt fun inside => outside ((inWord_iff a x).mpr inside))

theorem write32_inside (m m' : Mem) (a w x : Word) (inside : InWord a x) :
    write32 m' a w x = write32 m a w x := by
  obtain ⟨i, bound, rfl⟩ := inside
  unfold write32
  rw [store_inside m' a (bytes32 w) i bound (by simp),
    store_inside m a (bytes32 w) i bound (by simp)]

theorem read32_alike {region : Word → Prop} {m m' : Mem} (alike : Alike region m m') {a : Word}
    (within : ∀ x, InWord a x → region x) : read32 m' a = read32 m a :=
  Same.read32 fun i inside => alike _ (within _ ⟨i, inside, rfl⟩)

theorem write32_confined {reads writes : Word → Prop} (m : Mem) (a w : Word)
    (within : ∀ x, InWord a x → writes x) :
    Confined reads writes (fun m' => write32 m' a w) m := by
  intro m' _ x
  by_cases inside : InWord a x
  · exact .inr ⟨within x inside, write32_inside m m' a w x inside⟩
  · exact .inl ⟨write32_outside m' a w x inside, write32_outside m a w x inside⟩

end Words

section Frame

variable {data : Word → Prop} {m m' : Mem} (alike : Agree data m m')
include alike

theorem relocatedFlag_agree {base : Word} (header : Within data base 52) :
    relocatedFlag m' base = relocatedFlag m base := by
  have entry : read32 m' (base + 24#32) = read32 m (base + 24#32) :=
    alike.field header 24 (by decide)
  rw [relocatedFlag, entry, relocatedFlag]

theorem scanDynamic_agree {base dyn : Word} {ds : List (Word × Word)} (stands : DynAt m dyn ds)
    (within : Within data dyn (dynBytes * (ds.length + 1))) :
    scanDynamic m' base dyn = scanDynamic m base dyn := by
  have bound := stands.length_lt
  have stands' := DynAt.agree alike stands within
  unfold scanDynamic
  rw [scan_eq base dyn ds stands' (2 ^ 32) (by omega),
    scan_eq base dyn ds stands (2 ^ 32) (by omega)]

theorem symbol_agree {symtab strtab : Word} {i : Nat} (symbolIn : SymbolIn data m symtab strtab i) :
    stName m' (symAddress symtab i) = stName m (symAddress symtab i) ∧
      stValue m' (symAddress symtab i) = stValue m (symAddress symtab i) ∧
      stShndx m' (symAddress symtab i) = stShndx m (symAddress symtab i) := by
  have same := alike.same symbolIn.1
  refine ⟨?_, ?_, ?_⟩
  · exact (same.mono (by decide : 4 ≤ symBytes)).read32
  · exact (same.sub 4 (by decide) : Same m m' (symAddress symtab i + 4#32) 4).read32
  · exact (same.sub 14 (by decide) : Same m m' (symAddress symtab i + 14#32) 2).read16

theorem findValue_agree {base symtab strtab name : Word} {text : List Byte}
    (named : Str m name text) (within : Within data name (text.length + 1)) (remaining i : Nat)
    (symbols : ∀ k < i + remaining, SymbolIn data m symtab strtab k) :
    findValue m' base symtab strtab name remaining i =
      findValue m base symtab strtab name remaining i := by
  induction remaining generalizing i with
  | zero => rfl
  | succ remaining ih =>
      have symbolIn := symbols i (by omega)
      obtain ⟨nameSame, valueSame, _⟩ := symbol_agree alike symbolIn
      obtain ⟨_, own, text', inside⟩ := symbolIn
      have compared := strncmp_str_iff text' named
      have compared' := strncmp_str_iff (alike.str inside text') (alike.str within named)
      have later := ih (i + 1) fun k bound => symbols k (by omega)
      simp only [findValue, nameSame, valueSame, later, compared, compared']

theorem wafelGetSymbolAddr_agree {base name : Word} {text : List Byte} (named : Str m name text)
    (within : Within data name (text.length + 1)) (searched : Searched data m base) :
    wafelGetSymbolAddr m' base name = wafelGetSymbolAddr m base name := by
  obtain ⟨ds, stands, inside⟩ := searched.dynSection
  have symbols := searched.symbols _ rfl
  unfold wafelGetSymbolAddr
  rw [wafelGetPluginDynamic_agree alike searched.header searched.phdrs,
    scanDynamic_agree alike stands inside]
  exact findValue_agree alike named within _ 0 fun k bound => symbols k (by omega)

theorem wafelFindSymbol_agree {name : Word} {text : List Byte} (named : Str m name text)
    (within : Within data name (text.length + 1)) (elfs : List Word)
    (searched : ∀ elf ∈ elfs, Searched data m elf) :
    wafelFindSymbol m' name elfs = wafelFindSymbol m name elfs := by
  induction elfs with
  | nil => rfl
  | cons elf rest ih =>
      have here := wafelGetSymbolAddr_agree alike named within (searched elf List.mem_cons_self)
      have later := ih fun elf' member => searched elf' (List.mem_cons_of_mem _ member)
      simp only [wafelFindSymbol, here, later]

theorem symVal_agree (elfs : List Word) (searched : ∀ elf ∈ elfs, Searched data m elf)
    {base symtab strtab rel : Word} (entry : Within data rel relBytes)
    (symbolIn : SymbolIn data m symtab strtab (symIdx m rel)) :
    symVal m' elfs base symtab strtab rel = symVal m elfs base symtab strtab rel := by
  obtain ⟨_, info⟩ := entry_agree alike entry
  obtain ⟨nameSame, valueSame, shndxSame⟩ := symbol_agree alike symbolIn
  obtain ⟨_, text, named, within⟩ := symbolIn
  have found := wafelFindSymbol_agree alike named within elfs searched
  unfold symIdx at nameSame valueSame shndxSame found
  simp only [symVal, info, nameSame, valueSame, shndxSame, found]

end Frame

section Linking

variable {data : Word → Prop} {m : Mem}

/-- One relocation, in a memory that is still as it was where linking reads. -/
theorem linkOne_same {t : Mem} (alike : Alike data m t) (elfs : List Word)
    (searched : ∀ elf ∈ elfs, Searched data m elf) {base symtab strtab rel : Word}
    (entry : Within data rel relBytes)
    (symbol : Linked m rel → SymbolIn data m symtab strtab (symIdx m rel)) :
    linkOne elfs base symtab strtab t rel =
      if Linked m rel then
        write32 t (base + read32 m rel) (symVal m elfs base symtab strtab rel)
      else t := by
  obtain ⟨offset, info⟩ := entry_agree alike entry
  have type : Linked t rel ↔ Linked m rel := by
    rw [Linked, typeAt, info, Linked, typeAt]
  rw [linkOne_linked, offset]
  by_cases linked : Linked m rel
  · rw [if_pos (type.mpr linked), if_pos linked,
      symVal_agree alike elfs searched entry (symbol linked)]
  · rw [if_neg fun linked' => linked (type.mp linked'), if_neg linked]

theorem linkOne_confined {t : Mem} (alike : Alike data m t) (elfs : List Word)
    (searched : ∀ elf ∈ elfs, Searched data m elf) {base symtab strtab rel : Word}
    (entry : Within data rel relBytes)
    (symbol : Linked m rel → SymbolIn data m symtab strtab (symIdx m rel))
    {writes : Word → Prop}
    (within : Linked m rel → ∀ x, InWord (base + read32 m rel) x → writes x) :
    Confined data writes (fun t' => linkOne elfs base symtab strtab t' rel) t := by
  have same : ∀ t', Alike data t t' → linkOne elfs base symtab strtab t' rel =
      if Linked m rel then
        write32 t' (base + read32 m rel) (symVal m elfs base symtab strtab rel)
      else t' :=
    fun t' alike' => linkOne_same (alike.trans alike') elfs searched entry symbol
  by_cases linked : Linked m rel
  · apply (write32_confined t _ _ (within linked)).congr
    intro t' alike'
    rw [same t' alike', if_pos linked]
  · apply Confined.skip.congr
    intro t' alike'
    rw [same t' alike', if_neg linked]
    rfl

variable {p : Plugin}

/-- What linking writes. -/
def Plugin.linkWrites (p : Plugin) (m : Mem) (x : Word) : Prop := ∃ a ∈ p.linkedSlots m, InWord a x

theorem mem_linkedSlots {rel : Word} (listed : rel ∈ p.taken) (linked : Linked m rel) :
    p.base + read32 m rel ∈ p.linkedSlots m :=
  List.mem_map.mpr ⟨rel, List.mem_filter.mpr ⟨listed, decide_eq_true linked⟩, rfl⟩

theorem Plugin.At.wafelLinkPlugin_foldl (pluginAt : p.At data m) (elfs : List Word) (m' : Mem)
    (alike : Alike data m m') :
    (wafelLinkPlugin m' elfs p.base).1 =
      p.taken.foldl (linkOne elfs p.base (scanDynamic m p.base p.dyn).symtab
        (scanDynamic m p.base p.dyn).strtab) m' := by
  have isDyn : wafelGetPluginDynamic m' p.base = p.dyn :=
    (wafelGetPluginDynamic_agree alike pluginAt.header pluginAt.phdrs).trans pluginAt.dynamic
  have stands := DynAt.agree alike pluginAt.stands pluginAt.dynSection
  rw [Dynamic.wafelLinkPlugin_foldl m' elfs pluginAt.describes isDyn pluginAt.present stands,
    scanDynamic_agree alike pluginAt.stands pluginAt.dynSection]
  rfl

/-- Linking depends on `data` alone, and writes the slots that it links. -/
theorem wafelLinkPlugin_confined (elfs : List Word) (pluginAt : p.At data m)
    (searched : ∀ elf ∈ elfs, Searched data m elf)
    (outside : ∀ x, p.linkWrites m x → ¬ data x) :
    Confined data (p.linkWrites m) (fun m' => (wafelLinkPlugin m' elfs p.base).1) m := by
  have one : ∀ rel ∈ p.taken, ∀ t, Alike data m t → Confined data (p.linkWrites m)
      (fun t' => linkOne elfs p.base (scanDynamic m p.base p.dyn).symtab
        (scanDynamic m p.base p.dyn).strtab t' rel) t := by
    intro rel listed t alike
    exact linkOne_confined alike elfs searched (pluginAt.entries rel listed)
      (fun linked => pluginAt.symbols rel listed linked _ rfl)
      fun linked x inside => ⟨_, mem_linkedSlots listed linked, inside⟩
  have loop := Confined.foldl _ (Alike data m) p.taken (Alike.refl data m)
    fun rel listed t alike => ⟨one rel listed t alike,
      alike.trans ((one rel listed t alike).alike outside)⟩
  exact loop.1.congr (pluginAt.wafelLinkPlugin_foldl elfs)

end Linking

section Relocation

variable {data : Word → Prop} {m : Mem} {p : Plugin}

theorem scanRel_eq (base dyn : Word) (ds : List (Word × Word)) (stands : DynAt m dyn ds)
    (fuel : Nat) (enough : ds.length < fuel) (s : RelScan) :
    scanRel m base fuel dyn s = ds.foldl (fun s d => s.entry base d.1 d.2) s := by
  induction stands generalizing fuel s with
  | null dyn zero =>
      obtain ⟨fuel, rfl⟩ := Nat.exists_eq_add_of_le' (show 1 ≤ fuel by omega)
      rw [scanRel, if_pos zero]
      rfl
  | entry dyn tag val rest isTag nonzero isVal _ ih =>
      rw [List.length_cons] at enough
      obtain ⟨fuel, rfl⟩ := Nat.exists_eq_add_of_le' (show 1 ≤ fuel by omega)
      rw [scanRel, isTag, isVal, if_neg nonzero, ih fuel (by omega)]
      rfl

theorem RelScan.entry_rel (base : Word) (s : RelScan) (tag val : Word) :
    (s.entry base tag val).rel = if tag = dtRel then base + val else s.rel := by
  unfold entry
  by_cases table : tag = dtRel
  · rw [if_pos table, if_pos table]
  · rw [if_neg table, if_neg table]
    split <;> rfl

theorem RelScan.entry_relsz (base : Word) (s : RelScan) (tag val : Word) :
    (s.entry base tag val).relsz = if tag = dtRelsz then val.toNat / relBytes else s.relsz := by
  unfold entry
  by_cases table : tag = dtRel
  · subst table
    rfl
  · rw [if_neg table]
    split <;> rfl

theorem scanRel_tables (base dyn : Word) (ds : List (Word × Word)) (stands : DynAt m dyn ds)
    (s : RelScan) :
    (scanRel m base (2 ^ 32) dyn s).rel = (((values ds dtRel).getLast?).map (base + ·)).getD s.rel ∧
      (scanRel m base (2 ^ 32) dyn s).relsz =
        (((values ds dtRelsz).getLast?).map fun v => v.toNat / relBytes).getD s.relsz := by
  have bound := stands.length_lt
  rw [scanRel_eq base dyn ds stands (2 ^ 32) (by omega)]
  constructor
  · rw [foldl_last _ RelScan.rel (base + ·) dtRel (fun s d => RelScan.entry_rel base s d.1 d.2)]
    cases (values ds dtRel).getLast? <;> rfl
  · rw [foldl_last _ RelScan.relsz (fun v => v.toNat / relBytes) dtRelsz
      (fun s d => RelScan.entry_relsz base s d.1 d.2)]
    cases (values ds dtRelsz).getLast? <;> rfl

theorem relocateFrom_foldl (base : Word) (count : Nat) (rel : Word) (m : Mem) :
    relocateFrom base count rel m = (relsFrom rel count).foldl (relocateOne base) m := by
  induction count generalizing rel m with
  | zero => rfl
  | succ count ih => rw [relocateFrom, ih, relsFrom_succ, List.foldl_cons]

/-- The first call goes through the table. -/
theorem wafelDynamic_foldl {base dyn : Word} {ds : List (Word × Word)} {rel jmprel : Option Table}
    (describes : Describes base ds rel jmprel) (stands : DynAt m dyn ds)
    (fresh : wafelIsRelocated m base = 0#32) :
    wafelDynamic m base dyn =
      wafelSetRelocated ((tableRels base rel).foldl (relocateOne base) m) base := by
  obtain ⟨pointer, size⟩ := scanRel_tables base dyn ds stands ⟨0#32, 0⟩
  rw [describes.relPtr] at pointer
  rw [describes.relSize] at size
  unfold wafelDynamic
  rw [if_neg fun set => set fresh]
  cases rel with
  | none =>
      simp only [pointer]
      rfl
  | some t =>
      have placed := describes.relPlaced t rfl
      simp only [Option.toList_some, List.map_cons, List.map_nil, List.getLast?_singleton,
        Option.map_some, Option.getD_some] at pointer size
      simp only [pointer, size, ne_eq, placed, not_false_eq_true, if_true, relocateFrom_foldl]
      rfl

/-- The word at `ptr` is relocated, where it is still below the base. -/
def relocateWord (base : Word) (m : Mem) (ptr : Word) : Mem :=
  if read32 m ptr < base then write32 m ptr (read32 m ptr + base) else m

theorem relocateWord_confined {reads writes : Word → Prop} (base ptr : Word) (t : Mem)
    (looks : ∀ x, InWord ptr x → reads x) (within : ∀ x, InWord ptr x → writes x) :
    Confined reads writes (fun t' => relocateWord base t' ptr) t := by
  by_cases below : read32 t ptr < base
  · apply (write32_confined t ptr (read32 t ptr + base) within).congr
    intro t' alike
    unfold relocateWord
    rw [read32_alike alike looks, if_pos below]
  · apply Confined.skip.congr
    intro t' alike
    unfold relocateWord
    rw [read32_alike alike looks, if_neg below]
    rfl

/-- In a memory that is still as it was where the entries are. -/
theorem relocate_slots (base : Word) (rels : List Word)
    (entries : ∀ rel ∈ rels, Within data rel relBytes)
    (outside : ∀ rel ∈ rels, typeAt m rel = rArmRelative →
      ∀ x, InWord (base + read32 m rel) x → ¬ data x) (t : Mem) (alike : Alike data m t) :
    rels.foldl (relocateOne base) t =
      ((rels.filter fun rel => typeAt m rel = rArmRelative).map
        fun rel => base + read32 m rel).foldl (relocateWord base) t := by
  induction rels generalizing t with
  | nil => rfl
  | cons rel rest ih =>
      obtain ⟨offset, info⟩ := entry_agree alike (entries rel List.mem_cons_self)
      have later := ih (fun rel' member => entries rel' (List.mem_cons_of_mem _ member))
        fun rel' member => outside rel' (List.mem_cons_of_mem _ member)
      have one : relocateOne base t rel =
          if typeAt m rel = rArmRelative then relocateWord base t (base + read32 m rel) else t := by
        unfold relocateOne typeAt relocateWord
        rw [info, offset]
      rw [List.foldl_cons, one, List.filter_cons]
      by_cases relative : typeAt m rel = rArmRelative
      · have confined := relocateWord_confined base (base + read32 m rel) t
          (fun _ inside => inside) (fun _ inside => inside)
        have kept := confined.alike (outside rel List.mem_cons_self relative)
        rw [if_pos relative, if_pos (decide_eq_true relative), later _ (alike.trans kept)]
        rfl
      · rw [if_neg relative, if_neg (by simpa using relative), later t alike]

/-- Each word is relocated once, however often it is listed. -/
theorem relocateWords_value (base : Word) (slots : List Word)
    (apart : ∀ a ∈ slots, ∀ b ∈ slots, a = b ∨ Apart a 4 b 4)
    (below : ∀ a ∈ slots, read32 m a < base ∧ (read32 m a).toNat + base.toNat < 2 ^ 32)
    (todo : List Word) (listed : ∀ a ∈ todo, a ∈ slots) (t : Mem)
    (partly : ∀ a ∈ slots, read32 t a = read32 m a ∨ read32 t a = read32 m a + base)
    (a : Word) (slot : a ∈ slots) (either : a ∈ todo ∨ read32 t a = read32 m a + base) :
    read32 (todo.foldl (relocateWord base) t) a = read32 m a + base := by
  induction todo generalizing t with
  | nil =>
      rcases either with member | value
      · exact absurd member List.not_mem_nil
      · exact value
  | cons b rest ih =>
      have slotB := listed b List.mem_cons_self
      have here : read32 (relocateWord base t b) b = read32 m b + base := by
        obtain ⟨less, fits⟩ := below b slotB
        unfold relocateWord
        rcases partly b slotB with before | after
        · rw [before, if_pos less, read32_write32]
        · have past : ¬ read32 m b + base < base := by bv_omega
          rw [after, if_neg past, after]
      have others : ∀ c ∈ slots, c ≠ b → read32 (relocateWord base t b) c = read32 t c := by
        intro c member other
        unfold relocateWord
        split
        · exact read32_write32_apart t c b _ ((apart c member b slotB).resolve_left other)
        · rfl
      rw [List.foldl_cons]
      apply ih fun c member => listed c (List.mem_cons_of_mem _ member)
      · intro c member
        by_cases same : c = b
        · subst same
          exact .inr here
        · rw [others c member same]
          exact partly c member
      · by_cases same : a = b
        · subst same
          exact .inr here
        · rw [others a slot same]
          exact either.imp_left fun member => (List.mem_cons.mp member).resolve_left same

theorem relocateWords_confined {reads writes : Word → Prop} (base : Word) (slots : List Word)
    (t : Mem) (looks : ∀ a ∈ slots, ∀ x, InWord a x → reads x)
    (within : ∀ a ∈ slots, ∀ x, InWord a x → writes x) :
    Confined reads writes (fun t' => slots.foldl (relocateWord base) t') t :=
  (Confined.foldl (relocateWord base) (fun _ => True) slots trivial fun a member t _ =>
    ⟨relocateWord_confined base a t (looks a member) (within a member), trivial⟩).1

/-- What a call writes. -/
def Plugin.relocationWrites (p : Plugin) (m : Mem) (x : Word) : Prop :=
  ∃ a ∈ p.flag m :: p.relativeSlots m, InWord a x

/-- What a call reads. -/
def Plugin.relocationReads (data : Word → Prop) (p : Plugin) (m : Mem) (x : Word) : Prop :=
  data x ∨ p.relocationWrites m x

theorem flag_written {x : Word} (inside : InWord (p.flag m) x) : p.relocationWrites m x :=
  ⟨_, List.mem_cons_self, inside⟩

theorem slot_written {a x : Word} (slot : a ∈ p.relativeSlots m) (inside : InWord a x) :
    p.relocationWrites m x :=
  ⟨a, List.mem_cons_of_mem _ slot, inside⟩

theorem mem_relativeSlots {rel : Word} (listed : rel ∈ tableRels p.base p.rel)
    (relative : typeAt m rel = rArmRelative) : p.base + read32 m rel ∈ p.relativeSlots m :=
  List.mem_map.mpr ⟨rel, List.mem_filter.mpr ⟨listed, decide_eq_true relative⟩, rfl⟩

variable (pluginAt : p.At data m)
include pluginAt

theorem wafelIsRelocated_alike {t t' : Mem} (reached : Alike data m t)
    (alike : Alike (p.relocationReads data m) t t') :
    wafelIsRelocated t' p.base = wafelIsRelocated t p.base := by
  have header := relocatedFlag_agree reached pluginAt.header
  have header' := relocatedFlag_agree
    (reached.trans (alike.mono fun _ member => .inl member)) pluginAt.header
  unfold wafelIsRelocated
  rw [header, header']
  exact read32_alike alike fun x inside => .inr (flag_written inside)

variable (outside : ∀ x, p.relocationWrites m x → ¬ data x)
include outside

/-- The first call, in terms of the words that it relocates. -/
theorem wafelDynamic_words (fresh : wafelIsRelocated m p.base = 0#32) (t : Mem)
    (alike : Alike (p.relocationReads data m) m t) :
    wafelDynamic t p.base p.dyn =
      write32 ((p.relativeSlots m).foldl (relocateWord p.base) t) (p.flag m) 1#32 := by
  have dataAlike : Alike data m t := alike.mono fun _ member => .inl member
  have fresh' : wafelIsRelocated t p.base = 0#32 :=
    (wafelIsRelocated_alike pluginAt (Alike.refl data m) alike).trans fresh
  have slots := relocate_slots p.base (tableRels p.base p.rel) pluginAt.table
    (fun rel listed relative x inside =>
      outside x (slot_written (mem_relativeSlots listed relative) inside)) t dataAlike
  have confined : Confined (p.relocationReads data m) (p.relocationWrites m)
      (fun t' => (p.relativeSlots m).foldl (relocateWord p.base) t') t :=
    relocateWords_confined p.base (p.relativeSlots m) t
      (fun a slot x inside => .inr (slot_written slot inside))
      fun a slot x inside => slot_written slot inside
  have header := relocatedFlag_agree (dataAlike.trans (confined.alike outside)) pluginAt.header
  rw [wafelDynamic_foldl pluginAt.describes (DynAt.agree dataAlike pluginAt.stands
    pluginAt.dynSection) fresh', slots, wafelSetRelocated]
  unfold Plugin.relativeSlots at header ⊢
  rw [header, Plugin.flag]

/-- A call depends on `data`, the flag and the slots that it relocates, and writes these. -/
theorem wafelDynamic_confined (fresh : wafelIsRelocated m p.base = 0#32) :
    Confined (p.relocationReads data m) (p.relocationWrites m)
      (fun t => wafelDynamic t p.base p.dyn) m := by
  have slots : Confined (p.relocationReads data m) (p.relocationWrites m)
      (fun t => (p.relativeSlots m).foldl (relocateWord p.base) t) m :=
    relocateWords_confined p.base (p.relativeSlots m) m
      (fun a slot x inside => .inr (slot_written slot inside))
      fun a slot x inside => slot_written slot inside
  have flagged := slots.comp
    (write32_confined _ (p.flag m) 1#32 fun x inside => flag_written inside)
  exact flagged.congr (wafelDynamic_words pluginAt outside fresh)

/-- The flag is set behind the first call. -/
theorem wafelDynamic_relocated (fresh : wafelIsRelocated m p.base = 0#32) :
    wafelIsRelocated (wafelDynamic m p.base p.dyn) p.base = 1#32 := by
  have kept := (wafelDynamic_confined pluginAt outside fresh).alike outside
  unfold wafelIsRelocated
  rw [relocatedFlag_agree kept pluginAt.header,
    wafelDynamic_words pluginAt outside fresh m (Alike.refl _ m), Plugin.flag, read32_write32]

/-- All calls but the first one leave the memory as it is. -/
theorem wafelDynamicCalls_eq (fresh : wafelIsRelocated m p.base = 0#32) (n : Nat) :
    wafelDynamicCalls m p.base p.dyn (n + 1) = wafelDynamic m p.base p.dyn := by
  induction n with
  | zero => rfl
  | succ n ih =>
      have relocated := wafelDynamic_relocated pluginAt outside fresh
      rw [wafelDynamicCalls, ih, wafelDynamic, relocated]
      exact if_pos (by decide)

end Relocation

section Once

variable {data : Word → Prop} {m : Mem} {p : Plugin}

theorem Plugin.Separate.relocation (separate : p.Separate data m) (x : Word)
    (written : p.relocationWrites m x) : ¬ data x := by
  obtain ⟨a, member, inside⟩ := written
  exact separate.outside a (List.mem_append_left _ member) x inside

theorem Plugin.Separate.linking (separate : p.Separate data m) (x : Word)
    (written : p.linkWrites m x) : ¬ data x := by
  obtain ⟨a, slot, inside⟩ := written
  exact separate.outside a (List.mem_cons_of_mem _ (List.mem_append_right _ slot)) x inside

theorem Plugin.Separate.apart (separate : p.Separate data m) (x : Word)
    (written : p.linkWrites m x) : ¬ p.relocationWrites m x := by
  obtain ⟨b, slotB, insideB⟩ := written
  rintro ⟨a, member, inside⟩
  rcases List.mem_cons.mp member with rfl | slot
  · exact not_inWord_of_apart (separate.linkedFlag b slotB) insideB inside
  · exact not_inWord_of_apart (separate.linked a slot b slotB) inside insideB

/-- Linking and the calls commute. -/
theorem wafelDynamic_link (elfs : List Word) (pluginAt : p.At data m)
    (searched : ∀ elf ∈ elfs, Searched data m elf) (separate : p.Separate data m)
    (fresh : wafelIsRelocated m p.base = 0#32) (n : Nat) :
    wafelDynamicCalls (wafelLinkPlugin m elfs p.base).1 p.base p.dyn n =
      (wafelLinkPlugin (wafelDynamicCalls m p.base p.dyn n) elfs p.base).1 := by
  have linking := wafelLinkPlugin_confined elfs pluginAt searched separate.linking
  have relocation := wafelDynamic_confined pluginAt separate.relocation fresh
  have untouched : ∀ x, p.linkWrites m x → ¬ p.relocationReads data m x := by
    rintro x written (member | other)
    · exact separate.linking x written member
    · exact separate.apart x written other
  have commute := linking.commute relocation untouched separate.relocation separate.apart
  have once := wafelDynamicCalls_eq pluginAt separate.relocation fresh
  induction n with
  | zero => rfl
  | succ n ih =>
      rw [wafelDynamicCalls, ih, once]
      cases n with
      | zero => exact commute.symm
      | succ n =>
          -- linking leaves the flag, which the first call has set
          have called := relocation.alike separate.relocation
          have linked := linking.keeps called untouched
          have set := wafelDynamic_relocated pluginAt separate.relocation fresh
          have kept := (wafelIsRelocated_alike pluginAt called linked).trans set
          rw [once, wafelDynamic, kept]
          exact if_pos (by decide)

/-- After the first call each relative slot has been relocated once, the rest of the memory is as it
was but for the flag, and linking may come before or after the calls. -/
theorem wafelDynamic_once_commutes (data : Word → Prop) (m : Mem) (elfs : List Word) (p : Plugin)
    (pluginAt : p.At data m) (searched : ∀ elf ∈ elfs, Searched data m elf)
    (separate : p.Separate data m) (fresh : wafelIsRelocated m p.base = 0#32)
    (unrelocated : p.Unrelocated m) :
    (∀ n, 0 < n →
      (∀ a ∈ p.relativeSlots m,
        read32 (wafelDynamicCalls m p.base p.dyn n) a = read32 m a + p.base) ∧
      ∀ x, (∀ a ∈ p.relativeSlots m, ¬ InWord a x) → ¬ InWord (p.flag m) x →
        wafelDynamicCalls m p.base p.dyn n x = m x) ∧
    ∀ n, wafelDynamicCalls (wafelLinkPlugin m elfs p.base).1 p.base p.dyn n =
      (wafelLinkPlugin (wafelDynamicCalls m p.base p.dyn n) elfs p.base).1 := by
  refine ⟨?_, wafelDynamic_link elfs pluginAt searched separate fresh⟩
  intro n called
  obtain ⟨n, rfl⟩ := Nat.exists_eq_add_of_le' called
  rw [wafelDynamicCalls_eq pluginAt separate.relocation fresh]
  constructor
  · intro a slot
    rw [wafelDynamic_words pluginAt separate.relocation fresh m (Alike.refl _ m),
      read32_write32_apart _ a _ _ (separate.relativeFlag a slot)]
    exact relocateWords_value p.base (p.relativeSlots m) separate.relative unrelocated
      (p.relativeSlots m) (fun _ member => member) m (fun _ _ => .inl rfl) a slot (.inl slot)
  · intro x outside notFlag
    apply (wafelDynamic_confined pluginAt separate.relocation fresh).frame (Alike.refl _ m)
    rintro ⟨a, member, inside⟩
    rcases List.mem_cons.mp member with rfl | slot
    · exact notFlag inside
    · exact outside a slot inside

/-- A plugin at 0x27C00000, all of it in its first 0x600 bytes but for the slots. The first slot at
0x600 has the offset 4. -/
def relocSample (flag : Word) (ds : List (Word × Word)) (rels : List Word) : Mem :=
  let m := imageSample (fun _ => 0#8) 0x27C00000#32 0#32 (dynWords ds)
    [0#32, 0#32, 0#32, 0#32, 1#32, 0x500#32, 0#32, 1#32] [0#8, 0x66#8, 0#8]
  let m := writeWords m 0x27C00094#32 [flag]
  writeWords (writeWords m 0x27C00300#32 rels) 0x27C00600#32 [4#32]

/-- Two relocations in the table `DT_REL`. -/
def relocPlugin : Plugin where
  base := 0x27C00000#32
  dyn := 0x27C00100#32
  ds := [(dtStrtab, 0x220#32), (dtSymtab, 0x200#32), (dtRel, 0x300#32), (dtRelsz, 16#32)]
  rel := some ⟨0x300#32, 16#32⟩
  jmprel := none

/-- One relocation, in the table `DT_JMPREL`. -/
def jmprelPlugin : Plugin where
  base := 0x27C00000#32
  dyn := 0x27C00100#32
  ds := [(dtStrtab, 0x220#32), (dtSymtab, 0x200#32), (dtJmprel, 0x300#32), (dtPltrelsz, 8#32)]
  rel := none
  jmprel := some ⟨0x300#32, 8#32⟩

/-- `R_ARM_RELATIVE` for the first slot, and `R_ARM_GLOB_DAT` for `f` and another one. -/
def relsSample (offset : Word) : List Word := [0x600#32, 0x17#32, offset, 0x115#32]

def linkableMem : Mem := relocSample 0#32 relocPlugin.ds (relsSample 0x604#32)

/-- All but the flag and the two slots. -/
def dataSample (x : Word) : Prop := ¬ InWord 0x27C00094#32 x ∧ 8 ≤ (x - 0x27C00600#32).toNat

theorem within_data {a : Word} {n : Nat} (flagUp : n ≤ (0x27C00094#32 - a).toNat)
    (flagDown : 4 ≤ (a - 0x27C00094#32).toNat) (up : n ≤ (0x27C00600#32 - a).toNat)
    (down : 8 ≤ (a - 0x27C00600#32).toNat) : Within dataSample a n := by
  intro i inside
  constructor
  · rintro ⟨j, bound, same⟩
    exact apart_of_distance flagUp flagDown i inside j bound same
  · bv_omega

theorem linkableMem_scan :
    (scanDynamic linkableMem relocPlugin.base relocPlugin.dyn).symtab = 0x27C00200#32 ∧
      (scanDynamic linkableMem relocPlugin.base relocPlugin.dyn).strtab = 0x27C00220#32 := by
  decide

theorem linkableMem_names :
    stName linkableMem (symAddress 0x27C00200#32 0) = 0#32 ∧
      stName linkableMem (symAddress 0x27C00200#32 1) = 1#32 := by
  decide

theorem linkableMem_symbol (i : Nat) (inside : i < 2) :
    SymbolIn dataSample linkableMem 0x27C00200#32 0x27C00220#32 i := by
  obtain ⟨null, f⟩ := linkableMem_names
  unfold SymbolIn
  match i, inside with
  | 0, _ =>
      rw [null]
      refine ⟨within_data (by decide) (by decide) (by decide) (by decide), [], ?_,
        within_data (by decide) (by decide) (by decide) (by decide)⟩
      exact ⟨by decide, by decide, by decide, by decide⟩
  | 1, _ =>
      rw [f]
      refine ⟨within_data (by decide) (by decide) (by decide) (by decide), chars "f".toList, ?_,
        within_data (by decide) (by decide) (by decide) (by decide)⟩
      exact ⟨by decide, by decide, by decide, by decide⟩

theorem linkableMem_dynAt : DynAt linkableMem relocPlugin.dyn relocPlugin.ds :=
  .entry _ _ _ _ (by decide) (by decide) (by decide)
    (.entry _ _ _ _ (by decide) (by decide) (by decide)
      (.entry _ _ _ _ (by decide) (by decide) (by decide)
        (.entry _ _ _ _ (by decide) (by decide) (by decide)
          (.null _ (by decide)))))

theorem relocPlugin_table :
    tableRels relocPlugin.base relocPlugin.rel = [0x27C00300#32, 0x27C00308#32] ∧
      relocPlugin.taken = [0x27C00300#32, 0x27C00308#32] := by
  decide

theorem relocPlugin_entry {rel : Word} (listed : rel ∈ [0x27C00300#32, 0x27C00308#32]) :
    Within dataSample rel relBytes := by
  simp only [List.mem_cons, List.not_mem_nil, or_false] at listed
  rcases listed with rfl | rfl
  · exact within_data (by decide) (by decide) (by decide) (by decide)
  · exact within_data (by decide) (by decide) (by decide) (by decide)

theorem relocPlugin_dynamic :
    wafelGetPluginDynamic linkableMem relocPlugin.base = relocPlugin.dyn := by
  decide

theorem relocPlugin_phdrs :
    Within dataSample (wafelGetPluginPhdrs linkableMem relocPlugin.base)
      (phdrBytes * wafelGetPluginNumPhdrs linkableMem relocPlugin.base) := by
  have place : wafelGetPluginPhdrs linkableMem relocPlugin.base = 0x27C00034#32 := by
    decide
  have count : wafelGetPluginNumPhdrs linkableMem relocPlugin.base = 1 := by decide
  rw [place, count]
  exact within_data (by decide) (by decide) (by decide) (by decide)

theorem relocPlugin_at : relocPlugin.At dataSample linkableMem where
  header := within_data (by decide) (by decide) (by decide) (by decide)
  phdrs := relocPlugin_phdrs
  dynamic := relocPlugin_dynamic
  present := by decide
  stands := linkableMem_dynAt
  dynSection := within_data (by decide) (by decide) (by decide) (by decide)
  describes := ⟨by decide, by decide, by decide, by decide, by simp [relocPlugin],
    by simp [relocPlugin]⟩
  table rel listed := relocPlugin_entry (relocPlugin_table.1 ▸ listed)
  entries rel listed := relocPlugin_entry (relocPlugin_table.2 ▸ listed)
  symbols rel listed linked s scanned := by
    rw [scanned, linkableMem_scan.1, linkableMem_scan.2]
    apply linkableMem_symbol
    rw [relocPlugin_table.2] at listed
    simp only [List.mem_cons, List.not_mem_nil, or_false] at listed
    rcases listed with rfl | rfl
    · decide
    · decide

theorem relocPlugin_searched : Searched dataSample linkableMem relocPlugin.base where
  header := within_data (by decide) (by decide) (by decide) (by decide)
  phdrs := relocPlugin_phdrs
  dynSection := by
    rw [relocPlugin_dynamic]
    exact ⟨relocPlugin.ds, linkableMem_dynAt,
      within_data (by decide) (by decide) (by decide) (by decide)⟩
  symbols s scanned i inside := by
    rw [relocPlugin_dynamic] at scanned
    rw [scanned, linkableMem_scan.1, linkableMem_scan.2] at inside ⊢
    have count : (0x27C00220#32 - 0x27C00200#32 : Word).toNat / symBytes = 2 := by decide
    rw [count] at inside
    exact linkableMem_symbol i inside

theorem relocPlugin_slots :
    relocPlugin.flag linkableMem = 0x27C00094#32 ∧
      relocPlugin.relativeSlots linkableMem = [0x27C00600#32] ∧
      relocPlugin.linkedSlots linkableMem = [0x27C00604#32] :=
  ⟨by decide, by decide, by decide⟩

theorem relocPlugin_separate : relocPlugin.Separate dataSample linkableMem := by
  obtain ⟨flag, relative, linked⟩ := relocPlugin_slots
  refine ⟨?_, ?_, ?_, ?_, ?_⟩
  · rw [flag, relative, linked]
    intro a member x inside data
    simp only [List.singleton_append, List.mem_cons, List.not_mem_nil, or_false] at member
    rcases member with rfl | rfl | rfl
    · exact data.1 inside
    · obtain ⟨i, bound, rfl⟩ := inside
      have past := data.2
      bv_omega
    · obtain ⟨i, bound, rfl⟩ := inside
      have past := data.2
      bv_omega
  · rw [relative]
    intro a member b member'
    rw [List.mem_singleton] at member member'
    exact .inl (member.trans member'.symm)
  · rw [relative, linked]
    intro a member b member'
    rw [List.mem_singleton] at member member'
    subst member member'
    exact apart_of_distance (by decide) (by decide)
  · rw [relative, flag]
    intro a member
    rw [List.mem_singleton] at member
    subst member
    exact apart_of_distance (by decide) (by decide)
  · rw [linked, flag]
    intro a member
    rw [List.mem_singleton] at member
    subst member
    exact apart_of_distance (by decide) (by decide)

theorem relocPlugin_unrelocated : relocPlugin.Unrelocated linkableMem := by
  unfold Plugin.Unrelocated
  rw [relocPlugin_slots.2.1]
  intro a member
  rw [List.mem_singleton] at member
  subst member
  exact ⟨by decide, by decide⟩

theorem wafelDynamic_once_commutes_sample :
    (∀ n, 0 < n →
      (∀ a ∈ relocPlugin.relativeSlots linkableMem,
        read32 (wafelDynamicCalls linkableMem relocPlugin.base relocPlugin.dyn n) a =
          read32 linkableMem a + relocPlugin.base) ∧
      ∀ x, (∀ a ∈ relocPlugin.relativeSlots linkableMem, ¬ InWord a x) →
        ¬ InWord (relocPlugin.flag linkableMem) x →
        wafelDynamicCalls linkableMem relocPlugin.base relocPlugin.dyn n x = linkableMem x) ∧
    ∀ n, wafelDynamicCalls (wafelLinkPlugin linkableMem [relocPlugin.base] relocPlugin.base).1
        relocPlugin.base relocPlugin.dyn n =
      (wafelLinkPlugin (wafelDynamicCalls linkableMem relocPlugin.base relocPlugin.dyn n)
        [relocPlugin.base] relocPlugin.base).1 :=
  wafelDynamic_once_commutes dataSample linkableMem [relocPlugin.base] relocPlugin relocPlugin_at
    (fun elf member => List.mem_singleton.mp member ▸ relocPlugin_searched) relocPlugin_separate
    (by decide) relocPlugin_unrelocated

/-- The slot of the second relocation is the flag. -/
def overlappedMem : Mem := relocSample 0#32 relocPlugin.ds (relsSample 0x94#32)

/-- The flag is set in the file. -/
def relocatedMem : Mem := relocSample 1#32 relocPlugin.ds (relsSample 0x604#32)

/-- The relocation for the first slot is in the table `DT_JMPREL`. -/
def jmprelMem : Mem := relocSample 0#32 jmprelPlugin.ds [0x600#32, 0x17#32]

/-- Linking before the call sets the flag where a slot is the flag, and nothing is relocated; nor is
it where the flag is set in the file or the entry is in the other table. -/
theorem relocation_skipped :
    (overlappedMem 0x27C00603#32 = 4#8 ∧ Apart 0x27C00600#32 4 0x27C00000#32 0x600 ∧
      relocPlugin.relativeSlots overlappedMem = [0x27C00600#32] ∧
      relocPlugin.linkedSlots overlappedMem = [0x27C00094#32] ∧
      wafelDynamicCalls (wafelLinkPlugin overlappedMem [relocPlugin.base] relocPlugin.base).1
          relocPlugin.base relocPlugin.dyn 1 ≠
        (wafelLinkPlugin (wafelDynamicCalls overlappedMem relocPlugin.base relocPlugin.dyn 1)
          [relocPlugin.base] relocPlugin.base).1) ∧
    read32 (wafelDynamicCalls relocatedMem relocPlugin.base relocPlugin.dyn 1) 0x27C00600#32 =
      4#32 ∧
    read32 (wafelDynamicCalls jmprelMem jmprelPlugin.base jmprelPlugin.dyn 1) 0x27C00600#32 =
      4#32 := by
  refine ⟨⟨?_, ?_, ?_, ?_, ?_⟩, ?_, ?_⟩
  · decide
  · exact apart_of_distance (by decide) (by decide)
  · decide
  · decide
  · intro equal
    have linkedFirst : (wafelDynamicCalls
        (wafelLinkPlugin overlappedMem [relocPlugin.base] relocPlugin.base).1 relocPlugin.base
        relocPlugin.dyn 1) 0x27C00600#32 = 0#8 := by
      decide
    have linkedLast : (wafelLinkPlugin
        (wafelDynamicCalls overlappedMem relocPlugin.base relocPlugin.dyn 1) [relocPlugin.base]
        relocPlugin.base).1 0x27C00600#32 = 0x27#8 := by
      decide
    rw [equal, linkedLast] at linkedFirst
    exact absurd linkedFirst (by decide)
  · decide
  · decide

end Once

end Stroopwafel.Dynamic
