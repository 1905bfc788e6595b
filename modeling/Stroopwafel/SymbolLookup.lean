import Stroopwafel.PluginEntry

set_option autoImplicit false

open Memory CString Stroopwafel.Dynamic

/- The search for symbols, with the null pointers that it reads through. -/
namespace Stroopwafel.SymbolLookup

section Model

variable (m : Mem)

/-- There is no result when a table is read through a null pointer. -/
def findValue (base symtab strtab name : Word) : Nat → Nat → Option Word
  | 0, _ => some 0#32
  | remaining + 1, i =>
      if symtab = 0#32 ∨ strtab = 0#32 then none
      else
        let sym := symAddress symtab i
        if strncmp m (strtab + stName m sym) name (2 ^ 32) = 0 ∧ stValue m sym ≠ 0#32 then
          some (base + stValue m sym)
        else findValue base symtab strtab name remaining (i + 1)

def wafelGetSymbolAddr (base name : Word) : Option Word :=
  let dyn := wafelGetPluginDynamic m base
  if dyn = 0#32 then none
  else
    let s := scanDynamic m base dyn
    let numsyms := (s.strtab - s.symtab).toNat / symBytes
    findValue m base s.symtab s.strtab name numsyms 0

def wafelFindSymbol (name : Word) : List Word → Option Word
  | [] => some 0#32
  | elf :: rest => do
      let ptr ← wafelGetSymbolAddr m elf name
      if ptr ≠ 0#32 then return ptr
      else wafelFindSymbol name rest

def wafelFindSymbolMultiple (name : Word) : List Word → Word → Option Word
  | [], _ => some 0#32
  | elf :: rest, skip => do
      let ptr ← wafelGetSymbolAddr m elf name
      if ptr ≠ 0#32 then
        if skip = 0#32 then return ptr
        else wafelFindSymbolMultiple name rest (skip - 1#32)
      else wafelFindSymbolMultiple name rest skip

end Model

/-- A registered image: without `PT_DYNAMIC`, with a dynamic section that has no symbol table, or
with a symbol table. -/
inductive Elf where
  | plain (base : Word)
  | dynamic (base dyn : Word) (ds : List (Word × Word)) (strtab : Option Word)
  | symbols (base dyn : Word) (ds : List (Word × Word)) (symtab strtab : Word) (syms : List Sym)

namespace Elf

def base : Elf → Word
  | plain base => base
  | dynamic base .. => base
  | symbols base .. => base

def syms : Elf → List Sym
  | plain _ => []
  | dynamic .. => []
  | symbols _ _ _ _ _ syms => syms

/-- The address of the first symbol with the name and a value that is not 0. -/
def provides (elf : Elf) (text : List Byte) : Option Word :=
  (elf.syms.find? fun s => s.name = text ∧ s.value ≠ 0#32).map fun s => elf.base + s.value

section Stands

variable (m : Mem)

/-- No program header is `PT_DYNAMIC`. -/
def NoDynamic (base : Word) : Prop :=
  ∀ i < wafelGetPluginNumPhdrs m base,
    read32 m (wafelGetPluginPhdrs m base + BitVec.ofNat 32 (phdrBytes * i)) ≠ ptDynamic

structure DynamicAt (base dyn : Word) (ds : List (Word × Word)) : Prop where
  magic : read32 m base = ipxElfMagic
  found : wafelGetPluginDynamic m base = dyn
  present : dyn ≠ 0#32
  stands : DynAt m dyn ds

/-- The string table starts where the symbol table ends. -/
structure SymbolsAt (base symtab strtab : Word) (syms : List Sym) : Prop where
  symtabPlaced : symtab ≠ 0#32
  strtabPlaced : strtab ≠ 0#32
  count : (strtab - symtab).toNat = symBytes * syms.length
  symAt : ∀ i, (inside : i < syms.length) →
    SymAt (fun _ => True) m strtab (symAddress symtab i) syms[i]
  placed : ∀ s ∈ syms, s.value ≠ 0#32 → base + s.value ≠ 0#32

def At : Elf → Prop
  | plain base => read32 m base = ipxElfMagic ∧ NoDynamic m base
  | dynamic base dyn ds strtab => DynamicAt m base dyn ds ∧ values ds dtSymtab = [] ∧
      (values ds dtStrtab).map (base + ·) = strtab.toList
  | symbols base dyn ds symtab strtab syms => DynamicAt m base dyn ds ∧
      (values ds dtSymtab).map (base + ·) = [symtab] ∧
      (values ds dtStrtab).map (base + ·) = [strtab] ∧ SymbolsAt m base symtab strtab syms

end Stands

/-- The image has a dynamic section; and where it has no symbol table, it has no string table, from
which a number of symbols would be computed. -/
def Guarded : Elf → Prop
  | plain _ => False
  | dynamic _ _ _ strtab => ∀ s ∈ strtab, s.toNat < symBytes
  | symbols .. => True

instance : DecidablePred Guarded
  | plain _ => inferInstanceAs (Decidable False)
  | dynamic _ _ _ strtab => inferInstanceAs (Decidable (∀ s ∈ strtab, s.toNat < symBytes))
  | symbols .. => inferInstanceAs (Decidable True)

end Elf

section Lookup

variable {m : Mem} {name : Word} {text : List Byte}

theorem findDynamic_none (base ph : Word) (count : Nat)
    (none : ∀ i < count, read32 m (ph + BitVec.ofNat 32 (phdrBytes * i)) ≠ ptDynamic) :
    findDynamic m base count ph = 0#32 := by
  induction count generalizing ph with
  | zero => rfl
  | succ count ih =>
      have first := none 0 (Nat.zero_lt_succ count)
      rw [Nat.mul_zero, BitVec.add_zero] at first
      rw [findDynamic, if_neg first]
      apply ih
      intro i inside
      have later := none (i + 1) (Nat.succ_lt_succ inside)
      rwa [ofNat_add_ofNat, Nat.add_comm, ← Nat.mul_succ]

theorem wafelGetPluginDynamic_none {base : Word} (none : Elf.NoDynamic m base) :
    wafelGetPluginDynamic m base = 0#32 := by
  unfold wafelGetPluginDynamic
  by_cases absent : wafelGetPluginPhdrs m base = 0#32 ∨ wafelGetPluginNumPhdrs m base = 0
  · exact if_pos absent
  · exact (if_neg absent).trans (findDynamic_none base _ _ none)

/-- The search goes through the rest of the symbol table. -/
theorem findValue_eq (named : Str m name text) {base symtab strtab : Word} {syms : List Sym}
    (symbolsAt : Elf.SymbolsAt m base symtab strtab syms) (remaining i : Nat)
    (rest : i + remaining = syms.length) :
    findValue m base symtab strtab name remaining i =
      some ((((syms.drop i).find? fun s => s.name = text ∧ s.value ≠ 0#32).map
        fun s => base + s.value).getD 0#32) := by
  induction remaining generalizing i with
  | zero =>
      rw [List.drop_eq_nil_of_le (by omega)]
      rfl
  | succ remaining ih =>
      have inside : i < syms.length := by omega
      have symAt := symbolsAt.symAt i inside
      have null : ¬ (symtab = 0#32 ∨ strtab = 0#32) :=
        not_or.mpr ⟨symbolsAt.symtabPlaced, symbolsAt.strtabPlaced⟩
      rw [List.drop_eq_getElem_cons inside, List.find?_cons, findValue, if_neg null]
      simp only [symAt.nameOffset, symAt.value, strncmp_str_iff symAt.name named,
        ih (i + 1) (by omega)]
      by_cases found : syms[i].name = text ∧ syms[i].value ≠ 0#32
      · simp [found]
      · simp [found]

/-- The scan finds the pointers of the dynamic section. -/
theorem scan_tables {base dyn : Word} {ds : List (Word × Word)}
    (dynamicAt : Elf.DynamicAt m base dyn ds) :
    (scanDynamic m base dyn).symtab = (((values ds dtSymtab).map (base + ·)).getLast?).getD 0#32 ∧
      (scanDynamic m base dyn).strtab =
        (((values ds dtStrtab).map (base + ·)).getLast?).getD 0#32 := by
  have bound := dynamicAt.stands.length_lt
  have scanned : scanDynamic m base dyn = folded base ds ⟨0#32, 0#32, 0#32, 0#32⟩ :=
    scan_eq base dyn ds dynamicAt.stands (2 ^ 32) (by omega) _
  rw [scanned, folded_symtab, folded_strtab, List.getLast?_map, List.getLast?_map]
  constructor
  · cases (values ds dtSymtab).getLast? <;> rfl
  · cases (values ds dtStrtab).getLast? <;> rfl

/-- A string table alone stands for symbols that would be read through a null pointer. -/
theorem wafelGetSymbolAddr_dynamic {base dyn : Word} {ds : List (Word × Word)}
    {strtab : Option Word} (elfAt : (Elf.dynamic base dyn ds strtab).At m) :
    wafelGetSymbolAddr m base name =
      if ∀ s ∈ strtab, s.toNat < symBytes then some 0#32 else none := by
  obtain ⟨dynamicAt, noSymtab, isStrtab⟩ := elfAt
  obtain ⟨symtab, strtab'⟩ := scan_tables dynamicAt
  rw [noSymtab] at symtab
  rw [isStrtab] at strtab'
  unfold wafelGetSymbolAddr
  simp only [dynamicAt.found, if_neg dynamicAt.present, symtab, strtab']
  cases strtab with
  | none =>
      have noSymbols : (0#32 - 0#32 : Word).toNat / symBytes = 0 := by decide
      change findValue m base 0#32 0#32 name ((0#32 - 0#32 : Word).toNat / symBytes) 0 = _
      rw [noSymbols, if_pos (by simp)]
      rfl
  | some s =>
      simp only [List.map_nil, List.getLast?_nil, Option.toList_some, List.getLast?_singleton,
        Option.getD_some, Option.getD_none, BitVec.sub_zero, Option.mem_some_iff, forall_eq']
      by_cases few : s.toNat < symBytes
      · rw [if_pos few, Nat.div_eq_of_lt few]
        rfl
      · obtain ⟨count, isCount⟩ := Nat.exists_eq_add_of_le'
          (Nat.div_pos (Nat.le_of_not_lt few) (by decide))
        rw [if_neg few, isCount]
        rfl

theorem wafelGetSymbolAddr_symbols (named : Str m name text) {base dyn symtab strtab : Word}
    {ds : List (Word × Word)} {syms : List Sym}
    (elfAt : (Elf.symbols base dyn ds symtab strtab syms).At m) :
    wafelGetSymbolAddr m base name =
      some (((Elf.symbols base dyn ds symtab strtab syms).provides text).getD 0#32) := by
  obtain ⟨dynamicAt, isSymtab, isStrtab, symbolsAt⟩ := elfAt
  obtain ⟨symtab', strtab'⟩ := scan_tables dynamicAt
  rw [isSymtab] at symtab'
  rw [isStrtab] at strtab'
  unfold wafelGetSymbolAddr
  simp only [dynamicAt.found, if_neg dynamicAt.present, symtab', strtab', List.getLast?_singleton,
    Option.getD_some, symbolsAt.count, Nat.mul_div_cancel_left _ (show 0 < symBytes by decide)]
  exact findValue_eq named symbolsAt syms.length 0 (Nat.zero_add _)

/-- The lookup in one image. -/
theorem wafelGetSymbolAddr_eq (named : Str m name text) {elf : Elf} (elfAt : elf.At m) :
    wafelGetSymbolAddr m elf.base name =
      if elf.Guarded then some ((elf.provides text).getD 0#32) else none := by
  cases elf with
  | plain base =>
      rw [if_neg (show ¬ (Elf.plain base).Guarded from id)]
      unfold wafelGetSymbolAddr
      exact if_pos (wafelGetPluginDynamic_none elfAt.2)
  | dynamic base dyn ds strtab => exact wafelGetSymbolAddr_dynamic elfAt
  | symbols base dyn ds symtab strtab syms =>
      rw [if_pos (show (Elf.symbols base dyn ds symtab strtab syms).Guarded from trivial)]
      exact wafelGetSymbolAddr_symbols named elfAt

theorem provides_nonzero {elf : Elf} (elfAt : elf.At m) {address : Word}
    (found : elf.provides text = some address) : address ≠ 0#32 := by
  obtain ⟨s, first, rfl⟩ := Option.map_eq_some_iff.mp found
  have member := List.mem_of_find?_eq_some first
  have matched := List.find?_some first
  rw [decide_eq_true_eq] at matched
  cases elf with
  | plain base => cases member
  | dynamic base dyn ds strtab => cases member
  | symbols base dyn ds symtab strtab syms => exact elfAt.2.2.2.placed s member matched.2

end Lookup

section Search

/-- The images up to the one whose symbol is returned, or all of them. -/
def reached (text : List Byte) : List Elf → Nat → List Elf
  | [], _ => []
  | elf :: rest, k =>
      elf :: match elf.provides text with
        | none => reached text rest k
        | some _ =>
            match k with
            | 0 => []
            | k + 1 => reached text rest k

/-- The address in the image with index `k` of those that have the symbol, or 0. -/
def provided (text : List Byte) (elfs : List Elf) (k : Nat) : Word :=
  ((elfs.filterMap fun elf => elf.provides text)[k]?).getD 0#32

variable {m : Mem} {name : Word} {text : List Byte}

theorem wafelFindSymbolMultiple_eq (named : Str m name text) (elfs : List Elf)
    (elfsAt : ∀ elf ∈ elfs, elf.At m) (skip : Word) :
    wafelFindSymbolMultiple m name (elfs.map Elf.base) skip =
      if ∀ elf ∈ reached text elfs skip.toNat, elf.Guarded then
        some (provided text elfs skip.toNat)
      else none := by
  induction elfs generalizing skip with
  | nil =>
      rw [if_pos (by simp [reached])]
      rfl
  | cons elf rest ih =>
      have elfAt := elfsAt elf List.mem_cons_self
      have later := ih fun elf' member => elfsAt elf' (List.mem_cons_of_mem _ member)
      rw [List.map_cons, wafelFindSymbolMultiple, wafelGetSymbolAddr_eq named elfAt]
      by_cases guarded : elf.Guarded
      · rw [if_pos guarded]
        cases found : elf.provides text with
        | none =>
            have here : reached text (elf :: rest) skip.toNat =
                elf :: reached text rest skip.toNat := by
              simp only [reached, found]
            have value : provided text (elf :: rest) skip.toNat =
                provided text rest skip.toNat := by
              simp only [provided, List.filterMap_cons, found]
            simp only [here, value, List.forall_mem_cons, guarded, true_and]
            exact later skip
        | some address =>
            have nonzero := provides_nonzero elfAt found
            have value : ∀ k, provided text (elf :: rest) k =
                ((address :: rest.filterMap fun elf => elf.provides text)[k]?).getD 0#32 := by
              intro k
              simp only [provided, List.filterMap_cons, found]
            by_cases last : skip = 0#32
            · subst last
              have here : reached text (elf :: rest) (0#32 : Word).toNat = [elf] := by
                change reached text (elf :: rest) 0 = [elf]
                simp only [reached, found]
              rw [here, value, if_pos (by simpa using guarded)]
              simp [nonzero]
            · obtain ⟨k, isSkip⟩ := Nat.exists_eq_add_of_le'
                (show 1 ≤ skip.toNat by bv_omega)
              have less : (skip - 1#32).toNat = k := by bv_omega
              have here : reached text (elf :: rest) skip.toNat = elf :: reached text rest k := by
                simp only [isSkip, reached, found]
              rw [here, value, isSkip, List.getElem?_cons_succ]
              simp only [List.forall_mem_cons, guarded, true_and]
              have rest_ok := later (skip - 1#32)
              rw [less] at rest_ok
              simp only [Option.getD_some, Option.bind_eq_bind, Option.bind_some]
              rw [if_pos nonzero, if_neg last]
              exact rest_ok
      · have first : elf ∈ reached text (elf :: rest) skip.toNat := by
          unfold reached
          exact List.mem_cons_self
        rw [if_neg guarded, if_neg fun all => guarded (all elf first)]
        rfl

/-- Both searches are one. -/
theorem wafelFindSymbol_eq (m : Mem) (name : Word) (elfs : List Word) :
    wafelFindSymbol m name elfs = wafelFindSymbolMultiple m name elfs 0#32 := by
  induction elfs with
  | nil => rfl
  | cons elf rest ih =>
      unfold wafelFindSymbol wafelFindSymbolMultiple
      rw [ih]
      rfl

end Search

section Multiple

/-- The search returns the address in the image with index `skip` of those that have the symbol, and
both searches agree, if and only if no image on the way there lacks what is read. -/
theorem wafelFindSymbolMultiple_iff (m : Mem) (name : Word) (text : List Byte)
    (named : Str m name text) (elfs : List Elf) (elfsAt : ∀ elf ∈ elfs, elf.At m) (skip : Word) :
    (wafelFindSymbolMultiple m name (elfs.map Elf.base) skip =
        some (provided text elfs skip.toNat) ∧
      wafelFindSymbol m name (elfs.map Elf.base) =
        wafelFindSymbolMultiple m name (elfs.map Elf.base) 0#32) ↔
      ∀ elf ∈ reached text elfs skip.toNat, elf.Guarded := by
  rw [and_iff_left (wafelFindSymbol_eq m name _), wafelFindSymbolMultiple_eq named elfs elfsAt]
  by_cases guarded : ∀ elf ∈ reached text elfs skip.toNat, elf.Guarded
  · rw [if_pos guarded]
    exact ⟨fun _ => guarded, fun _ => rfl⟩
  · rw [if_neg guarded]
    exact ⟨fun found => absurd found nofun, fun all => absurd all guarded⟩

/-- The plugins of `entrySample`, which both export `f` -/
def exporterElf (base : Word) : Elf :=
  .symbols base (exporter base).dyn (exporter base).ds (exporter base).symtab (exporter base).strtab
    (exporter base).syms

theorem exporterElf_at (base : Word) (known : base = 0x27B00000#32 ∨ base = 0x27C00000#32) :
    (exporterElf base).At entrySample := by
  have imageAt := exporter_at base known
  refine ⟨⟨imageAt.magic, imageAt.dynamic, imageAt.present, imageAt.stands⟩, rfl, rfl, ?_⟩
  exact
    { symtabPlaced := by rcases known with rfl | rfl <;> decide
      strtabPlaced := by rcases known with rfl | rfl <;> decide
      count := imageAt.count
      symAt := fun i inside => { imageAt.syms i inside with
        within := fun _ _ => trivial
        nameWithin := fun _ _ => trivial }
      placed := imageAt.placed }

def elfsSample : List Elf := [exporterElf 0x27B00000#32, exporterElf 0x27C00000#32]

theorem elfsSample_at (elf : Elf) (member : elf ∈ elfsSample) : elf.At entrySample := by
  rcases List.mem_cons.mp member with rfl | rest
  · exact exporterElf_at _ (.inl rfl)
  · rw [List.mem_singleton.mp rest]
    exact exporterElf_at _ (.inr rfl)

theorem wafelFindSymbolMultiple_iff_sample :
    wafelFindSymbolMultiple entrySample 0x27B00221#32 (elfsSample.map Elf.base) 1#32 =
        some (provided (chars "f".toList) elfsSample 1) ∧
      wafelFindSymbol entrySample 0x27B00221#32 (elfsSample.map Elf.base) =
        wafelFindSymbolMultiple entrySample 0x27B00221#32 (elfsSample.map Elf.base) 0#32 :=
  (wafelFindSymbolMultiple_iff entrySample 0x27B00221#32 (chars "f".toList) namePlaced_sample.str
    elfsSample elfsSample_at 1#32).mpr (by decide)

/-- An image without program headers -/
def plainSample : Elf := .plain 0x1000#32

/-- Nothing but the magic of an ELF file. -/
def plainMem : Mem := writeWords (fun _ => 0#8) 0x1000#32 [ipxElfMagic]

/-- The dynamic section of an image that has none is read at address 0. -/
theorem plain_not_skipped :
    (Str plainMem 0x2000#32 [] ∧ plainSample.At plainMem) ∧
      wafelFindSymbolMultiple plainMem 0x2000#32 ([plainSample].map Elf.base) 0#32 ≠
        some (provided [] [plainSample] 0) := by
  have named : Str plainMem 0x2000#32 [] :=
    ⟨fun i inside => absurd inside (Nat.not_lt_zero i), by decide, by decide, by decide⟩
  have elfAt : plainSample.At plainMem := by
    refine ⟨by decide, fun i inside => absurd inside ?_⟩
    rw [show wafelGetPluginNumPhdrs plainMem 0x1000#32 = 0 by decide]
    exact Nat.not_lt_zero i
  refine ⟨⟨named, elfAt⟩, ?_⟩
  have result := wafelFindSymbolMultiple_eq named [plainSample]
    (fun elf member => List.mem_singleton.mp member ▸ elfAt) 0#32
  rw [result, if_neg]
  · nofun
  · exact fun guarded => guarded plainSample List.mem_cons_self

end Multiple

end Stroopwafel.SymbolLookup
