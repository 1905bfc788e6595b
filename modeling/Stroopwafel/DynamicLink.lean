import Stroopwafel.Dynamic

set_option autoImplicit false

namespace Stroopwafel.Dynamic

open Memory CString

/-- The first loop of `init_linking`: every plugin of the chain is registered. -/
def registerPlugins (m : Mem) : Nat → Word → List Word → List Word
  | 0, _, elfs => elfs
  | fuel + 1, base, elfs =>
      let next := wafelPluginNext m base
      if next = 0#32 then elfs
      else registerPlugins m fuel next
        (if read32 m next = ipxElfMagic then elfs ++ [next] else elfs)

/-- The second loop: every plugin behind the first is linked. -/
def linkPlugins (elfs : List Word) : Nat → Word → Mem → Mem
  | 0, _, m => m
  | fuel + 1, base, m =>
      let next := wafelPluginNext m base
      if next = 0#32 then m
      else linkPlugins elfs fuel next
        (if read32 m next = ipxElfMagic then (wafelLinkPlugin m elfs next).1 else m)

def initLinking (fuel : Nat) (m : Mem) (wafelPluginBaseAddr : Word) : Mem :=
  linkPlugins (registerPlugins m fuel wafelPluginBaseAddr [wafelPluginBaseAddr]) fuel
    wafelPluginBaseAddr m

/-- A symbol, with the place of its name in the string table. -/
structure Sym where
  nameOffset : Word
  value : Word
  shndx : Half
  name : List Byte

/-- What the headers and the tables of a plugin say. -/
structure Image where
  base : Word
  dyn : Word
  ds : List (Word × Word)
  symtab : Word
  strtab : Word
  syms : List Sym
  rel : Option Table
  jmprel : Option Table

def Image.rels (im : Image) : List Word := tableRels im.base im.rel ++ tableRels im.base im.jmprel

/-- An entry of the chain: a plugin, or data that is passed over. -/
inductive Node where
  | plugin (im : Image)
  | data (base : Word)

def Node.base : Node → Word
  | plugin im => im.base
  | data base => base

def Node.image : Node → Option Image
  | plugin im => some im
  | data _ => none

/-- The memory that linking reads: it holds the `n` bytes at `a`. -/
def Within (footprint : Word → Prop) (a : Word) (n : Nat) : Prop :=
  ∀ i < n, footprint (a + BitVec.ofNat 32 i)

section Wellformed

variable (footprint : Word → Prop) (m : Mem)

structure SymAt (strtab address : Word) (s : Sym) : Prop where
  within : Within footprint address symBytes
  nameWithin : Within footprint (strtab + s.nameOffset) (s.name.length + 1)
  nameOffset : stName m address = s.nameOffset
  value : stValue m address = s.value
  shndx : stShndx m address = s.shndx
  name : Str m (strtab + s.nameOffset) s.name

/-- The tables of a plugin are well formed. -/
structure Image.At (im : Image) : Prop where
  header : Within footprint im.base 52
  phdrs : Within footprint (wafelGetPluginPhdrs m im.base)
    (phdrBytes * wafelGetPluginNumPhdrs m im.base)
  magic : read32 m im.base = ipxElfMagic
  dynamic : wafelGetPluginDynamic m im.base = im.dyn
  present : im.dyn ≠ 0#32
  dynSection : Within footprint im.dyn (dynBytes * (im.ds.length + 1))
  stands : DynAt m im.dyn im.ds
  symtab : ∃ ptr, values im.ds dtSymtab = [ptr] ∧ im.base + ptr = im.symtab
  strtab : ∃ ptr, values im.ds dtStrtab = [ptr] ∧ im.base + ptr = im.strtab
  describes : Describes im.base im.ds im.rel im.jmprel
  joined : Joined im.base im.ds im.rel im.jmprel
  count : (im.strtab - im.symtab).toNat = symBytes * im.syms.length
  syms : ∀ i, (inside : i < im.syms.length) →
    SymAt footprint m im.strtab (symAddress im.symtab i) im.syms[i]
  null : ∀ s ∈ im.syms.head?, s.value = 0#32
  undefined : ∀ s ∈ im.syms, s.shndx = 0#16 → s.value = 0#32
  placed : ∀ s ∈ im.syms, s.value ≠ 0#32 → im.base + s.value ≠ 0#32
  relWithin : ∀ rel ∈ im.rels, Within footprint rel relBytes
  relSymbol : ∀ rel ∈ im.rels, relSym (read32 m (rel + 4#32)) < im.syms.length

/-- The header of an entry of the chain, and its pointer to the next one. -/
structure Node.At (node : Node) : Prop where
  header : Within footprint node.base 52
  next : Within footprint (node.base + read32 m (node.base + 24#32) + 0x10#32) 4
  plugin : ∀ im ∈ node.image, im.At footprint m
  data : node.image = none → read32 m node.base ≠ ipxElfMagic

/-- The entries `nodes` follow the one at `base` in the chain. -/
def ChainAt : Word → List Node → Prop
  | base, [] => wafelPluginNext m base = 0#32
  | base, node :: rest => wafelPluginNext m base = node.base ∧ node.base ≠ 0#32 ∧
      node.At footprint m ∧ ChainAt node.base rest

end Wellformed

def images (nodes : List Node) : List Image := nodes.filterMap Node.image

/-- The definition of a name in a plugin. -/
def Image.defines (im : Image) (name : List Byte) : Option Sym :=
  im.syms.find? fun s => s.name = name ∧ s.shndx ≠ 0#16

/-- The definition of a name in the first plugin that has one. -/
def definition (ims : List Image) (name : List Byte) : Option (Word × Sym) :=
  ims.findSome? fun im => (im.defines name).map fun s => (im.base, s)

/-- What symbol `i` of a plugin stands for: itself, or the definition of its name. -/
def target (ims : List Image) (im : Image) (i : Nat) (s : Sym) : Option (Word × Sym) :=
  if s.shndx ≠ 0#16 then some (im.base, s)
  else if i = 0 then none
  else definition ims s.name

def address : Option (Word × Sym) → Word
  | none => 0#32
  | some (base, s) => base + s.value

section Relocations

variable (m : Mem) (im : Image) (rel : Word)

def slot : Word := im.base + read32 m rel

def typeAt : Word := relType (read32 m (rel + 4#32))

def symIdx : Nat := relSym (read32 m (rel + 4#32))

/-- A relocation of one of the three types that are linked. -/
def Linked : Prop :=
  typeAt m rel = rArmGlobDat ∨ typeAt m rel = rArmJumpSlot ∨ typeAt m rel = rArmAbs32

instance : Decidable (Linked m rel) := inferInstanceAs (Decidable (_ ∨ _))

/-- The addend is the old word of the slot for `R_ARM_ABS32`, and there is none otherwise. -/
def addend : Word := if typeAt m rel = rArmAbs32 then read32 m (slot m im rel) else 0#32

/-- The value of the slot after linking, by the rules of the relocation types. -/
def linkedValue (ims : List Image) : Option Word :=
  (im.syms[symIdx m rel]?).map fun s => address (target ims im (symIdx m rel) s) + addend m im rel

/-- The address of a name in a plugin where it has a value that is not 0. -/
def Image.provides (im : Image) (name : List Byte) : Option Word :=
  (im.syms.find? fun s => s.name = name ∧ s.value ≠ 0#32).map fun s => im.base + s.value

def provided (ims : List Image) (name : List Byte) : Word :=
  (ims.findSome? fun im => im.provides name).getD 0#32

/-- The addend is 0; or the definition has the value 0, and the addend makes up for the address
that is used in its place. -/
def Fits (ims : List Image) : Prop :=
  ∀ s ∈ im.syms[symIdx m rel]?,
    match target ims im (symIdx m rel) s with
    | none => addend m im rel = 0#32
    | some (base, d) =>
        if d.value ≠ 0#32 then addend m im rel = 0#32
        else (if s.shndx ≠ 0#16 then 0#32 else provided ims s.name) = base + addend m im rel

end Relocations

/-- Both memories are the same where linking reads. -/
def Agree (footprint : Word → Prop) (m m' : Mem) : Prop := ∀ x, footprint x → m' x = m x

section Frame

variable {footprint : Word → Prop} {m m' : Mem} (alike : Agree footprint m m')
include alike

theorem Agree.same {a : Word} {n : Nat} (within : Within footprint a n) : Same m m' a n :=
  fun i inside => alike _ (within i inside)

theorem Agree.field {a : Word} {n : Nat} (within : Within footprint a n) (offset : Nat)
    (inside : offset + 4 ≤ n) :
    read32 m' (a + BitVec.ofNat 32 offset) = read32 m (a + BitVec.ofNat 32 offset) :=
  ((alike.same within).sub offset inside).read32

theorem Agree.str {a : Word} {s : List Byte} (within : Within footprint a (s.length + 1))
    (str : Str m a s) : Str m' a s :=
  str.congr fun i inside => alike.same within i (by omega)

theorem SymAt.agree {strtab address : Word} {s : Sym} (symAt : SymAt footprint m strtab address s) :
    SymAt footprint m' strtab address s := by
  have same := alike.same symAt.within
  refine ⟨symAt.within, symAt.nameWithin, ?_, ?_, ?_, alike.str symAt.nameWithin symAt.name⟩
  · rw [← symAt.nameOffset]
    exact (same.mono (by decide : 4 ≤ symBytes)).read32
  · rw [← symAt.value]
    exact (same.sub 4 (by decide) : Same m m' (address + 4#32) 4).read32
  · rw [← symAt.shndx]
    exact (same.sub 14 (by decide) : Same m m' (address + 14#32) 2).read16

theorem magic_agree {base : Word} (header : Within footprint base 52) :
    read32 m' base = read32 m base :=
  ((alike.same header).mono (by decide : 4 ≤ 52)).read32

theorem wafelGetPluginPhdrs_agree {base : Word} (header : Within footprint base 52) :
    wafelGetPluginPhdrs m' base = wafelGetPluginPhdrs m base := by
  have offset : read32 m' (base + 28#32) = read32 m (base + 28#32) :=
    alike.field header 28 (by decide)
  rw [wafelGetPluginPhdrs, magic_agree alike header, offset, wafelGetPluginPhdrs]

theorem wafelGetPluginNumPhdrs_agree {base : Word} (header : Within footprint base 52) :
    wafelGetPluginNumPhdrs m' base = wafelGetPluginNumPhdrs m base := by
  have count : Same m m' (base + 44#32) 2 := (alike.same header).sub 44 (by decide)
  rw [wafelGetPluginNumPhdrs, magic_agree alike header, count.read16, wafelGetPluginNumPhdrs]

theorem findDynamic_agree (base : Word) (remaining : Nat) (ph : Word)
    (within : Within footprint ph (phdrBytes * remaining)) :
    findDynamic m' base remaining ph = findDynamic m base remaining ph := by
  induction remaining generalizing ph with
  | zero => rfl
  | succ remaining ih =>
      have type := alike.field within 0 (by simp only [phdrBytes]; omega)
      have vaddr : read32 m' (ph + 8#32) = read32 m (ph + 8#32) :=
        alike.field within 8 (by simp only [phdrBytes]; omega)
      rw [BitVec.add_zero] at type
      rw [findDynamic, type, vaddr, ih, findDynamic]
      intro i inside
      rw [ofNat_add_ofNat]
      exact within _ (by rw [Nat.mul_succ]; omega)

theorem wafelGetPluginDynamic_agree {base : Word} (header : Within footprint base 52)
    (phdrs : Within footprint (wafelGetPluginPhdrs m base)
      (phdrBytes * wafelGetPluginNumPhdrs m base)) :
    wafelGetPluginDynamic m' base = wafelGetPluginDynamic m base := by
  simp only [wafelGetPluginDynamic, wafelGetPluginPhdrs_agree alike header,
    wafelGetPluginNumPhdrs_agree alike header, findDynamic_agree alike base _ _ phdrs]

theorem wafelPluginNext_agree {base : Word} (header : Within footprint base 52)
    (next : Within footprint (base + read32 m (base + 24#32) + 0x10#32) 4) :
    wafelPluginNext m' base = wafelPluginNext m base := by
  have entry : read32 m' (base + 24#32) = read32 m (base + 24#32) :=
    alike.field header 24 (by decide)
  rw [wafelPluginNext, entry]
  exact (alike.same next).read32

theorem DynAt.agree {dyn : Word} {ds : List (Word × Word)} (stands : DynAt m dyn ds)
    (within : Within footprint dyn (dynBytes * (ds.length + 1))) : DynAt m' dyn ds := by
  induction stands with
  | null dyn zero =>
      have tag := alike.field within 0 (by decide)
      rw [BitVec.add_zero] at tag
      exact .null dyn (tag.trans zero)
  | entry dyn tag val rest isTag nonzero isVal _ ih =>
      have tagSame := alike.field within 0 (by simp only [dynBytes]; omega)
      have valSame : read32 m' (dyn + 4#32) = read32 m (dyn + 4#32) :=
        alike.field within 4 (by simp only [dynBytes]; omega)
      rw [BitVec.add_zero] at tagSame
      refine .entry dyn tag val rest (tagSame.trans isTag) nonzero (valSame.trans isVal) (ih ?_)
      intro i inside
      rw [ofNat_add_ofNat]
      apply within
      rw [List.length_cons]
      simp only [dynBytes] at inside ⊢
      omega

theorem entry_agree {rel : Word} (within : Within footprint rel relBytes) :
    read32 m' rel = read32 m rel ∧ read32 m' (rel + 4#32) = read32 m (rel + 4#32) := by
  have offset := alike.field within 0 (by decide)
  rw [BitVec.add_zero] at offset
  exact ⟨offset, alike.field within 4 (by decide)⟩

theorem Image.At.agree {im : Image} (imageAt : im.At footprint m) : im.At footprint m' where
  header := imageAt.header
  phdrs := by
    rw [wafelGetPluginPhdrs_agree alike imageAt.header,
      wafelGetPluginNumPhdrs_agree alike imageAt.header]
    exact imageAt.phdrs
  magic := (magic_agree alike imageAt.header).trans imageAt.magic
  dynamic := (wafelGetPluginDynamic_agree alike imageAt.header imageAt.phdrs).trans imageAt.dynamic
  present := imageAt.present
  dynSection := imageAt.dynSection
  stands := DynAt.agree alike imageAt.stands imageAt.dynSection
  symtab := imageAt.symtab
  strtab := imageAt.strtab
  describes := imageAt.describes
  joined := imageAt.joined
  count := imageAt.count
  syms i inside := SymAt.agree alike (imageAt.syms i inside)
  null := imageAt.null
  undefined := imageAt.undefined
  placed := imageAt.placed
  relWithin := imageAt.relWithin
  relSymbol rel member := by
    have info : read32 m' (rel + 4#32) = read32 m (rel + 4#32) :=
      alike.field (imageAt.relWithin rel member) 4 (by decide)
    rw [info]
    exact imageAt.relSymbol rel member

end Frame

section Resolve

variable {footprint : Word → Prop} {m : Mem} {im : Image}

theorem entry_symtab (base : Word) (s : Scan) (tag val : Word) :
    (s.entry base tag val).symtab = if tag = dtSymtab then base + val else s.symtab := by
  unfold Scan.entry
  by_cases symtab : tag = dtSymtab
  · rw [if_pos symtab, if_pos symtab]
  · rw [if_neg symtab, if_neg symtab]
    split
    · rfl
    · split
      · rfl
      · split <;> rfl

theorem entry_strtab (base : Word) (s : Scan) (tag val : Word) :
    (s.entry base tag val).strtab = if tag = dtStrtab then base + val else s.strtab := by
  unfold Scan.entry
  by_cases symtab : tag = dtSymtab
  · subst symtab
    rfl
  · rw [if_neg symtab]
    split
    · rfl
    · split
      · rfl
      · split <;> rfl

theorem folded_symtab (base : Word) (ds : List (Word × Word)) (s : Scan) :
    (folded base ds s).symtab = match (values ds dtSymtab).getLast? with
      | some ptr => base + ptr
      | none => s.symtab := by
  unfold folded
  exact foldl_last _ Scan.symtab (base + ·) dtSymtab
    (fun s d => entry_symtab base s d.1 d.2) ds s

theorem folded_strtab (base : Word) (ds : List (Word × Word)) (s : Scan) :
    (folded base ds s).strtab = match (values ds dtStrtab).getLast? with
      | some ptr => base + ptr
      | none => s.strtab := by
  unfold folded
  exact foldl_last _ Scan.strtab (base + ·) dtStrtab
    (fun s d => entry_strtab base s d.1 d.2) ds s

theorem Image.At.symbol (imageAt : im.At footprint m) {rel : Word} (listed : rel ∈ im.rels) :
    ∃ s, im.syms[symIdx m rel]? = some s :=
  ⟨_, List.getElem?_eq_getElem (imageAt.relSymbol rel listed)⟩

theorem Image.At.scan (imageAt : im.At footprint m) :
    (scanDynamic m im.base im.dyn).symtab = im.symtab ∧
      (scanDynamic m im.base im.dyn).strtab = im.strtab := by
  have bound := imageAt.stands.length_lt
  have scanned : scanDynamic m im.base im.dyn = folded im.base im.ds ⟨0#32, 0#32, 0#32, 0#32⟩ :=
    scan_eq im.base im.dyn im.ds imageAt.stands (2 ^ 32) (by omega) _
  obtain ⟨ptr, listed, place⟩ := imageAt.symtab
  obtain ⟨ptr', listed', place'⟩ := imageAt.strtab
  rw [scanned, folded_symtab, folded_strtab, listed, listed']
  exact ⟨place, place'⟩

/-- The search goes through the rest of the symbol table. -/
theorem findValue_eq {name : Word} {text : List Byte} (named : Str m name text)
    (imageAt : im.At footprint m) (remaining i : Nat) (rest : i + remaining = im.syms.length) :
    findValue m im.base im.symtab im.strtab name remaining i =
      (((im.syms.drop i).find? fun s => s.name = text ∧ s.value ≠ 0#32).map
        fun s => im.base + s.value).getD 0#32 := by
  induction remaining generalizing i with
  | zero =>
      rw [List.drop_eq_nil_of_le (by omega)]
      rfl
  | succ remaining ih =>
      have inside : i < im.syms.length := by omega
      have symAt := imageAt.syms i inside
      rw [List.drop_eq_getElem_cons inside, List.find?_cons]
      simp only [findValue, symAt.nameOffset, symAt.value, strncmp_str_iff symAt.name named,
        ih (i + 1) (by omega)]
      by_cases found : im.syms[i].name = text ∧ im.syms[i].value ≠ 0#32
      · simp [found]
      · simp [found]

theorem wafelGetSymbolAddr_eq {name : Word} {text : List Byte} (named : Str m name text)
    (imageAt : im.At footprint m) :
    wafelGetSymbolAddr m im.base name = (im.provides text).getD 0#32 := by
  have count : (im.strtab - im.symtab).toNat / symBytes = im.syms.length := by
    rw [imageAt.count, Nat.mul_div_cancel_left _ (by decide)]
  simp only [wafelGetSymbolAddr, imageAt.dynamic, imageAt.scan.1, imageAt.scan.2, count]
  rw [findValue_eq named imageAt _ 0 (Nat.zero_add _)]
  rfl

theorem Image.provides_nonzero (imageAt : im.At footprint m) {text : List Byte} {address : Word}
    (found : im.provides text = some address) : address ≠ 0#32 := by
  obtain ⟨s, first, rfl⟩ := Option.map_eq_some_iff.mp found
  have matched := List.find?_some first
  rw [decide_eq_true_eq] at matched
  exact imageAt.placed s (List.mem_of_find?_eq_some first) matched.2

theorem wafelFindSymbol_eq {name : Word} {text : List Byte} (named : Str m name text)
    (ims : List Image) (imagesAt : ∀ im ∈ ims, im.At footprint m) :
    wafelFindSymbol m name (ims.map Image.base) = provided ims text := by
  induction ims with
  | nil => rfl
  | cons im rest ih =>
      have imageAt := imagesAt im List.mem_cons_self
      have later := ih fun im' member => imagesAt im' (List.mem_cons_of_mem _ member)
      rw [List.map_cons, wafelFindSymbol, wafelGetSymbolAddr_eq named imageAt, later]
      unfold provided
      rw [List.findSome?_cons]
      cases found : im.provides text with
      | none => rfl
      | some address =>
          have nonzero := Image.provides_nonzero imageAt found
          simp only [Option.getD_some, if_pos nonzero]

/-- The value that linking stores, from the tables alone. -/
def storedValue (ims : List Image) (im : Image) (i : Nat) (s : Sym) : Word :=
  if s.shndx = 0#16 ∧ i ≠ 0 then provided ims s.name
  else if s.value = 0#32 then 0#32
  else im.base + s.value

theorem symVal_eq (imageAt : im.At footprint m) (ims : List Image)
    (imagesAt : ∀ im ∈ ims, im.At footprint m) (rel : Word) (s : Sym)
    (symbol : im.syms[symIdx m rel]? = some s) :
    symVal m (ims.map Image.base) im.base im.symtab im.strtab rel =
      storedValue ims im (symIdx m rel) s := by
  obtain ⟨inside, rfl⟩ := List.getElem?_eq_some_iff.mp symbol
  have symAt := imageAt.syms (symIdx m rel) inside
  unfold symIdx at symAt inside ⊢
  simp only [symVal, symAt.nameOffset, symAt.value, symAt.shndx,
    wafelFindSymbol_eq symAt.name ims imagesAt, storedValue]

theorem find_of_implies {α : Type} {p q : α → Bool} {xs : List α} {x : α}
    (found : xs.find? p = some x) (implies : ∀ y ∈ xs, q y = true → p y = true)
    (holds : q x = true) : xs.find? q = some x := by
  obtain ⟨_, front, back, rfl, before⟩ := List.find?_eq_some_iff_append.mp found
  refine List.find?_eq_some_iff_append.mpr ⟨holds, front, back, rfl, ?_⟩
  intro y member
  have failed := before y member
  have implied := implies y (List.mem_append_left _ member)
  grind

/-- A definition with a value that is not 0 is the one that is found. -/
theorem provided_of_definition (ims : List Image) (name : List Byte)
    (undefined : ∀ im ∈ ims, ∀ s ∈ im.syms, s.shndx = 0#16 → s.value = 0#32) :
    match definition ims name with
    | none => provided ims name = 0#32
    | some (base, d) => d.value ≠ 0#32 → provided ims name = base + d.value := by
  induction ims with
  | nil => rfl
  | cons im rest ih =>
      have later := ih fun im' member => undefined im' (List.mem_cons_of_mem _ member)
      have defined : ∀ s ∈ im.syms, decide (s.name = name ∧ s.value ≠ 0#32) = true →
          decide (s.name = name ∧ s.shndx ≠ 0#16) = true := by
        intro s member matched
        rw [decide_eq_true_eq] at matched ⊢
        exact ⟨matched.1, fun absent =>
          matched.2 (undefined im List.mem_cons_self s member absent)⟩
      unfold definition provided at later ⊢
      rw [List.findSome?_cons, List.findSome?_cons]
      cases found : im.defines name with
      | none =>
          have unprovided : im.provides name = none := by
            unfold Image.provides
            rw [Option.map_eq_none_iff, List.find?_eq_none]
            intro s member matched
            exact List.find?_eq_none.mp found s member (defined s member matched)
          rw [unprovided]
          exact later
      | some d =>
          intro nonzero
          have first : im.syms.find? (fun s => s.name = name ∧ s.value ≠ 0#32) = some d := by
            apply find_of_implies found defined
            have matched := List.find?_some found
            rw [decide_eq_true_eq] at matched ⊢
            exact ⟨matched.1, nonzero⟩
          unfold Image.provides
          rw [first]
          rfl

/-- The stored value is the specified one exactly when the relocation fits. -/
theorem storedValue_iff (imageAt : im.At footprint m) (ims : List Image)
    (imagesAt : ∀ im ∈ ims, im.At footprint m) (i : Nat) (s : Sym) (symbol : im.syms[i]? = some s)
    (addend : Word) :
    storedValue ims im i s = address (target ims im i s) + addend ↔
      match target ims im i s with
      | none => addend = 0#32
      | some (base, d) =>
          if d.value ≠ 0#32 then addend = 0#32
          else (if s.shndx ≠ 0#16 then 0#32 else provided ims s.name) = base + addend := by
  have same : ∀ x : Word, x = x + addend ↔ addend = 0#32 := by
    intro x
    constructor
    · intro equal
      grind
    · rintro rfl
      rw [BitVec.add_zero]
  by_cases defined : s.shndx ≠ 0#16
  · simp only [target, storedValue, if_pos defined, address]
    rw [if_neg (fun both => defined both.1)]
    by_cases zero : s.value = 0#32
    · simp [zero]
    · simp [zero, same]
  · rw [ne_eq, Decidable.not_not] at defined
    by_cases first : i = 0
    · subst first
      have null := imageAt.null s (by rwa [List.head?_eq_getElem?])
      simp [target, storedValue, address, defined, null]
      grind
    · have resolved := provided_of_definition ims s.name fun im' member =>
        (imagesAt im' member).undefined
      simp only [target, storedValue, defined, ne_eq, not_true_eq_false, if_false, first,
        not_false_eq_true, and_self, if_true]
      cases found : definition ims s.name with
      | none =>
          rw [found] at resolved
          simp only [address, resolved, same]
      | some bd =>
          obtain ⟨base, d⟩ := bd
          rw [found] at resolved
          by_cases zero : d.value = 0#32
          · simp [address, zero]
          · simp [address, zero, resolved zero, same]

end Resolve

/-- The relocations of one plugin, in the order in which they are linked. -/
def Image.visited (im : Image) : List Word := Dynamic.visited im.base im.ds im.rel im.jmprel

theorem Image.At.visited_mem {footprint : Word → Prop} {m : Mem} {im : Image}
    (imageAt : im.At footprint m) (rel : Word) : rel ∈ im.visited ↔ rel ∈ im.rels :=
  (imageAt.describes.visited_perm_iff.mpr imageAt.joined).mem_iff

def linkImage (elfs : List Word) (m : Mem) (im : Image) : Mem :=
  im.visited.foldl (linkOne elfs im.base im.symtab im.strtab) m

theorem linkFrom_fold (elfs : List Word) (base symtab strtab : Word) (count : Nat) (rel : Word)
    (p : Mem × List Word) :
    (linkFrom elfs base symtab strtab count rel p).1 =
      (relsFrom rel count).foldl (linkOne elfs base symtab strtab) p.1 := by
  induction count generalizing rel p with
  | zero => rfl
  | succ count ih => rw [linkFrom, ih, relsFrom_succ, List.foldl_cons]

theorem wafelLinkPlugin_foldl (m : Mem) (elfs : List Word) {base dyn : Word}
    {ds : List (Word × Word)} {rel jmprel : Option Table} (describes : Describes base ds rel jmprel)
    (isDyn : wafelGetPluginDynamic m base = dyn) (present : dyn ≠ 0#32) (stands : DynAt m dyn ds) :
    (wafelLinkPlugin m elfs base).1 =
      (visited base ds rel jmprel).foldl (linkOne elfs base (scanDynamic m base dyn).symtab
        (scanDynamic m base dyn).strtab) m := by
  rw [← wafelLinkPlugin_visited m elfs describes isDyn present stands]
  simp only [wafelLinkPlugin, isDyn, if_neg present]
  by_cases none : (scanDynamic m base dyn).rel = 0#32
  · rw [if_pos none]
    rfl
  · rw [if_neg none, linkFrom_fold, linkFrom_visited, List.nil_append]

theorem wafelLinkPlugin_fold {footprint : Word → Prop} {m : Mem} {im : Image}
    (imageAt : im.At footprint m) (elfs : List Word) :
    (wafelLinkPlugin m elfs im.base).1 = linkImage elfs m im := by
  rw [wafelLinkPlugin_foldl m elfs imageAt.describes imageAt.dynamic imageAt.present imageAt.stands,
    imageAt.scan.1, imageAt.scan.2]
  rfl

section Chain

variable {footprint : Word → Prop} {m : Mem}

theorem registerPlugins_eq (nodes : List Node) (fuel : Nat) (enough : nodes.length < fuel)
    (base : Word) (chain : ChainAt footprint m base nodes) (elfs : List Word) :
    registerPlugins m fuel base elfs = elfs ++ (images nodes).map Image.base := by
  induction nodes generalizing fuel base elfs with
  | nil =>
      obtain ⟨fuel, rfl⟩ := Nat.exists_eq_add_of_le' (show 1 ≤ fuel by omega)
      have last : wafelPluginNext m base = 0#32 := chain
      simp [registerPlugins, last, images]
  | cons node rest ih =>
      rw [List.length_cons] at enough
      obtain ⟨fuel, rfl⟩ := Nat.exists_eq_add_of_le' (show 1 ≤ fuel by omega)
      obtain ⟨next, nonzero, nodeAt, chain⟩ := chain
      simp only [registerPlugins, next, if_neg nonzero, ih fuel (by omega) node.base chain]
      cases node with
      | plugin im =>
          have magic := (nodeAt.plugin im rfl).magic
          simp [Node.base, magic, images, Node.image]
      | data base =>
          have magic := nodeAt.data rfl
          rw [if_neg magic]
          rfl

/-- The slots that are written are not read. -/
def Outside (footprint : Word → Prop) (m : Mem) (im : Image) : Prop :=
  ∀ rel ∈ im.rels, Linked m rel → ∀ i < 4, ¬ footprint (slot m im rel + BitVec.ofNat 32 i)

theorem write_agree {m' : Mem} (alike : Agree footprint m m') (a w : Word)
    (outside : ∀ i < 4, ¬ footprint (a + BitVec.ofNat 32 i)) :
    Agree footprint m (write32 m' a w) := by
  intro x member
  rw [← alike x member]
  apply store_outside
  apply Nat.le_of_not_lt
  intro inside
  apply outside _ inside
  rwa [BitVec.ofNat_toNat, BitVec.setWidth_eq, show a + (x - a) = x by grind]

theorem linkOne_linked (elfs : List Word) (base symtab strtab : Word) (m : Mem) (rel : Word) :
    linkOne elfs base symtab strtab m rel =
      if Linked m rel then write32 m (base + read32 m rel) (symVal m elfs base symtab strtab rel)
      else m := by
  unfold linkOne
  by_cases linked : Linked m rel
  · have kind : relType (read32 m (rel + 4#32)) = rArmGlobDat ∨
        relType (read32 m (rel + 4#32)) = rArmJumpSlot ∨
        relType (read32 m (rel + 4#32)) = rArmAbs32 := linked
    have other : relType (read32 m (rel + 4#32)) ≠ rArmRelative := by
      rcases kind with type | type | type
      · rw [type]
        decide
      · rw [type]
        decide
      · rw [type]
        decide
    simp only [if_neg other, if_pos kind, if_pos linked]
  · have kind : ¬ (relType (read32 m (rel + 4#32)) = rArmGlobDat ∨
        relType (read32 m (rel + 4#32)) = rArmJumpSlot ∨
        relType (read32 m (rel + 4#32)) = rArmAbs32) := linked
    simp only [if_neg linked, if_neg kind, ite_self]

/-- One relocation, in a memory that is still as it was where linking reads. -/
theorem linkOne_eq {m' : Mem} {im : Image} (alike : Agree footprint m m')
    (imageAt : im.At footprint m) (ims : List Image) (imagesAt : ∀ im ∈ ims, im.At footprint m)
    (rel : Word) (listed : rel ∈ im.rels) (s : Sym) (symbol : im.syms[symIdx m rel]? = some s) :
    linkOne (ims.map Image.base) im.base im.symtab im.strtab m' rel =
      if Linked m rel then write32 m' (slot m im rel) (storedValue ims im (symIdx m rel) s)
      else m' := by
  obtain ⟨offset, info⟩ := entry_agree alike (imageAt.relWithin rel listed)
  have index : symIdx m' rel = symIdx m rel := by
    rw [symIdx, info, symIdx]
  have type : Linked m' rel ↔ Linked m rel := by
    rw [Linked, typeAt, info, Linked, typeAt]
  have value := symVal_eq (imageAt.agree alike) ims (fun im' member =>
    (imagesAt im' member).agree alike) rel s (by rwa [index])
  rw [linkOne_linked, value, index, offset, slot]
  simp only [type]

/-- The images that are linked leave what is read alone, and each slot gets its value. -/
theorem linkOne_agree {m' : Mem} {im : Image} (alike : Agree footprint m m')
    (imageAt : im.At footprint m) (ims : List Image) (imagesAt : ∀ im ∈ ims, im.At footprint m)
    (outside : Outside footprint m im) (rel : Word) (listed : rel ∈ im.rels) :
    Agree footprint m (linkOne (ims.map Image.base) im.base im.symtab im.strtab m' rel) := by
  obtain ⟨s, symbol⟩ := imageAt.symbol listed
  rw [linkOne_eq alike imageAt ims imagesAt rel listed _ symbol]
  split
  · rename_i linked
    exact write_agree alike _ _ (outside rel listed linked)
  · exact alike

/-- A slot with the value `w` keeps it, or gets it. -/
theorem linkOne_slot {m' : Mem} {im im' : Image} (alike : Agree footprint m m')
    (imageAt : im.At footprint m) (ims : List Image) (imagesAt : ∀ im ∈ ims, im.At footprint m)
    (rel rel' : Word) (listed : rel ∈ im.rels) (s' : Sym)
    (symbol' : im'.syms[symIdx m rel']? = some s') (linked' : Linked m rel')
    (apart : Linked m rel → im ≠ im' ∨ rel ≠ rel' → Apart (slot m im' rel') 4 (slot m im rel) 4)
    (before : (im = im' ∧ rel = rel') ∨
      read32 m' (slot m im' rel') = storedValue ims im' (symIdx m rel') s') :
    read32 (linkOne (ims.map Image.base) im.base im.symtab im.strtab m' rel) (slot m im' rel') =
      storedValue ims im' (symIdx m rel') s' := by
  obtain ⟨s, symbol⟩ := imageAt.symbol listed
  rw [linkOne_eq alike imageAt ims imagesAt rel listed _ symbol]
  by_cases same : im = im' ∧ rel = rel'
  · obtain ⟨rfl, rfl⟩ := same
    rw [if_pos linked', read32_write32]
    rw [Option.some.inj (symbol.symm.trans symbol')]
  · have value := before.resolve_left same
    split
    · rename_i linked
      rw [read32_write32_apart _ _ _ _ (apart linked (by grind)), value]
    · exact value

/-- All relocations of one plugin. -/
theorem linkImage_spec {m' : Mem} {im : Image} (alike : Agree footprint m m')
    (imageAt : im.At footprint m) (ims : List Image) (imagesAt : ∀ im ∈ ims, im.At footprint m)
    (outside : Outside footprint m im) (rels : List Word) (listed : ∀ rel ∈ rels, rel ∈ im.rels) :
    Agree footprint m (rels.foldl (linkOne (ims.map Image.base) im.base im.symtab im.strtab) m') ∧
      ∀ im' rel' s', im'.syms[symIdx m rel']? = some s' → Linked m rel' →
        (∀ rel ∈ im.rels, Linked m rel → im ≠ im' ∨ rel ≠ rel' →
          Apart (slot m im' rel') 4 (slot m im rel) 4) →
        (im = im' ∧ rel' ∈ rels) ∨
          read32 m' (slot m im' rel') = storedValue ims im' (symIdx m rel') s' →
        read32 (rels.foldl (linkOne (ims.map Image.base) im.base im.symtab im.strtab) m')
            (slot m im' rel') = storedValue ims im' (symIdx m rel') s' := by
  induction rels generalizing m' with
  | nil =>
      refine ⟨alike, ?_⟩
      intro im' rel' s' _ _ _ before
      rcases before with ⟨_, member⟩ | value
      · exact absurd member List.not_mem_nil
      · exact value
  | cons rel rest ih =>
      have member := listed rel List.mem_cons_self
      have next := linkOne_agree alike imageAt ims imagesAt outside rel member
      obtain ⟨final, slots⟩ := ih next fun rel' later => listed rel' (List.mem_cons_of_mem _ later)
      refine ⟨final, ?_⟩
      intro im' rel' s' symbol linked apart before
      apply slots im' rel' s' symbol linked apart
      by_cases later : im = im' ∧ rel' ∈ rest
      · exact .inl later
      · right
        apply linkOne_slot alike imageAt ims imagesAt rel rel' member s' symbol linked
          (apart rel member)
        rcases before with ⟨same, inside⟩ | value
        · rcases List.mem_cons.mp inside with rfl | inside
          · exact .inl ⟨same, rfl⟩
          · exact absurd ⟨same, inside⟩ later
        · exact .inr value

/-- The second loop, in a memory that is still as it was where linking reads. -/
theorem linkPlugins_spec {m' : Mem} (alike : Agree footprint m m') (ims : List Image)
    (imagesAt : ∀ im ∈ ims, im.At footprint m) (nodes : List Node) (fuel : Nat)
    (enough : nodes.length < fuel) (node : Node) (nodeAt : node.At footprint m)
    (chain : ChainAt footprint m node.base nodes)
    (outside : ∀ im ∈ images nodes, Outside footprint m im) (im' : Image) (rel' : Word) (s' : Sym)
    (symbol : im'.syms[symIdx m rel']? = some s') (linked : Linked m rel')
    (apart : ∀ im ∈ images nodes, ∀ rel ∈ im.rels, Linked m rel → im ≠ im' ∨ rel ≠ rel' →
      Apart (slot m im' rel') 4 (slot m im rel) 4)
    (before : (im' ∈ images nodes ∧ rel' ∈ im'.rels) ∨
      read32 m' (slot m im' rel') = storedValue ims im' (symIdx m rel') s') :
    read32 (linkPlugins (ims.map Image.base) fuel node.base m') (slot m im' rel') =
      storedValue ims im' (symIdx m rel') s' := by
  induction nodes generalizing m' fuel node with
  | nil =>
      obtain ⟨fuel, rfl⟩ := Nat.exists_eq_add_of_le' (show 1 ≤ fuel by omega)
      have last : wafelPluginNext m node.base = 0#32 := chain
      have next := wafelPluginNext_agree alike nodeAt.header nodeAt.next
      simp only [linkPlugins, next, last, if_true]
      rcases before with ⟨member, _⟩ | value
      · exact absurd member List.not_mem_nil
      · exact value
  | cons following rest ih =>
      rw [List.length_cons] at enough
      obtain ⟨fuel, rfl⟩ := Nat.exists_eq_add_of_le' (show 1 ≤ fuel by omega)
      obtain ⟨isNext, nonzero, followingAt, chain⟩ := chain
      have next := wafelPluginNext_agree alike nodeAt.header nodeAt.next
      have magic := magic_agree alike followingAt.header
      simp only [linkPlugins, next, isNext, if_neg nonzero, magic]
      cases following with
      | data base =>
          rw [if_neg (followingAt.data rfl)]
          exact ih alike fuel (by omega) _ followingAt chain outside apart before
      | plugin im =>
          have imageAt := followingAt.plugin im rfl
          have member : im ∈ images (.plugin im :: rest) := by simp [images, Node.image]
          have rests : ∀ other ∈ images rest, other ∈ images (.plugin im :: rest) := by
            intro other inside
            simp only [images, List.filterMap_cons, Node.image]
            exact List.mem_cons_of_mem _ inside
          have linkedPlugin := wafelLinkPlugin_fold (imageAt.agree alike) (ims.map Image.base)
          obtain ⟨alike', slots⟩ := linkImage_spec alike imageAt ims imagesAt (outside im member)
            im.visited fun rel inside => (imageAt.visited_mem rel).mp inside
          have value := slots im' rel' s' symbol linked (apart im member)
          rw [Node.base, if_pos imageAt.magic, linkedPlugin]
          apply ih alike' fuel (by omega) (.plugin im) followingAt chain
            (fun other inside => outside other (rests other inside))
            (fun other inside => apart other (rests other inside))
          by_cases later : im' ∈ images rest ∧ rel' ∈ im'.rels
          · exact .inl later
          · right
            apply value
            rcases before with ⟨inside, listed⟩ | value
            · left
              simp only [images, List.filterMap_cons, Node.image, List.mem_cons] at inside
              rcases inside with rfl | inside
              · exact ⟨rfl, (imageAt.visited_mem rel').mpr listed⟩
              · exact absurd ⟨inside, listed⟩ later
            · exact .inr value

theorem ChainAt.images_at (nodes : List Node) (base : Word) (chain : ChainAt footprint m base nodes)
    (im : Image) (member : im ∈ images nodes) : im.At footprint m := by
  induction nodes generalizing base with
  | nil => exact absurd member List.not_mem_nil
  | cons node rest ih =>
      obtain ⟨_, _, nodeAt, chain⟩ := chain
      cases node with
      | data base => exact ih _ chain member
      | plugin im' =>
          simp only [images, List.filterMap_cons, Node.image, List.mem_cons] at member
          rcases member with rfl | later
          · exact nodeAt.plugin im rfl
          · exact ih _ chain later

/-- Every slot has the value that its relocation type asks for exactly when every relocation
fits. -/
theorem initLinking_slots_iff (footprint : Word → Prop) (m : Mem) (core : Image)
    (nodes : List Node) (fuel : Nat) (enough : nodes.length < fuel)
    (coreAt : (Node.plugin core).At footprint m) (chain : ChainAt footprint m core.base nodes)
    (outside : ∀ im ∈ images nodes, Outside footprint m im)
    (apart : ∀ im ∈ images nodes, ∀ rel ∈ im.rels, Linked m rel → ∀ im' ∈ images nodes,
      ∀ rel' ∈ im'.rels, Linked m rel' → im ≠ im' ∨ rel ≠ rel' →
      Apart (slot m im' rel') 4 (slot m im rel) 4) :
    (∀ im ∈ images nodes, ∀ rel ∈ im.rels, Linked m rel →
      some (read32 (initLinking fuel m core.base) (slot m im rel)) =
        linkedValue m im rel (core :: images nodes)) ↔
    ∀ im ∈ images nodes, ∀ rel ∈ im.rels, Linked m rel → Fits m im rel (core :: images nodes) := by
  have imagesAt : ∀ im ∈ core :: images nodes, im.At footprint m := by
    intro im member
    rcases List.mem_cons.mp member with rfl | member
    · exact coreAt.plugin im rfl
    · exact ChainAt.images_at nodes core.base chain im member
  have registered : registerPlugins m fuel core.base [core.base] =
      (core :: images nodes).map Image.base :=
    registerPlugins_eq nodes fuel enough core.base chain [core.base]
  have each : ∀ im ∈ images nodes, ∀ rel ∈ im.rels, Linked m rel →
      (some (read32 (initLinking fuel m core.base) (slot m im rel)) =
          linkedValue m im rel (core :: images nodes) ↔
        Fits m im rel (core :: images nodes)) := by
    intro im member rel listed linked
    have imageAt := imagesAt im (List.mem_cons_of_mem _ member)
    obtain ⟨s, symbol⟩ := imageAt.symbol listed
    have value := linkPlugins_spec (fun _ _ => rfl) (core :: images nodes) imagesAt nodes fuel
      enough (.plugin core) coreAt chain outside im rel s symbol linked
      (fun im' member' rel' listed' linked' => apart im' member' rel' listed' linked' im member rel
        listed linked) (.inl ⟨member, listed⟩)
    unfold initLinking linkedValue Fits
    rw [Node.base] at value
    rw [registered, value, symbol, Option.map_some, Option.some.injEq,
      storedValue_iff imageAt (core :: images nodes) imagesAt _ _ symbol]
    simp
  constructor
  · intro slots im member rel listed linked
    exact (each im member rel listed linked).mp (slots im member rel listed linked)
  · intro fit im member rel listed linked
    exact (each im member rel listed linked).mpr (fit im member rel listed linked)

end Chain

/-- An ELF file at `base` with its dynamic section at 0x100, its symbols at 0x200, its strings
behind these, and a next plugin. -/
def imageSample (m : Mem) (base next : Word) (ds syms : List Word) (strings : List Byte) : Mem :=
  let m := writeWords m base [ipxElfMagic]
  let m := writeWords m (base + 0x18#32) [0x80#32, 0x34#32]
  let m := writeWords m (base + 0x2C#32) [0x00010000#32]
  let m := writeWords m (base + 0x34#32) [ptDynamic, 0#32, 0x100#32]
  let m := writeWords m (base + 0x90#32) [next]
  let m := writeWords m (base + 0x100#32) ds
  let m := writeWords m (base + 0x200#32) syms
  store m (base + 0x220#32) strings

/-- `f` is defined by the first image and undefined in the second one. -/
def symSample (value : Word) (shndx : Half) : List Sym :=
  [⟨0#32, 0#32, 0#16, []⟩, ⟨1#32, value, shndx, chars "f".toList⟩]

def coreImage : Image where
  base := 0x27B00000#32
  dyn := 0x27B00100#32
  ds := [(dtStrtab, 0x220#32), (dtSymtab, 0x200#32)]
  symtab := 0x27B00200#32
  strtab := 0x27B00220#32
  syms := symSample 0x500#32 1#16
  rel := none
  jmprel := none

def pluginImage : Image where
  base := 0x27C00000#32
  dyn := 0x27C00100#32
  ds := [(dtStrtab, 0x220#32), (dtSymtab, 0x200#32), (dtRel, 0x300#32), (dtRelsz, 8#32)]
  symtab := 0x27C00200#32
  strtab := 0x27C00220#32
  syms := symSample 0#32 0#16
  rel := some ⟨0x300#32, 8#32⟩
  jmprel := none

/-- The plugin has one `R_ARM_ABS32` for `f`, with the addend 4 in its slot. -/
def chainSample : Mem :=
  let m := imageSample (fun _ => 0#8) 0x27B00000#32 0x27C00000#32 (dynWords coreImage.ds)
    [0#32, 0#32, 0#32, 0#32, 1#32, 0x500#32, 0#32, 1#32] [0#8, 0x66#8, 0#8]
  let m := imageSample m 0x27C00000#32 0#32 (dynWords pluginImage.ds)
    [0#32, 0#32, 0#32, 0#32, 1#32, 0#32, 0#32, 0#32] [0#8, 0x66#8, 0#8]
  writeWords (writeWords m 0x27C00300#32 [0x600#32, 0x102#32]) 0x27C00600#32 [4#32]

/-- All but the slot. -/
def footprintSample (x : Word) : Prop := ∀ i < 4, x ≠ 0x27C00600#32 + BitVec.ofNat 32 i

theorem within_sample {a : Word} {n : Nat} (up : n ≤ (0x27C00600#32 - a).toNat)
    (down : 4 ≤ (a - 0x27C00600#32).toNat) : Within footprintSample a n := by
  intro i inside j inside'
  exact apart_of_distance up down i inside j inside'

theorem syms_sample {strtab symtab value : Word} {shndx : Half}
    (null : SymAt footprintSample chainSample strtab (symAddress symtab 0) ⟨0#32, 0#32, 0#16, []⟩)
    (f : SymAt footprintSample chainSample strtab (symAddress symtab 1)
      ⟨1#32, value, shndx, chars "f".toList⟩)
    (i : Nat) (inside : i < (symSample value shndx).length) :
    SymAt footprintSample chainSample strtab (symAddress symtab i) (symSample value shndx)[i] :=
  match i, inside with
  | 0, _ => null
  | 1, _ => f

theorem coreImage_at : coreImage.At footprintSample chainSample where
  header := within_sample (by decide) (by decide)
  phdrs := within_sample (by decide) (by decide)
  magic := by decide
  dynamic := by decide
  present := by decide
  dynSection := within_sample (by decide) (by decide)
  stands := .entry _ _ _ _ (by decide) (by decide) (by decide)
    (.entry _ _ _ _ (by decide) (by decide) (by decide)
      (.null _ (by decide)))
  symtab := ⟨0x200#32, by decide, by decide⟩
  strtab := ⟨0x220#32, by decide, by decide⟩
  describes := ⟨by decide, by decide, by decide, by decide, by simp [coreImage],
    by simp [coreImage]⟩
  joined := by simp [Joined, coreImage]
  count := by decide
  syms := syms_sample
    ⟨within_sample (by decide) (by decide), within_sample (by decide) (by decide),
      by decide, by decide, by decide,
      ⟨by decide, by decide, by decide, by decide⟩⟩
    ⟨within_sample (by decide) (by decide), within_sample (by decide) (by decide),
      by decide, by decide, by decide,
      ⟨by decide, by decide, by decide, by decide⟩⟩
  null := by decide
  undefined := by decide
  placed := by decide
  relWithin rel member := absurd member List.not_mem_nil
  relSymbol rel member := absurd member List.not_mem_nil

theorem pluginImage_rels : pluginImage.rels = [0x27C00300#32] := by decide

theorem pluginImage_at : pluginImage.At footprintSample chainSample where
  header := within_sample (by decide) (by decide)
  phdrs := within_sample (by decide) (by decide)
  magic := by decide
  dynamic := by decide
  present := by decide
  dynSection := within_sample (by decide) (by decide)
  stands := .entry _ _ _ _ (by decide) (by decide) (by decide)
    (.entry _ _ _ _ (by decide) (by decide) (by decide)
      (.entry _ _ _ _ (by decide) (by decide) (by decide)
        (.entry _ _ _ _ (by decide) (by decide) (by decide)
          (.null _ (by decide)))))
  symtab := ⟨0x200#32, by decide, by decide⟩
  strtab := ⟨0x220#32, by decide, by decide⟩
  describes := ⟨by decide, by decide, by decide, by decide, by simp [pluginImage],
    by simp [pluginImage]⟩
  joined := by simp [Joined, pluginImage]
  count := by decide
  syms := syms_sample
    ⟨within_sample (by decide) (by decide), within_sample (by decide) (by decide),
      by decide, by decide, by decide,
      ⟨by decide, by decide, by decide, by decide⟩⟩
    ⟨within_sample (by decide) (by decide), within_sample (by decide) (by decide),
      by decide, by decide, by decide,
      ⟨by decide, by decide, by decide, by decide⟩⟩
  null := by decide
  undefined := by decide
  placed := by decide
  relWithin rel member := by
    rw [pluginImage_rels, List.mem_singleton] at member
    subst member
    exact within_sample (by decide) (by decide)
  relSymbol rel member := by
    rw [pluginImage_rels, List.mem_singleton] at member
    subst member
    decide

theorem pluginNode_at : (Node.plugin pluginImage).At footprintSample chainSample where
  header := within_sample (by decide) (by decide)
  next := within_sample (by decide) (by decide)
  plugin im member := by
    obtain rfl : pluginImage = im := Option.some.inj member
    exact pluginImage_at
  data absent := absurd absent (by simp [Node.image])

theorem coreNode_at : (Node.plugin coreImage).At footprintSample chainSample where
  header := within_sample (by decide) (by decide)
  next := within_sample (by decide) (by decide)
  plugin im member := by
    obtain rfl : coreImage = im := Option.some.inj member
    exact coreImage_at
  data absent := absurd absent (by simp [Node.image])

theorem pluginImage_slot : slot chainSample pluginImage 0x27C00300#32 = 0x27C00600#32 := by
  decide

theorem pluginImage_last : wafelPluginNext chainSample pluginImage.base = 0#32 := by
  decide

theorem initLinking_slots_iff_sample :
    (∀ im ∈ images [.plugin pluginImage], ∀ rel ∈ im.rels, Linked chainSample rel →
      some (read32 (initLinking 2 chainSample coreImage.base) (slot chainSample im rel)) =
        linkedValue chainSample im rel (coreImage :: images [.plugin pluginImage])) ↔
    ∀ im ∈ images [.plugin pluginImage], ∀ rel ∈ im.rels, Linked chainSample rel →
      Fits chainSample im rel (coreImage :: images [.plugin pluginImage]) := by
  refine initLinking_slots_iff footprintSample chainSample coreImage [.plugin pluginImage] 2
    (by decide) coreNode_at ⟨by decide, by decide, pluginNode_at, pluginImage_last⟩ ?_ ?_
  · intro im member rel listed _ i inside outside
    obtain rfl : im = pluginImage := List.mem_singleton.mp member
    rw [pluginImage_rels, List.mem_singleton] at listed
    subst listed
    rw [pluginImage_slot] at outside
    exact outside i inside rfl
  · intro im member rel listed _ im' member' rel' listed' _ distinct
    obtain rfl : im = pluginImage := List.mem_singleton.mp member
    obtain rfl : im' = pluginImage := List.mem_singleton.mp member'
    rw [pluginImage_rels, List.mem_singleton] at listed listed'
    rw [listed, listed'] at distinct
    exact absurd rfl (distinct.resolve_left (fun other => other rfl))

/-- The slot gets the address of `f`, and the addend 4 is lost. -/
theorem initLinking_drops_addend :
    some (read32 (initLinking 2 chainSample coreImage.base)
        (slot chainSample pluginImage 0x27C00300#32)) ≠
      linkedValue chainSample pluginImage 0x27C00300#32 [coreImage, pluginImage] := by
  decide

end Stroopwafel.Dynamic
