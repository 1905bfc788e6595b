import Stroopwafel.DynamicLink

set_option autoImplicit false

namespace Stroopwafel.Dynamic

open Memory CString

section Model

/- `call` is what the routine at an address does to memory. -/
variable (call : Word → Mem → Mem)

/-- The memory in the end, and the addresses that were called. -/
def callPluginEntry (entryName : Word) : Nat → Word → Mem → List Word → Mem × List Word
  | 0, _, m, called => (m, called)
  | fuel + 1, base, m, called =>
      let next := wafelPluginNext m base
      if next = 0#32 then (m, called)
      else if read32 m next ≠ ipxElfMagic then callPluginEntry entryName fuel next m called
      else
        let ep := wafelGetSymbolAddr m next entryName
        if ep = 0#32 then callPluginEntry entryName fuel next m called
        else callPluginEntry entryName fuel next (call ep m) (called ++ [ep])

/-- `patches` is what `kern_main` does between linking the plugins and calling them. -/
def kernMain (patches : Mem → Mem) (kernEntry : Word) (fuel : Nat) (m : Mem)
    (wafelPluginBaseAddr : Word) : Mem × List Word :=
  let m := initLinking fuel m wafelPluginBaseAddr
  callPluginEntry call kernEntry fuel wafelPluginBaseAddr (patches m) []

def mcpMain (mcpEntry : Word) (fuel : Nat) (m : Mem) (wafelPluginBaseAddr : Word) :
    Mem × List Word :=
  callPluginEntry call mcpEntry fuel wafelPluginBaseAddr m []

end Model

/-- The entry points with a name, in the order of the plugins. -/
def entries (text : List Byte) (nodes : List Node) : List Word :=
  (images nodes).filterMap fun im => im.provides text

/-- The routines are called one after the other. -/
def callAll (call : Word → Mem → Mem) (eps : List Word) (m : Mem) : Mem :=
  eps.foldl (fun m ep => call ep m) m

/-- The routines leave what is read alone. -/
def Keeps (footprint : Word → Prop) (m : Mem) (call : Word → Mem → Mem) (eps : List Word) : Prop :=
  ∀ ep ∈ eps, ∀ m', Agree footprint m m' → Agree footprint m (call ep m')

section Calls

variable {footprint : Word → Prop} {m : Mem} {call : Word → Mem → Mem} {name : Word}
  {text : List Byte}

theorem Keeps.callAll {eps : List Word} (keeps : Keeps footprint m call eps) {m' : Mem}
    (alike : Agree footprint m m') : Agree footprint m (callAll call eps m') := by
  induction eps generalizing m' with
  | nil => exact alike
  | cons ep rest ih =>
      have first := keeps ep List.mem_cons_self m' alike
      exact ih (fun ep' member => keeps ep' (List.mem_cons_of_mem _ member)) first

theorem entries_plugin (im : Image) (rest : List Node) :
    entries text (.plugin im :: rest) = (im.provides text).toList ++ entries text rest := by
  simp only [entries, images, List.filterMap_cons, Node.image]
  cases im.provides text <;> rfl

/-- Every plugin with the symbol is called once, in the order of the chain. -/
theorem callPluginEntry_eq (named : Str m name text)
    (placed : Within footprint name (text.length + 1)) (nodes : List Node)
    (keeps : Keeps footprint m call (entries text nodes)) {m' : Mem} (alike : Agree footprint m m')
    (fuel : Nat) (enough : nodes.length < fuel) (node : Node) (nodeAt : node.At footprint m)
    (chain : ChainAt footprint m node.base nodes) (called : List Word) :
    callPluginEntry call name fuel node.base m' called =
      (callAll call (entries text nodes) m', called ++ entries text nodes) := by
  induction nodes generalizing m' fuel node called with
  | nil =>
      obtain ⟨fuel, rfl⟩ := Nat.exists_eq_add_of_le' (show 1 ≤ fuel by omega)
      have last : wafelPluginNext m node.base = 0#32 := chain
      have next := wafelPluginNext_agree alike nodeAt.header nodeAt.next
      simp only [callPluginEntry, next, last, if_true]
      rw [show entries text [] = [] from rfl, List.append_nil]
      rfl
  | cons following rest ih =>
      rw [List.length_cons] at enough
      obtain ⟨fuel, rfl⟩ := Nat.exists_eq_add_of_le' (show 1 ≤ fuel by omega)
      obtain ⟨isNext, nonzero, followingAt, chain⟩ := chain
      have next := wafelPluginNext_agree alike nodeAt.header nodeAt.next
      have magic := magic_agree alike followingAt.header
      simp only [callPluginEntry, next, isNext, if_neg nonzero, magic]
      cases following with
      | data base =>
          rw [if_pos (followingAt.data rfl)]
          exact ih keeps alike fuel (by omega) _ followingAt chain called
      | plugin im =>
          have imageAt := followingAt.plugin im rfl
          have found := wafelGetSymbolAddr_eq (alike.str placed named) (imageAt.agree alike)
          rw [entries_plugin] at keeps ⊢
          have later : Keeps footprint m call (entries text rest) := fun ep member =>
            keeps ep (List.mem_append_right _ member)
          rw [Node.base, if_neg (not_not_intro imageAt.magic), found]
          cases provides : im.provides text with
          | none => exact ih later alike fuel (by omega) _ followingAt chain called
          | some ep =>
              have first : ep ≠ 0#32 := Image.provides_nonzero imageAt provides
              have after := keeps ep (by rw [provides]; exact List.mem_cons_self) m' alike
              have rest_eq := ih later after fuel (by omega) _ followingAt chain (called ++ [ep])
              rw [List.append_assoc] at rest_eq
              rw [Option.getD_some, if_neg first]
              exact rest_eq

/-- Linking leaves alone what it reads. -/
theorem linkPlugins_agree (ims : List Image) (imagesAt : ∀ im ∈ ims, im.At footprint m)
    (nodes : List Node) {m' : Mem} (alike : Agree footprint m m') (fuel : Nat)
    (enough : nodes.length < fuel) (node : Node) (nodeAt : node.At footprint m)
    (chain : ChainAt footprint m node.base nodes)
    (outside : ∀ im ∈ images nodes, Outside footprint m im) :
    Agree footprint m (linkPlugins (ims.map Image.base) fuel node.base m') := by
  induction nodes generalizing m' fuel node with
  | nil =>
      obtain ⟨fuel, rfl⟩ := Nat.exists_eq_add_of_le' (show 1 ≤ fuel by omega)
      have last : wafelPluginNext m node.base = 0#32 := chain
      have next := wafelPluginNext_agree alike nodeAt.header nodeAt.next
      simp only [linkPlugins, next, last, if_true]
      exact alike
  | cons following rest ih =>
      rw [List.length_cons] at enough
      obtain ⟨fuel, rfl⟩ := Nat.exists_eq_add_of_le' (show 1 ≤ fuel by omega)
      obtain ⟨isNext, nonzero, followingAt, chain⟩ := chain
      have next := wafelPluginNext_agree alike nodeAt.header nodeAt.next
      have magic := magic_agree alike followingAt.header
      simp only [linkPlugins, next, isNext, if_neg nonzero, magic]
      cases following with
      | data base =>
          rw [if_neg (followingAt.data rfl)]
          exact ih alike fuel (by omega) _ followingAt chain outside
      | plugin im =>
          have imageAt := followingAt.plugin im rfl
          have linked := wafelLinkPlugin_fold (imageAt.agree alike) (ims.map Image.base)
          obtain ⟨alike', -⟩ := linkImage_spec alike imageAt ims imagesAt
            (outside im List.mem_cons_self) im.visited
            fun rel inside => (imageAt.visited_mem rel).mp inside
          rw [Node.base, if_pos imageAt.magic, linked]
          exact ih alike' fuel (by omega) (.plugin im) followingAt chain
            fun other inside => outside other (List.mem_cons_of_mem _ inside)

theorem initLinking_agree (core : Image) (nodes : List Node) (fuel : Nat)
    (enough : nodes.length < fuel) (coreAt : (Node.plugin core).At footprint m)
    (chain : ChainAt footprint m core.base nodes)
    (outside : ∀ im ∈ images nodes, Outside footprint m im) :
    Agree footprint m (initLinking fuel m core.base) := by
  have imagesAt : ∀ im ∈ core :: images nodes, im.At footprint m := by
    intro im member
    rcases List.mem_cons.mp member with rfl | member
    · exact coreAt.plugin im rfl
    · exact ChainAt.images_at nodes core.base chain im member
  have registered : registerPlugins m fuel core.base [core.base] =
      (core :: images nodes).map Image.base :=
    registerPlugins_eq nodes fuel enough core.base chain [core.base]
  unfold initLinking
  rw [registered]
  exact linkPlugins_agree (core :: images nodes) imagesAt nodes (fun _ _ => rfl) fuel enough
    (.plugin core) coreAt chain outside

end Calls

/-- A chain of plugins behind the first one, whose slots are not among what is read. -/
structure Chain (footprint : Word → Prop) (m : Mem) (core : Image) (nodes : List Node) : Prop where
  first : (Node.plugin core).At footprint m
  rest : ChainAt footprint m core.base nodes
  outside : ∀ im ∈ images nodes, Outside footprint m im

/-- A string that stays in place. -/
structure NamePlaced (footprint : Word → Prop) (m : Mem) (name : Word) (text : List Byte) :
    Prop where
  str : Str m name text
  within : Within footprint name (text.length + 1)

section Sample

/-- A plugin that exports `f`. -/
def exporter (base : Word) : Image where
  base := base
  dyn := base + 0x100#32
  ds := [(dtStrtab, 0x220#32), (dtSymtab, 0x200#32)]
  symtab := base + 0x200#32
  strtab := base + 0x220#32
  syms := symSample 0x500#32 1#16
  rel := none
  jmprel := none

/-- Two plugins that export `f`, with data between them. -/
def entrySample : Mem :=
  let words := [0#32, 0#32, 0#32, 0#32, 1#32, 0x500#32, 0#32, 1#32]
  let m := imageSample (fun _ => 0#8) 0x27B00000#32 0x27D00000#32
    (dynWords (exporter 0x27B00000#32).ds) words [0#8, 0x66#8, 0#8]
  let m := imageSample m 0x27C00000#32 0#32 (dynWords (exporter 0x27C00000#32).ds) words
    [0#8, 0x66#8, 0#8]
  let m := writeWords m 0x27D00018#32 [0x80#32]
  writeWords m 0x27D00090#32 [0x27C00000#32]

/-- Nothing is written, so all of the memory may be read. -/
def everywhere (_ : Word) : Prop := True

theorem within_everywhere (a : Word) (n : Nat) : Within everywhere a n := fun _ _ => trivial

theorem exporter_syms {base strtab symtab : Word}
    (null : SymAt everywhere entrySample strtab (symAddress symtab 0) ⟨0#32, 0#32, 0#16, []⟩)
    (f : SymAt everywhere entrySample strtab (symAddress symtab 1)
      ⟨1#32, 0x500#32, 1#16, chars "f".toList⟩)
    (i : Nat) (inside : i < (exporter base).syms.length) :
    SymAt everywhere entrySample strtab (symAddress symtab i) (exporter base).syms[i] :=
  match i, inside with
  | 0, _ => null
  | 1, _ => f

theorem exporter_at (base : Word) (known : base = 0x27B00000#32 ∨ base = 0x27C00000#32) :
    (exporter base).At everywhere entrySample := by
  rcases known with rfl | rfl <;> exact
    { header := within_everywhere _ _
      phdrs := within_everywhere _ _
      magic := by decide
      dynamic := by decide
      present := by decide
      dynSection := within_everywhere _ _
      stands := .entry _ _ _ _ (by decide) (by decide) (by decide)
        (.entry _ _ _ _ (by decide) (by decide) (by decide) (.null _ (by decide)))
      symtab := ⟨0x200#32, by decide, by decide⟩
      strtab := ⟨0x220#32, by decide, by decide⟩
      describes := ⟨by decide, by decide, by decide, by decide, by simp [exporter],
        by simp [exporter]⟩
      joined := by simp [Joined, exporter]
      count := by decide
      syms := exporter_syms
        ⟨within_everywhere _ _, within_everywhere _ _, by decide, by decide, by decide,
          ⟨by decide, by decide, by decide, by decide⟩⟩
        ⟨within_everywhere _ _, within_everywhere _ _, by decide, by decide, by decide,
          ⟨by decide, by decide, by decide, by decide⟩⟩
      null := by decide
      undefined := by decide
      placed := by decide
      relWithin rel member := absurd member List.not_mem_nil
      relSymbol rel member := absurd member List.not_mem_nil }

def nodesSample : List Node := [.data 0x27D00000#32, .plugin (exporter 0x27C00000#32)]

theorem nodesSample_chain :
    Chain everywhere entrySample (exporter 0x27B00000#32) nodesSample where
  first :=
    { header := within_everywhere _ _
      next := within_everywhere _ _
      plugin := fun im member => Option.some.inj member ▸ exporter_at _ (.inl rfl)
      data := fun absent => absurd absent (by simp [Node.image]) }
  rest := ⟨by decide, by decide,
    { header := within_everywhere _ _
      next := within_everywhere _ _
      plugin := fun im member => absurd member (by simp [Node.image])
      data := fun _ => by decide },
    by decide, by decide,
    { header := within_everywhere _ _
      next := within_everywhere _ _
      plugin := fun im member => Option.some.inj member ▸ exporter_at _ (.inr rfl)
      data := fun absent => absurd absent (by simp [Node.image]) },
    show wafelPluginNext entrySample 0x27C00000#32 = 0#32 by decide⟩
  outside im member rel listed := by
    obtain rfl : im = exporter 0x27C00000#32 := List.mem_singleton.mp member
    exact absurd listed List.not_mem_nil

theorem namePlaced_sample :
    NamePlaced everywhere entrySample 0x27B00221#32 (chars "f".toList) where
  str := ⟨by decide, by decide, by decide, by decide⟩
  within := within_everywhere _ _

end Sample

end Stroopwafel.Dynamic
