import Stroopwafel.TrampolineChain

set_option autoImplicit false

namespace Stroopwafel.Trampoline

open Memory Arm IosElf

/-- What a target leaves alone, next to the trampolines: `LR` in the structure. The result of a
target of `hook_before_v2` is false. -/
structure Normal (areas : List (Word × Nat)) (call : HookCall) (e t : Cpu) : Prop where
  returns : Returns e t
  link : read32 t.mem (e.regs sp + 52#32) = read32 e.mem (e.regs sp + 52#32)
  result : call.v2 = true → t.regs 0#4 = 0#32
  code : ∀ area ∈ areas, Same e.mem t.mem area.1 area.2

/-- The machine `x` has the registers of `s` but `LR`, and the memory but the words below the
stack. -/
structure Resumed (s x : Cpu) : Prop where
  saved : ∀ r ∈ armSaved, x.regs r = s.regs r
  sp : x.regs Arm.sp = s.regs Arm.sp
  mem : ∀ a n, Apart a n (s.regs Arm.sp - BitVec.ofNat 32 56) 56 → Same s.mem x.mem a n

/-- The hooked code `s` as a target makes it that returns in the state `t`: the registers are those
of the structure at `state`. -/
def reloaded (state : Word) (s t : Cpu) : Cpu :=
  { t with
    regs := fun r =>
      if r ∈ armSaved then read32 t.mem (state + BitVec.ofNat 32 (4 * r.toNat))
      else if r = sp then s.regs sp
      else t.regs r }

/-- The machine comes to the targets of the calls, in this order, when each of them returns, and
then to what `final` says. Each target finds the registers that the one before it left in the
structure, the first one those of `s`, and the last ones are those the machine goes on with. -/
def RunsTargets (other : Word → Cpu → Option Cpu) (areas : List (Word × Nat)) (final : Cpu → Prop) :
    List HookCall → Cpu → Cpu → Prop
  | [], s, c => ∃ n x, run other n c = some x ∧ Resumed s x ∧ final x
  | call :: rest, s, c =>
      ∃ n e link, run other n c = some e ∧ EntersHook call.hook call.target link s e ∧
        e.regs 0#4 = e.regs sp ∧
        ∀ t, Normal areas call e t →
          RunsTargets other areas final rest (reloaded (e.regs 0#4) s t) t

/-- The same but for the program counter, `LR` and the flags. -/
structure Agree (c c' : Cpu) : Prop where
  regs : ∀ r, r ≠ lr → c'.regs r = c.regs r
  mem : c'.mem = c.mem
  thumb : c'.thumb = c.thumb

/-- An instruction that does not use `PC`, `LR` or the flags, and does not branch -/
structure Relocatable (other : Word → Cpu → Option Cpu) (ins : Word) : Prop where
  plain : ∀ offset, decodeArm ins ≠ some (.b offset) ∧ decodeArm ins ≠ some (.bl offset)
  next : ∀ c d, c.thumb = false → execWord other ins c = some d →
    d.pc = c.pc + 4#32 ∧ d.thumb = false ∧ d.regs lr = c.regs lr
  same : ∀ c c' d, c.thumb = false → Agree c c' → execWord other ins c = some d →
    ∃ d', execWord other ins c' = some d' ∧ Agree d d'

/-- The callee of a `BL` is entered, and any other instruction is executed as at `addr`, in the
state that the last target leaves. Both go on behind `addr`. -/
inductive Finishes (other : Word → Cpu → Option Cpu) (areas : List (Word × Nat)) (addr ins : Word)
    (x : Cpu) : Prop where
  | callee (dst : Word) (calls : Callee false addr ins dst) (there : At dst x)
      (back : x.regs lr = addr + 4#32)
  | original (plain : Plain false addr ins)
      (executed : ∀ d, execWord other ins { x with pc := addr } = some d →
        (∀ area ∈ areas, Same x.mem d.mem area.1 area.2) →
        ∃ n g, run other n x = some g ∧ Agree d g ∧ g.pc = addr + 4#32)

section Body

variable (other : Word → Cpu → Option Cpu) (call : HookCall) {base : Word} {c t : Cpu}

theorem HookCall.head (ws : List Word)
    (body : (∃ dst, ws = call.chainWords dst) ∨ ∃ addr ins, ws = call.lastWords addr ins)
    (fetch : Fetch false base ws 0 c) (below : Below base (4 * ws.length) (c.regs sp) 56) :
    ∃ e, run other 4 c = some e ∧ HookEntered armSaved call.target (base + 16#32) c e := by
  obtain ⟨v2, target⟩ := call
  rcases body with ⟨dst, rfl⟩ | ⟨addr, ins, rfl⟩
  · cases v2 with
    | true => exact hookbefore_head other c base target _ 20 9 rfl rfl rfl rfl rfl rfl fetch below
    | false => exact hookbefore_head other c base target _ 12 7 rfl rfl rfl rfl rfl rfl fetch below
  · cases v2 with
    | true => exact hookbefore_head other c base target _ 20 9 rfl rfl rfl rfl rfl rfl fetch below
    | false => exact hookbefore_head other c base target _ 12 7 rfl rfl rfl rfl rfl rfl fetch below

theorem HookCall.chain_tail {dst : Word} (fetch : Fetch false base (call.chainWords dst) 4 t)
    (aligned : Aligned (t.regs sp)) :
    ∃ n f, run other n t = some f ∧ Restored armSaved t f ∧ At dst f ∧ f.mem = t.mem := by
  obtain ⟨v2, target⟩ := call
  cases v2 with
  | true =>
      exact hookbeforeLr_branch other t base _ dst ⟨rfl, rfl, rfl, rfl, rfl⟩ rfl fetch aligned
  | false =>
      obtain ⟨f, rest⟩ := hookbefore_chain other t base target dst fetch aligned
      exact ⟨2, f, rest⟩

/-- Where the instruction stands in the body -/
def HookCall.orgins : Nat := if call.v2 then hookbeforeLrOrgins else hookbeforeOrgins

theorem HookCall.last_tail {addr ins : Word}
    (fetch : Fetch false base (call.lastWords addr ins) 4 t)
    (aligned : Aligned (t.regs sp)) (result : call.v2 = true → t.regs 0#4 = 0#32) :
    ∃ n f, run other n t = some f ∧ Restored armSaved t f ∧ f.mem = t.mem ∧
      Fetch false base (call.lastWords addr ins) call.orgins f := by
  obtain ⟨v2, target⟩ := call
  cases v2 with
  | true =>
      obtain ⟨f, rest⟩ := hookbeforeLr_false other t base _ _ ⟨rfl, rfl, rfl, rfl, rfl⟩ fetch
        aligned (result rfl)
      exact ⟨3, f, rest⟩
  | false =>
      obtain ⟨f, rest⟩ := hookbefore_original other t base target ins fetch aligned
      exact ⟨1, f, rest⟩

theorem HookCall.last_word (addr ins : Word) :
    (call.lastWords addr ins)[call.orgins]? = some ins := by
  obtain ⟨v2, target⟩ := call
  cases v2 with
  | true => rfl
  | false => rfl

/-- Behind the instruction the body goes on behind `addr`, without `LR` or with that of a `BL`. -/
theorem HookCall.last_leaves {addr ins : Word}
    (fetch : Fetch false base (call.lastWords addr ins) (call.orgins + 1) t)
    (back : call.v2 = true ∨ t.regs lr = addr + 4#32) :
    step other t = some (t.interwork (addr + 4#32)) := by
  obtain ⟨v2, target⟩ := call
  cases v2 with
  | true =>
      have fetch : Fetch false base (HookCall.lastWords ⟨true, target⟩ addr ins) 8 t := fetch
      exact fetch.ldrPc_jump other .al 0 10 (addr + 4#32) rfl rfl (by decide) rfl rfl
  | false =>
      rcases back with v2 | back
      · cases v2
      · rw [← back]
        exact fetch.bx other lr rfl

end Body

theorem even_of_aligned {a : Word} (aligned : Aligned a) : a.toNat % 2 = 0 := by
  have multiple := (aligned_iff a).mp aligned
  omega

section Run

variable (other : Word → Cpu → Option Cpu) (areas : List (Word × Nat))

theorem runsTargets_later (final : Cpu → Prop) {calls : List HookCall} {n : Nat} {s c d : Cpu}
    (first : run other n c = some d) (runs : RunsTargets other areas final calls s d) :
    RunsTargets other areas final calls s c := by
  cases calls with
  | nil =>
      obtain ⟨k, x, ran, there⟩ := runs
      exact ⟨n + k, x, run_add other first ran, there⟩
  | cons call rest =>
      obtain ⟨k, e, link, ran, enters⟩ := runs
      exact ⟨n + k, e, link, run_add other first ran, enters⟩

/-- The trampoline is there in the memory of the machine, apart from the stack. -/
structure Seen (c : Cpu) (node : Node) : Prop where
  words : WordsAt c.mem node.alt node.copy.words
  aligned : Aligned node.alt
  below : Below node.alt node.copy.size (c.regs sp) 56
  area : (node.alt, node.copy.size) ∈ areas

theorem Seen.keeps {c c' : Cpu} {node : Node} (seen : Seen areas c node)
    (top : c'.regs sp = c.regs sp) (code : ∀ area ∈ areas, Same c.mem c'.mem area.1 area.2) :
    Seen areas c' node := by
  refine ⟨Same.wordsAt (code _ seen.area) seen.words, seen.aligned, ?_, seen.area⟩
  rw [top]
  exact seen.below

/-- The areas are apart from the stack below `top`. -/
def Clear (top : Word) : Prop :=
  ∀ area ∈ areas, Apart area.1 area.2 (top - BitVec.ofNat 32 56) 56

/-- What the machine is in when a target has returned. -/
theorem entered_returns {node : Node} {x e t : Cpu} (seen : Seen areas x node)
    (clear : Clear areas (x.regs sp))
    (entered : HookEntered armSaved node.call.target (node.alt + 16#32) x e)
    (normal : Normal areas node.call e t) :
    Fetch false node.alt node.copy.words 4 t ∧ e.regs 0#4 = t.regs sp ∧ Aligned (t.regs sp) ∧
      t.regs sp = x.regs sp - BitVec.ofNat 32 56 ∧
      read32 t.mem (t.regs sp + 52#32) = x.regs lr ∧
      ∀ area ∈ areas, Same x.mem t.mem area.1 area.2 := by
  have top : t.regs sp = x.regs sp - BitVec.ofNat 32 56 := normal.returns.sp.trans entered.sp
  have code : ∀ area ∈ areas, Same x.mem t.mem area.1 area.2 := fun area member =>
    (entered.frame _ _ (clear area member)).trans (normal.code area member)
  obtain ⟨pc, thumb⟩ := Hook.before.back_fetch node.alt seen.aligned
  refine ⟨⟨Same.wordsAt (code _ seen.area) seen.words, seen.aligned, ?_, ?_⟩,
    entered.argument.trans normal.returns.sp.symm, ?_, top, ?_, code⟩
  · rw [normal.returns.thumb, entered.link]
    exact thumb
  · rw [normal.returns.pc, entered.link]
    exact pc
  · rw [top]
    exact seen.below.aligned.sub 56 rfl
  · have slot : (armSaved.map x.regs ++ [x.regs lr])[13]? = some (x.regs lr) := rfl
    have word := WordsAt.getElem? entered.state slot
    rw [show BitVec.ofNat 32 (4 * 13) = 52#32 from rfl] at word
    rw [normal.returns.sp, normal.link]
    exact word

theorem restored_lr {x t f : Cpu} (restored : Restored armSaved t f)
    (top : t.regs sp = x.regs sp - BitVec.ofNat 32 56)
    (link : read32 t.mem (t.regs sp + 52#32) = x.regs lr) :
    f.regs sp = x.regs sp ∧ f.regs lr = x.regs lr := by
  constructor
  · rw [restored.sp, top]
    exact BitVec.sub_add_cancel _ _
  · rw [restored.link]
    exact link

/-- A target that is called behind `s` finds the registers of `s`. -/
theorem Resumed.enters {s x e : Cpu} {back : Word} (call : HookCall) (resumed : Resumed s x)
    (entered : HookEntered armSaved call.target back x e) :
    EntersHook call.hook call.target (x.regs lr) s e := by
  have saved : call.hook.saved = armSaved := by
    obtain ⟨v2, target⟩ := call
    cases v2 <;> rfl
  have same : armSaved.map x.regs = armSaved.map s.regs := List.map_congr_left resumed.saved
  have top : e.regs Arm.sp = s.regs Arm.sp - BitVec.ofNat 32 56 := by
    rw [entered.sp, resumed.sp]
    rfl
  refine ⟨entered.pc, entered.thumb, ?_, ?_, ?_⟩
  · rw [saved, entered.argument, ← same]
    exact entered.state
  · rw [saved, entered.argument, top]
    exact BitVec.sub_add_cancel _ _
  · intro a n outside
    rw [saved] at outside
    have frame := entered.frame a n (by rwa [resumed.sp])
    exact (resumed.mem a n outside).trans frame

theorem armSaved_slot (r : Reg) (member : r ∈ armSaved) :
    ∃ i, ∃ inside : i < armSaved.length, armSaved[i] = r ∧ r.toNat = i := by
  obtain ⟨i, inside, same⟩ := List.mem_iff_getElem.mp member
  have all : ∀ i, (inside : i < armSaved.length) → armSaved[i].toNat = i := by decide
  exact ⟨i, inside, same, same ▸ all i inside⟩

/-- The end of a body takes the registers from the structure that the target leaves. -/
theorem Restored.resumed {s t f : Cpu} (restored : Restored armSaved t f)
    (top : t.regs Arm.sp = s.regs Arm.sp - BitVec.ofNat 32 56) (mem : f.mem = t.mem) :
    Resumed (reloaded (t.regs Arm.sp) s t) f := by
  refine ⟨?_, ?_, ?_⟩
  · intro r member
    obtain ⟨i, inside, rfl, index⟩ := armSaved_slot r member
    simp only [reloaded, if_pos member, index]
    exact restored.regs i inside
  · rw [restored.sp, top]
    exact BitVec.sub_add_cancel _ _
  · intro a n _
    rw [mem]
    exact Same.refl _ _ _

theorem seen_fetch {x : Cpu} {node : Node} (seen : Seen areas x node) (there : At node.alt x) :
    Fetch false node.alt node.copy.words 0 x := by
  obtain ⟨pc, thumb⟩ := clear_even node.alt (even_of_aligned seen.aligned)
  refine ⟨seen.words, seen.aligned, there.thumb.trans thumb, ?_⟩
  rw [there.pc, pc, Nat.mul_zero, BitVec.add_zero]

/-- The last trampoline executes the instruction. -/
theorem last_finishes {addr ins : Word} (aligned : Aligned addr) {call : HookCall} {base : Word}
    {f : Cpu} (plain : Plain false addr ins) (relocatable : Relocatable other ins)
    (fetch : Fetch false base (call.lastWords addr ins) call.orgins f)
    (area : (base, 4 * (call.lastWords addr ins).length) ∈ areas)
    (back : call.v2 = true ∨ f.regs lr = addr + 4#32) : Finishes other areas addr ins f := by
  refine .original plain ?_
  intro d executed kept
  have agree : Agree { f with pc := addr } f := ⟨fun _ _ => rfl, rfl, rfl⟩
  obtain ⟨d', ran, same⟩ := relocatable.same { f with pc := addr } f d fetch.mode agree executed
  obtain ⟨pc, thumb, link⟩ := relocatable.next f d' fetch.mode ran
  have word : read32 f.mem f.pc = ins := by
    rw [fetch.pc]
    exact WordsAt.getElem? fetch.code (call.last_word addr ins)
  have first : step other f = some d' := by
    rw [step, fetch.mode, word]
    exact ran
  have next : Fetch false base (call.lastWords addr ins) (call.orgins + 1) d' := by
    refine ⟨Same.wordsAt ?_ fetch.code, fetch.aligned, thumb, ?_⟩
    · rw [same.mem]
      exact kept _ area
    · rw [pc, fetch.pc]
      exact ofNat_add_ofNat base _ 4
  have leaves := call.last_leaves other next (by rw [link]; exact back)
  obtain ⟨even, arm⟩ := clear_even (addr + 4#32) (even_of_aligned (aligned.add 4 rfl))
  refine ⟨2, _, run_succ other first (run_succ other leaves rfl), ⟨same.regs, same.mem, ?_⟩, even⟩
  rw [Cpu.interwork_thumb, arm, ← same.thumb, thumb]

/-- Through a chain the machine comes to all targets, and then to the original instruction. -/
theorem leads_run {addr ins dst : Word} (aligned : Aligned addr) {nodes : List Node}
    (leads : Leads addr ins dst nodes)
    (relocatable : Plain false addr ins → Relocatable other ins) {s x : Cpu} (resumed : Resumed s x)
    (there : At dst x)
    (back : x.regs lr = addr + 4#32 ∨
      (∀ node ∈ nodes, node.call.v2 = true) ∧ ∀ dst, ¬ Callee false addr ins dst)
    (seen : ∀ node ∈ nodes, Seen areas x node) (clear : Clear areas (x.regs sp)) :
    RunsTargets other areas (Finishes other areas addr ins) (nodes.map Node.call) s x := by
  induction leads generalizing s x with
  | callee dst calls =>
      refine ⟨0, x, rfl, resumed, .callee dst calls there ?_⟩
      rcases back with back | ⟨_, none⟩
      · exact back
      · exact absurd calls (none dst)
  | last node words plain =>
      have here := seen node List.mem_cons_self
      obtain ⟨e, ran, entered⟩ := node.call.head other _ (.inr ⟨addr, ins, words⟩)
        (seen_fetch areas here there) here.below
      refine ⟨4, e, x.regs lr, ran, resumed.enters node.call entered, entered.argument, ?_⟩
      intro t normal
      obtain ⟨fetch, state, level, top, link, code⟩ :=
        entered_returns areas here clear entered normal
      have area := here.area
      unfold Copy.size at area
      rw [words] at fetch area
      obtain ⟨n, f, tail, restored, mem, instruction⟩ :=
        node.call.last_tail other fetch level normal.result
      obtain ⟨_, kept⟩ := restored_lr restored top link
      rw [state]
      refine ⟨n, f, tail, restored.resumed (by rw [top, resumed.sp]) mem,
        last_finishes other areas aligned plain (relocatable plain) instruction area ?_⟩
      rcases back with back | ⟨v2, _⟩
      · exact .inr (kept.trans back)
      · exact .inl (v2 node List.mem_cons_self)
  | chain node rest dst words leads ih =>
      have here := seen node List.mem_cons_self
      obtain ⟨e, ran, entered⟩ := node.call.head other _ (.inl ⟨dst, words⟩)
        (seen_fetch areas here there) here.below
      refine ⟨4, e, x.regs lr, ran, resumed.enters node.call entered, entered.argument, ?_⟩
      intro t normal
      obtain ⟨fetch, state, level, top, link, code⟩ :=
        entered_returns areas here clear entered normal
      rw [words] at fetch
      obtain ⟨n, f, tail, restored, arrived, mem⟩ := node.call.chain_tail other fetch level
      obtain ⟨same, kept⟩ := restored_lr restored top link
      rw [state]
      refine runsTargets_later other areas _ tail
        (ih (restored.resumed (by rw [top, resumed.sp]) mem) arrived ?_ ?_ ?_)
      · rw [kept]
        exact back.imp_right fun both =>
          ⟨fun node member => both.1 node (List.mem_cons_of_mem _ member), both.2⟩
      · intro later member
        apply (seen later (List.mem_cons_of_mem _ member)).keeps areas same
        rw [mem]
        exact code
      · rw [same]
        exact clear

end Run

/-- Where the copies are that the branches lead to -/
def mapped (sym : Symbols) (addr : Word) (copies : List Copy) : List (Word × Nat) :=
  copies.filterMap fun copy =>
    (trampolineFindMapping sym addr copy.base 26).map fun alt => (alt, copy.size)

/-- The machine is at the hooked address and has the trampolines where they are mapped. -/
structure Sees (sym : Symbols) (addr : Word) (last : State) (copies : List Copy) (c : Cpu) :
    Prop where
  pc : c.pc = addr
  mode : c.thumb = false
  word : read32 c.mem addr = insAt last.mem addr
  shows : ∀ copy ∈ copies, ∀ alt, trampolineFindMapping sym addr copy.base 26 = some alt →
    Shows last.mem copy.base c.mem alt copy.size
  stack : Aligned (c.regs sp)
  clear : Clear (mapped sym addr copies) (c.regs sp)

theorem called_target {addr ins callee : Word} (called : Callee false addr ins callee) :
    blTarget addr ins = callee := by
  obtain ⟨offset, decoded, rfl⟩ := called
  exact blTarget_eq addr ins offset decoded

theorem Relocatable.straight {other : Word → Cpu → Option Cpu} {ins : Word}
    (relocatable : Relocatable other ins) (addr : Word) :
    blTarget addr ins = 0#32 ∧ bTarget addr ins = 0#32 := by
  constructor
  · apply blTarget_other
    intro top
    exact (relocatable.plain _).2 ((decodeArm_bl_iff ins _).mpr ⟨top, rfl⟩)
  · apply bTarget_other
    intro top
    exact (relocatable.plain _).1 ((decodeArm_b_iff ins _).mpr ⟨top, rfl⟩)

theorem extractTarget_aligned {addr : Word} (aligned : Aligned addr) (ins : Word) :
    Aligned (extractTarget addr ins) := by
  have value := signed_toNat ins
  rw [aligned_iff] at aligned ⊢
  rw [extractTarget_eq, branchOffset, BitVec.toNat_add, BitVec.toNat_add, value, BitVec.toNat_ofNat]
  split <;> omega

theorem targets_aligned {addr : Word} (aligned : Aligned addr) (ins : Word) :
    Aligned (blTarget addr ins) ∧ Aligned (bTarget addr ins) := by
  unfold blTarget bTarget
  constructor
  · split
    · decide
    · exact extractTarget_aligned aligned ins
  · split
    · decide
    · exact extractTarget_aligned aligned ins

/-- The branch at the hooked address leads to its target. -/
theorem arrives_at (link : Link) {c : Cpu} {addr dst : Word} (other : Word → Cpu → Option Cpu)
    (aligned : Aligned dst) (arm : link ≠ .blT) (pc : c.pc = addr) (mode : c.thumb = false)
    (decoded : decodeArm (read32 c.mem addr) =
      some (if link = .b then .b (dst - addr) else .bl (dst - addr))) :
    ∃ n x, run other n c = some x ∧ At dst x ∧ x.mem = c.mem ∧
      (∀ r, r ≠ lr → x.regs r = c.regs r) ∧ (link = .bl → x.regs lr = addr + 4#32) := by
  have arrives : Arrives link c dst := by
    cases link with
    | bl =>
        rw [Arrives, Calls, mode, pc]
        exact decoded
    | b =>
        refine ⟨mode, ?_⟩
        rw [pc]
        exact decoded
    | blT => exact absurd rfl arm
  obtain ⟨n, ran⟩ := arrives_run link other c dst arrives
  obtain ⟨even, bit⟩ := clear_even dst (even_of_aligned aligned)
  refine ⟨n, arrived link c dst, ran, ⟨?_, ?_⟩, arrived_mem link c dst,
    arrived_other link c dst, ?_⟩
  · rw [even]
    cases link <;> rfl
  · rw [bit, ← mode]
    cases link <;> rfl
  · rintro rfl
    change (called c dst).regs lr = addr + 4#32
    rw [called_lr, returnTo, mode, pc]
    rfl

/-- Hooks on one address run newest first, and in the end the instruction that was there, with the
registers that the targets leave. -/
theorem hooks_chain (other : Word → Cpu → Option Cpu) {sym : Symbols} (laid : sym.Laid)
    (base : Aligned sym.wafelPluginBaseAddr) {start last : State} {earlier copies : List Copy}
    (pool : Pool sym start earlier) {addr : Word} (aligned : Aligned addr)
    (site : Site sym start.mem addr) (calls : List HookCall)
    (original : (∃ callee, Callee false addr (insAt start.mem addr) callee ∧ callee ≠ 0#32) ∨
      Relocatable other (insAt start.mem addr) ∧
        (calls.head?.any (·.v2) = true → ∀ call ∈ calls, call.v2 = true))
    (ran : performAll sym (calls.map (·.on addr)) start = some (last, copies))
    (reach : InReach sym addr copies) (c : Cpu) (sees : Sees sym addr last copies c) :
    RunsTargets other (mapped sym addr copies)
      (Finishes other (mapped sym addr copies) addr (insAt start.mem addr)) calls.reverse c c := by
  have pc := sees.pc
  have decodes := callee_or_plain addr (insAt start.mem addr)
  have first : Stage addr (insAt start.mem addr) (insAt start.mem addr) [] ∧
      Suits addr (insAt start.mem addr) calls := by
    rcases original with ⟨callee, called, known⟩ | ⟨relocatable, order⟩
    · have target := called_target called
      rw [← target] at called known
      exact ⟨.linked [] known (.callee _ called), fun none => absurd none known⟩
    · obtain ⟨none, straight⟩ := relocatable.straight addr
      refine ⟨.plain rfl none straight, fun _ branch => ?_⟩
      rcases branch with branch | head
      · exact absurd straight branch
      · exact order head
  obtain ⟨news, stage, performed, placed, pool'⟩ :=
    installs_stage laid base aligned calls pool site first.1 first.2 ran reach
  rw [List.append_nil] at stage
  rw [← performed]
  have relocatable : Plain false addr (insAt start.mem addr) →
      Relocatable other (insAt start.mem addr) ∧
        ∀ dst, ¬ Callee false addr (insAt start.mem addr) dst := by
    intro plain
    rcases original with ⟨callee, called, known⟩ | ⟨relocatable, _⟩
    · exact absurd (plain callee called) known
    · refine ⟨relocatable, ?_⟩
      rintro dst ⟨offset, decoded, _⟩
      exact (relocatable.plain offset).2 decoded
  have seen : ∀ node ∈ news, Seen (mapped sym addr copies) c node := by
    intro node member
    obtain ⟨inside, found⟩ := placed node member
    have all : node.copy ∈ earlier ++ copies := List.mem_append_right _ inside
    have area : (node.alt, node.copy.size) ∈ mapped sym addr copies :=
      List.mem_filterMap.mpr ⟨node.copy, inside, by rw [found]; rfl⟩
    refine ⟨Shows.wordsAt (sees.shows _ inside _ found) (pool'.words _ all),
      alt_aligned base ((aligned_iff _).mpr (pool'.inside _ all).1) found,
      ⟨sees.stack, sees.clear _ area⟩, area⟩
  have here {x : Cpu} (mem : x.mem = c.mem) (regs : ∀ r, r ≠ lr → x.regs r = c.regs r) :
      Resumed c x ∧ (∀ node ∈ news, Seen (mapped sym addr copies) x node) ∧
        Clear (mapped sym addr copies) (x.regs sp) := by
    have top := regs sp (by decide)
    have others : ∀ r ∈ armSaved, r ≠ lr := by decide
    refine ⟨⟨fun r member => regs r (others r member), top, ?_⟩, ?_, ?_⟩
    · intro a n _
      rw [mem]
      exact Same.refl _ _ _
    · intro node member
      apply (seen node member).keeps _ top
      intro area _
      rw [mem]
      exact Same.refl _ _ _
    · rw [top]
      exact sees.clear
  have targets := targets_aligned aligned (insAt last.mem addr)
  have word := sees.word
  cases stage with
  | plain same none straight =>
      rw [if_pos none] at decodes
      obtain ⟨moves, _⟩ := relocatable decodes
      refine ⟨0, c, rfl, (here rfl fun _ _ => rfl).1, .original decodes ?_⟩
      intro d executed _
      have there : ({ c with pc := addr } : Cpu) = c := by
        rw [← pc]
      rw [there] at executed
      have run : step other c = some d := by
        rw [step, sees.mode, pc, word, same]
        exact executed
      have next := (moves.next c d sees.mode executed).1
      rw [pc] at next
      exact ⟨1, d, run_succ other run rfl, ⟨fun _ _ => rfl, rfl, rfl⟩, next⟩
  | linked nodes branches leads =>
      have called := callee_or_plain addr (insAt last.mem addr)
      rw [if_neg branches] at called
      obtain ⟨offset, decoded, target⟩ := called
      obtain ⟨n, x, arrived, there, mem, regs, back⟩ := arrives_at .bl other targets.1
        (by decide) pc sees.mode (by
          rw [word, decoded, target, BitVec.add_comm, BitVec.add_sub_cancel]
          rfl)
      obtain ⟨resumed, seen, clear⟩ := here mem regs
      exact runsTargets_later other _ _ arrived (leads_run other _ aligned leads
        (fun plain => (relocatable plain).1) resumed there (.inl (back rfl)) seen clear)
  | jump nodes none branches leads plain v2 =>
      have jumps := jumps_or_none addr (insAt last.mem addr)
      rw [if_neg branches] at jumps
      obtain ⟨offset, decoded, target⟩ := jumps
      obtain ⟨n, x, arrived, there, mem, regs, _⟩ := arrives_at .b other targets.2 (by decide) pc
        sees.mode (by
          rw [word, decoded, target, BitVec.add_comm, BitVec.add_sub_cancel]
          rfl)
      obtain ⟨resumed, seen, clear⟩ := here mem regs
      exact runsTargets_later other _ _ arrived (leads_run other _ aligned leads
        (fun plain => (relocatable plain).1) resumed there (.inr ⟨v2, (relocatable plain).2⟩) seen
        clear)

section Sample

/-- `mov r4, r5` -/
def movWord : Word := 0xE1A04005

/-- The instruction at `0x27E00000`, before any install -/
def chainState : State :=
  { sampleState with mem := write32 sampleState.mem 0x27E00000 movWord }

def chained (calls : List HookCall) : State × List Copy :=
  (performAll sampleSymbols (calls.map (·.on 0x27E00000)) chainState).getD (chainState, [])

/-- The machine at the hooked instruction, with all registers but `SP` zero -/
def chainCpu (calls : List HookCall) : Cpu where
  regs r := if r = sp then 0x10000000 else 0
  pc := 0x27E00000
  thumb := false
  flags := ⟨false, false, false, false⟩
  mem := (chained calls).1.mem

theorem mov_relocatable (other : Word → Cpu → Option Cpu) : Relocatable other movWord := by
  have executes (c : Cpu) : execWord other movWord c = some (c.set 4 (c.regs 5)).next := rfl
  refine ⟨?_, ?_, ?_⟩
  · intro offset
    exact ⟨nofun, nofun⟩
  · intro c d arm executed
    rw [executes] at executed
    cases executed
    refine ⟨?_, arm, rfl⟩
    change c.pc + c.size = _
    rw [Cpu.size, arm]
    rfl
  · intro c c' d arm agree executed
    rw [executes] at executed
    cases executed
    refine ⟨_, executes c', ?_, agree.mem, agree.thumb⟩
    intro r other
    have source := agree.regs 5 (by decide)
    have same := agree.regs r other
    simp only [Cpu.next_regs, Cpu.set, source, same]

theorem chain_ins : insAt chainState.mem 0x27E00000 = movWord := by
  decide +kernel

theorem chain_site : Site sampleSymbols chainState.mem 0x27E00000 := by
  have empty : numPhdrs chainState.mem = 0 := by decide +kernel
  have identity : iosElfVaddrToPaddr chainState.mem 0x27E00000 = 0x27E00000 := by
    rw [iosElfVaddrToPaddr, empty]
    rfl
  refine ⟨outside_sample chainState.mem 0x27E00000 empty (by decide), ?_⟩
  rw [identity, tableBytes, empty]
  exact apart_of_order (by decide) (by decide)

/-- The trampolines of the sample are in the block of the address. -/
def Near (copies : List Copy) : Prop :=
  ∀ copy ∈ copies, copy.base >>> 26 = 0x27E00000#32 >>> 26 ∧ copy.base ≠ 0#32 ∧
    -2 ^ 25 ≤ (copy.base - 0x27E00000#32 - 8#32).toInt ∧
    (copy.base - 0x27E00000#32 - 8#32).toInt < 2 ^ 25 ∧
    0x10000000 ≤ copy.base.toNat ∧ copy.base.toNat + copy.size ≤ 2 ^ 32

instance (copies : List Copy) : Decidable (Near copies) := List.decidableBAll ..

theorem chain_sees (calls : List HookCall) (near : Near (chained calls).2)
    (word : read32 (chained calls).1.mem 0x27E00000 = insAt (chained calls).1.mem 0x27E00000) :
    InReach sampleSymbols 0x27E00000 (chained calls).2 ∧
      Sees sampleSymbols 0x27E00000 (chained calls).1 (chained calls).2 (chainCpu calls) := by
  have own : ∀ copy ∈ (chained calls).2,
      trampolineFindMapping sampleSymbols 0x27E00000 copy.base 26 = some copy.base := by
    intro copy member
    unfold trampolineFindMapping mappings
    rw [List.find?_cons_of_pos]
    exact beq_iff_eq.mpr (near copy member).1
  have top : (chainCpu calls).regs sp = 0x10000000#32 := rfl
  refine ⟨?_, rfl, rfl, word, ?_, by rw [top]; decide, ?_⟩
  · intro copy member alt found
    rw [own copy member] at found
    cases found
    obtain ⟨_, known, lower, upper, _⟩ := near copy member
    exact ⟨⟨lower, upper⟩, known⟩
  · intro copy member alt found
    rw [own copy member] at found
    cases found
    exact fun _ _ => rfl
  · intro area member
    obtain ⟨copy, inside, same⟩ := List.mem_filterMap.mp member
    rw [own copy inside] at same
    cases same
    obtain ⟨_, _, _, _, above, below⟩ := near copy inside
    rw [top]
    exact (apart_of_order above below).comm

theorem chain_pool : Pool sampleSymbols chainState [] := sampleWith_pool movWord

theorem chained_ran {calls : List HookCall}
    (ok : (performAll sampleSymbols (calls.map (·.on 0x27E00000)) chainState).isSome = true) :
    performAll sampleSymbols (calls.map (·.on 0x27E00000)) chainState =
      some ((chained calls).1, (chained calls).2) := by
  obtain ⟨result, ran⟩ := Option.isSome_iff_exists.mp ok
  unfold chained
  rw [ran]
  rfl

def mixed : List HookCall := [⟨false, 0x27C00000⟩, ⟨true, 0x27C00100⟩]

theorem hooks_chain_mixed :
    RunsTargets (fun _ _ => none) (mapped sampleSymbols 0x27E00000 (chained mixed).2)
      (Finishes (fun _ _ => none) (mapped sampleSymbols 0x27E00000 (chained mixed).2) 0x27E00000
        (insAt chainState.mem 0x27E00000)) mixed.reverse (chainCpu mixed) (chainCpu mixed) := by
  have sees := chain_sees mixed (by decide +kernel) (by decide +kernel)
  refine hooks_chain (fun _ _ => none) sampleSymbols_laid (by decide) chain_pool
    (by decide) chain_site mixed (.inr ⟨?_, by decide⟩) (chained_ran (by decide +kernel)) sees.1
    (chainCpu mixed) sees.2
  rw [chain_ins]
  exact mov_relocatable _

/-- The second install takes the `B` of the first one for the instruction. -/
def jumped : List HookCall := [⟨true, 0x27C00100⟩, ⟨false, 0x27C00000⟩]

/-- A target that returns at once -/
def returned (e : Cpu) : Cpu := e.interwork (e.regs lr)

theorem jumped_first (n : Nat) (e : Cpu) (ran : run (fun _ _ => none) n (chainCpu jumped) = some e)
    (there : e.pc = 0x27C00000) : n = 5 := by
  have early : ∀ n < 6, (run (fun _ _ => none) n (chainCpu jumped)).map (·.pc) = some 0x27C00000 →
      n = 5 := by decide +kernel
  have stops : run (fun _ _ => none) 6 (chainCpu jumped) = none := by
    apply Option.isNone_iff_eq_none.mp
    decide +kernel
  by_cases short : n < 6
  · apply early n short
    rw [ran, Option.map_some, there]
  · rw [run_stops _ stops (by omega)] at ran
    cases ran

theorem jumped_second (n : Nat) (e f : Cpu)
    (first : run (fun _ _ => none) 5 (chainCpu jumped) = some e)
    (ran : run (fun _ _ => none) n (returned e) = some f) : f.pc ≠ 0x27C00100 := by
  have early : ∀ n < 3, (((run (fun _ _ => none) 5 (chainCpu jumped)).map returned).bind
      (run (fun _ _ => none) n)).map (·.pc) ≠ some 0x27C00100 := by decide +kernel
  have stops : ((run (fun _ _ => none) 5 (chainCpu jumped)).map returned).bind
      (run (fun _ _ => none) 3) = none := by
    apply Option.isNone_iff_eq_none.mp
    decide +kernel
  rw [first] at early stops
  by_cases short : n < 3
  · intro there
    apply early n short
    rw [Option.map_some, Option.bind_some, ran, Option.map_some, there]
  · rw [run_stops _ stops (by omega)] at ran
    cases ran

theorem before_behind_v2 :
    ∃ copies last c, Site sampleSymbols chainState.mem 0x27E00000 ∧
      Relocatable (fun _ _ => none) (insAt chainState.mem 0x27E00000) ∧
      performAll sampleSymbols (jumped.map (·.on 0x27E00000)) chainState = some (last, copies) ∧
      InReach sampleSymbols 0x27E00000 copies ∧ Sees sampleSymbols 0x27E00000 last copies c ∧
      ¬ RunsTargets (fun _ _ => none) (mapped sampleSymbols 0x27E00000 copies)
        (Finishes (fun _ _ => none) (mapped sampleSymbols 0x27E00000 copies) 0x27E00000
          (insAt chainState.mem 0x27E00000)) jumped.reverse c c := by
  have sees := chain_sees jumped (by decide +kernel) (by decide +kernel)
  refine ⟨(chained jumped).2, (chained jumped).1, chainCpu jumped, chain_site, ?_,
    chained_ran (by decide +kernel), sees.1, sees.2, ?_⟩
  · rw [chain_ins]
    exact mov_relocatable _
  · rintro ⟨n, e, link, ran, enters, _, runs⟩
    have pc : e.pc = 0x27C00000 := enters.pc
    have five := jumped_first n e ran pc
    subst five
    obtain ⟨k, f, link, later, second, _⟩ := runs (returned e)
      ⟨⟨rfl, rfl, rfl, fun _ _ _ => rfl⟩, rfl, nofun, fun _ _ => Same.refl _ _ _⟩
    exact jumped_second k e f ran later second.pc

end Sample

end Stroopwafel.Trampoline
