import Stroopwafel.TrampolineReach

set_option autoImplicit false

namespace Stroopwafel.Trampoline

open Memory Arm IosElf

/-- `trampoline_hook_before` or `trampoline_hook_before_v2` -/
structure HookCall where
  v2 : Bool
  target : Word

namespace HookCall

def hook (call : HookCall) : Hook := if call.v2 then .beforeV2 else .before

def on (call : HookCall) (addr : Word) : Call := ⟨call.hook.kind, addr, call.target⟩

/-- The body that goes on at `dst` -/
def chainWords (call : HookCall) (dst : Word) : List Word :=
  if call.v2 then
    fill Proto.hookbeforeLr.code [(Proto.hookbeforeLr.target, call.target), (hookbeforeLrRet, dst)]
  else fill Proto.hookbefore.code [(Proto.hookbefore.target, call.target), (hookbeforeChain, dst)]

/-- The body with the instruction of `addr` in it -/
def lastWords (call : HookCall) (addr ins : Word) : List Word :=
  if call.v2 then
    fill Proto.hookbeforeLr.code
      [(Proto.hookbeforeLr.target, call.target), (hookbeforeLrRet, addr + 4#32),
        (hookbeforeLrOrgins, ins)]
  else fill Proto.hookbefore.code [(Proto.hookbefore.target, call.target), (hookbeforeOrgins, ins)]

section Plans

variable (call : HookCall) (addr ins : Word)

theorem plan_bl (branches : blTarget addr ins ≠ 0#32) :
    ((call.on addr).plan ins).words = call.chainWords (blTarget addr ins) ∧
      ((call.on addr).plan ins).link = .bl := by
  obtain ⟨v2, target⟩ := call
  cases v2 with
  | true => simp [on, hook, Hook.kind, Call.plan, Plan.words, chainWords, branches]
  | false => simp [on, hook, Hook.kind, Call.plan, Plan.words, chainWords, branches]

theorem plan_b (v2 : call.v2 = true) (none : blTarget addr ins = 0#32)
    (branches : bTarget addr ins ≠ 0#32) :
    ((call.on addr).plan ins).words = call.chainWords (bTarget addr ins) ∧
      ((call.on addr).plan ins).link = .b := by
  obtain ⟨v2, target⟩ := call
  cases v2
  simp [on, hook, Hook.kind, Call.plan, Plan.words, chainWords, none, branches]

theorem plan_plain (none : blTarget addr ins = 0#32) (straight : bTarget addr ins = 0#32) :
    ((call.on addr).plan ins).words = call.lastWords addr ins ∧
      ((call.on addr).plan ins).link = if call.v2 then .b else .bl := by
  obtain ⟨v2, target⟩ := call
  cases v2 with
  | true => simp [on, hook, Hook.kind, Call.plan, Plan.words, lastWords, none, straight]
  | false => simp [on, hook, Hook.kind, Call.plan, Plan.words, lastWords, none]

end Plans

end HookCall

/-- A trampoline of the chain, and where the branch to it leads -/
structure Node where
  call : HookCall
  copy : Copy
  alt : Word

/-- The trampolines that a branch to `dst` runs through, one behind the other -/
inductive Leads (addr ins : Word) : Word → List Node → Prop where
  | callee (dst : Word) (calls : Callee false addr ins dst) : Leads addr ins dst []
  | last (node : Node) (words : node.copy.words = node.call.lastWords addr ins)
      (plain : Plain false addr ins) : Leads addr ins node.alt [node]
  | chain (node : Node) (rest : List Node) (dst : Word)
      (words : node.copy.words = node.call.chainWords dst) (leads : Leads addr ins dst rest) :
      Leads addr ins node.alt (node :: rest)

/-- What stands at the hooked address that had the word `ins`, behind the installs of `nodes` -/
inductive Stage (addr ins word : Word) : List Node → Prop where
  | plain (same : word = ins) (none : blTarget addr ins = 0#32)
      (straight : bTarget addr ins = 0#32) :
      Stage addr ins word []
  | linked (nodes : List Node) (branches : blTarget addr word ≠ 0#32)
      (leads : Leads addr ins (blTarget addr word) nodes) : Stage addr ins word nodes
  | jump (nodes : List Node) (none : blTarget addr word = 0#32)
      (branches : bTarget addr word ≠ 0#32)
      (leads : Leads addr ins (bTarget addr word) nodes) (plain : Plain false addr ins)
      (v2 : ∀ node ∈ nodes, node.call.v2 = true) : Stage addr ins word nodes

/-- Without a `BL` at the address, no `hook_before` comes behind a `B`, be it there or the one that
the first call leaves. -/
def Suits (addr word : Word) (calls : List HookCall) : Prop :=
  blTarget addr word = 0#32 →
    bTarget addr word ≠ 0#32 ∨ calls.head?.any (·.v2) = true → ∀ call ∈ calls, call.v2 = true

theorem bl_word_target {addr alt : Word} (reaches : Reaches addr alt) :
    blTarget addr (Link.bl.word addr alt) = alt := by
  rw [blTarget_eq addr _ _ (Link.bl_decodes addr alt reaches), BitVec.add_comm,
    BitVec.sub_add_cancel]

theorem b_word_target {addr alt : Word} (reaches : Reaches addr alt) :
    bTarget addr (Link.b.word addr alt) = alt ∧ blTarget addr (Link.b.word addr alt) = 0#32 := by
  have decoded := Link.b_decodes addr alt reaches
  constructor
  · rw [bTarget_eq addr _ _ decoded, BitVec.add_comm, BitVec.sub_add_cancel]
  · apply blTarget_other
    rw [((decodeArm_b_iff _ _).mp decoded).1]
    decide

/-- One more install leads through its trampoline to what was there. -/
theorem Stage.install {addr ins word alt : Word} {nodes : List Node} {call : HookCall} {copy : Copy}
    {rest : List HookCall} (stage : Stage addr ins word nodes)
    (suits : Suits addr word (call :: rest))
    (words : copy.words = ((call.on addr).plan word).words) (reaches : Reaches addr alt)
    (known : alt ≠ 0#32) :
    let word' := ((call.on addr).plan word).link.word addr alt
    Stage addr ins word' (⟨call, copy, alt⟩ :: nodes) ∧ Suits addr word' rest := by
  intro word'
  have bl (link : ((call.on addr).plan word).link = .bl) : blTarget addr word' = alt := by
    unfold word'
    rw [link]
    exact bl_word_target reaches
  have b (link : ((call.on addr).plan word).link = .b) :
      bTarget addr word' = alt ∧ blTarget addr word' = 0#32 := by
    unfold word'
    rw [link]
    exact b_word_target reaches
  have linked (leads : Leads addr ins alt (⟨call, copy, alt⟩ :: nodes))
      (link : ((call.on addr).plan word).link = .bl) :
      Stage addr ins word' (⟨call, copy, alt⟩ :: nodes) ∧ Suits addr word' rest := by
    have target := bl link
    refine ⟨.linked _ ?_ ?_, ?_⟩
    · rw [target]
      exact known
    · rw [target]
      exact leads
    · intro none
      rw [target] at none
      exact absurd none known
  have jump (leads : Leads addr ins alt (⟨call, copy, alt⟩ :: nodes))
      (link : ((call.on addr).plan word).link = .b) (calls : Plain false addr ins)
      (v2 : ∀ node ∈ (⟨call, copy, alt⟩ :: nodes : List Node), node.call.v2 = true)
      (later : ∀ call ∈ rest, call.v2 = true) :
      Stage addr ins word' (⟨call, copy, alt⟩ :: nodes) ∧ Suits addr word' rest := by
    obtain ⟨target, none⟩ := b link
    refine ⟨.jump _ none ?_ ?_ calls v2, fun _ _ => later⟩
    · rw [target]
      exact known
    · rw [target]
      exact leads
  cases stage with
  | plain same none straight =>
      rw [← same] at none straight
      obtain ⟨body, link⟩ := call.plan_plain addr word none straight
      have calls := callee_or_plain addr word
      rw [if_pos none, same] at calls
      have leads : Leads addr ins alt [⟨call, copy, alt⟩] := by
        rw [same] at body
        exact .last ⟨call, copy, alt⟩ (by rw [words, same]; exact body) calls
      cases v2 : call.v2 with
      | true =>
          rw [v2, if_pos rfl] at link
          have all := suits none (.inr v2)
          refine jump leads link calls ?_ fun call member =>
            all call (List.mem_cons_of_mem _ member)
          intro node member
          rw [List.mem_singleton.mp member]
          exact v2
      | false =>
          rw [v2] at link
          exact linked leads link
  | linked nodes branches leads =>
      obtain ⟨body, link⟩ := call.plan_bl addr word branches
      exact linked (.chain ⟨call, copy, alt⟩ nodes _ (words.trans body) leads) link
  | jump nodes none branches leads plain v2 =>
      have all := suits none (.inl branches)
      have first := all call List.mem_cons_self
      obtain ⟨body, link⟩ := call.plan_b addr word first none branches
      refine jump (.chain ⟨call, copy, alt⟩ nodes _ (words.trans body) leads) link plain ?_
        fun call member => all call (List.mem_cons_of_mem _ member)
      intro node member
      rcases List.mem_cons.mp member with rfl | member
      · exact first
      · exact v2 node member

/-- The hooked address is none of the table, the pool and the prototypes. -/
structure Site (sym : Symbols) (m : Mem) (addr : Word) : Prop where
  outside : Outside sym m addr
  table : Apart phdrs (tableBytes m) (iosElfVaddrToPaddr m addr) 4

theorem Effect.table {sym : Symbols} {s s' : State} {addr : Word} {plan : Plan} {copies : List Copy}
    (effect : Effect sym s s' addr plan) (pool : Pool sym s copies) (site : Site sym s.mem addr) :
    Same s.mem s'.mem phdrs (tableBytes s.mem) := by
  have room := effect.room
  exact effect.frame _ _ (site.outside.tableProtos plan.proto)
    (site.outside.tablePool.within pool.lower (by omega)) site.table

/-- An install leaves the header table alone, so the address stays where it is. -/
theorem Effect.site {sym : Symbols} {s s' : State} {addr : Word} {plan : Plan} {copies : List Copy}
    (effect : Effect sym s s' addr plan) (pool : Pool sym s copies) (site : Site sym s.mem addr) :
    iosElfVaddrToPaddr s'.mem addr = iosElfVaddrToPaddr s.mem addr ∧ Site sym s'.mem addr := by
  have table := effect.table pool site
  have same := iosElfVaddrToPaddr_same table addr
  have bytes := tableBytes_same table
  have outside := site.outside
  refine ⟨same, ⟨?_, ?_, ?_, ?_⟩, ?_⟩
  · rw [same]
    exact outside.pool
  · rw [same]
    exact outside.protos
  · rw [bytes]
    exact outside.tablePool
  · rw [bytes]
    exact outside.tableProtos
  · rw [same, bytes]
    exact site.table

/-- The address is within reach of the branch, and 0 stands for no branch. -/
def InReach (sym : Symbols) (addr : Word) (copies : List Copy) : Prop :=
  ∀ copy ∈ copies, ∀ alt, trampolineFindMapping sym addr copy.base 26 = some alt →
    Within .bl addr alt ∧ alt ≠ 0#32

theorem HookCall.plan_offsetBits (call : HookCall) (addr ins : Word) :
    ((call.on addr).plan ins).link.offsetBits = 26 := by
  by_cases branches : blTarget addr ins = 0#32
  · obtain ⟨v2, target⟩ := call
    cases v2 with
    | true =>
        simp only [on, hook, Hook.kind, Call.plan, branches, if_true, ne_eq, not_true_eq_false,
          if_false]
        rfl
    | false => rfl
  · rw [(call.plan_bl addr ins branches).2]
    rfl

theorem alt_aligned {sym : Symbols} (base : Aligned sym.wafelPluginBaseAddr)
    {addr trampoline alt : Word} (installed : Aligned trampoline)
    (found : trampolineFindMapping sym addr trampoline 26 = some alt) :
    Aligned alt := by
  obtain ⟨_, front, back, split, _⟩ := (findMapping_eq_some_iff _ _ _ _ _).mp found
  apply mapping_aligned sym trampoline alt installed base
  rw [split]
  exact List.mem_append_right _ List.mem_cons_self

/-- What a sequence of installs on one address leaves there -/
theorem installs_stage {sym : Symbols} (laid : sym.Laid) (base : Aligned sym.wafelPluginBaseAddr)
    {addr ins : Word} (aligned : Aligned addr) (calls : List HookCall) {s last : State}
    {earlier copies : List Copy} {nodes : List Node} (pool : Pool sym s earlier)
    (site : Site sym s.mem addr) (stage : Stage addr ins (insAt s.mem addr) nodes)
    (suits : Suits addr (insAt s.mem addr) calls)
    (ran : performAll sym (calls.map (·.on addr)) s = some (last, copies))
    (reach : InReach sym addr copies) :
    ∃ news, Stage addr ins (insAt last.mem addr) (news ++ nodes) ∧
      news.map Node.call = calls.reverse ∧
      (∀ node ∈ news, node.copy ∈ copies ∧
        trampolineFindMapping sym addr node.copy.base 26 = some node.alt) ∧
      Pool sym last (earlier ++ copies) := by
  induction calls generalizing s earlier copies nodes with
  | nil =>
      cases ran
      refine ⟨[], stage, rfl, ?_, ?_⟩
      · intro node member
        cases member
      · rw [List.append_nil]
        exact pool
  | cons call rest ih =>
      obtain ⟨next, later, first, more, rfl⟩ := performAll_cons ran
      have effect : Effect sym s next addr ((call.on addr).plan (insAt s.mem addr)) :=
        Call.effect laid pool site.outside first
      obtain ⟨same, site'⟩ := effect.site pool site
      have grown := effect.pool laid (Call.plan_proper _ _) pool site.outside
      obtain ⟨alt, found, word⟩ := effect.patched
      rw [call.plan_offsetBits] at found
      have cursor : Aligned s.trampolineNext := (aligned_iff _).mpr pool.aligned
      have there := alt_aligned base cursor found
      obtain ⟨within, known⟩ := reach _ List.mem_cons_self alt found
      have reaches : Reaches addr alt := ⟨distance_multiple addr alt aligned there, within⟩
      have patched : insAt next.mem addr =
          ((call.on addr).plan (insAt s.mem addr)).link.word addr alt := by
        rw [insAt, same]
        exact word
      have words : ((call.on addr).copy s).words =
          ((call.on addr).plan (insAt s.mem addr)).words := rfl
      obtain ⟨stage', suits'⟩ := stage.install suits words reaches known
      rw [← patched] at stage' suits'
      obtain ⟨news, final, performed, placed, pool'⟩ := ih grown site' stage' suits' more
        fun copy member => reach copy (List.mem_cons_of_mem _ member)
      refine ⟨news ++ [⟨call, (call.on addr).copy s, alt⟩], ?_, ?_, ?_, ?_⟩
      · rw [List.append_assoc]
        exact final
      · rw [List.map_append, performed, List.reverse_cons]
        rfl
      · intro node member
        rcases List.mem_append.mp member with new | old
        · obtain ⟨inside, mapped⟩ := placed node new
          exact ⟨List.mem_cons_of_mem _ inside, mapped⟩
        · rw [List.mem_singleton.mp old]
          exact ⟨List.mem_cons_self, found⟩
      · rw [List.append_assoc] at pool'
        exact pool'

end Stroopwafel.Trampoline
