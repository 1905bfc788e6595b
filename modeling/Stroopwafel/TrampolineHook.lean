import Stroopwafel.TrampolineReplace

set_option autoImplicit false

namespace Stroopwafel.Trampoline

open Memory Arm IosElf

abbrev armSaved : List Reg := [0, 1, 2, 3, 4, 5, 6, 7, 8, 9, 10, 11, 12]
abbrev thumbSaved : List Reg := [0, 1, 2, 3, 4, 5, 6, 7]

/-- The bytes of a state structure: the registers and the link register. -/
def stateBytes (saved : List Reg) : Nat := 4 * (saved.length + 1)

/-- What the target of a hook finds, for a machine `c` at the first instruction of
the trampoline. -/
structure HookEntered (saved : List Reg) (target back : Word) (c e : Cpu) : Prop where
  pc : e.pc = target &&& ~~~1#32
  thumb : e.thumb = target.getLsbD 0
  link : e.regs lr = back
  argument : e.regs 0#4 = e.regs sp
  sp : e.regs Arm.sp = c.regs Arm.sp - BitVec.ofNat 32 (stateBytes saved)
  state : WordsAt e.mem (e.regs Arm.sp) (saved.map c.regs ++ [c.regs lr])
  kept : ∀ r, r ∉ saved → r ≠ Arm.sp → r ≠ lr → e.regs r = c.regs r
  frame : ∀ a n, Apart a n (c.regs Arm.sp - BitVec.ofNat 32 (stateBytes saved)) (stateBytes saved) →
    Same c.mem e.mem a n

/-- The registers of `f` are those of the state structure on the stack of `t`, which
is taken off. -/
structure Restored (saved : List Reg) (t f : Cpu) : Prop where
  regs : ∀ i, (inside : i < saved.length) →
    f.regs saved[i] = read32 t.mem (t.regs sp + BitVec.ofNat 32 (4 * i))
  link : f.regs lr = read32 t.mem (t.regs sp + BitVec.ofNat 32 (4 * saved.length))
  sp : f.regs Arm.sp = t.regs Arm.sp + BitVec.ofNat 32 (stateBytes saved)
  kept : ∀ r, r ∉ saved → r ≠ Arm.sp → r ≠ lr → f.regs r = t.regs r

theorem Restored.congr {saved : List Reg} {t t' f f' : Cpu} (restored : Restored saved t f)
    (before : t'.regs = t.regs) (mem : t'.mem = t.mem) (after : f'.regs = f.regs) :
    Restored saved t' f' := by
  obtain ⟨words, link, top, kept⟩ := restored
  rw [← before, ← mem, ← after] at words link
  rw [← before, ← after] at top kept
  exact ⟨words, link, top, kept⟩

/-- The machine continues at `dst`, in the instruction set its lowest bit selects. -/
structure At (dst : Word) (f : Cpu) : Prop where
  pc : f.pc = dst &&& ~~~1#32
  thumb : f.thumb = dst.getLsbD 0

section Heads

variable (other : Word → Cpu → Option Cpu) (c : Cpu) (base target : Word) (ws : List Word)
  (offset k : Nat)

/-- The start that both ARM bodies share. -/
theorem hookbefore_head (push : insnAt false ws 0 = some (.push 0x5FFF#16))
    (pass : insnAt false ws 1 = some (.mov 0 sp))
    (load : insnAt false ws 2 = some (.ldrPc .al lr (BitVec.ofNat 32 offset)))
    (call : insnAt false ws 3 = some (.blx lr))
    (index : (16 + offset) % 2 ^ 32 = 4 * k) (literal : ws[k]? = some target)
    (fetch : Fetch false base ws 0 c) (below : Below base (4 * ws.length) (c.regs sp) 56) :
    ∃ e, run other 4 c = some e ∧ HookEntered armSaved target (base + 16#32) c e := by
  obtain ⟨aligned, apart⟩ := below
  obtain ⟨step0, fetch⟩ := fetch.push other 0x5FFF#16
    [0, 1, 2, 3, 4, 5, 6, 7, 8, 9, 10, 11, 12, lr] push rfl aligned apart
  obtain ⟨step1, fetch⟩ := fetch.mov other 0 sp pass
  obtain ⟨step2, fetch⟩ := fetch.ldrPc other lr offset k target load (by decide) (by decide) index
    literal
  have step3 := fetch.blx other lr call
  refine ⟨_, run_succ other step0 (run_succ other step1 (run_succ other step2
    (run_succ other step3 rfl))), ?_⟩
  refine ⟨by simp, by simp, ?_, ?_, ?_, ?_, ?_, ?_⟩
  · have back := fetch.returnAddress
    simpa [insnBytes] using back
  · simp (disch := decide)
  · simp (disch := decide) [stateBytes]
  · simp (disch := decide)
    exact writeWords_wordsAt c.mem _ [c.regs 0, c.regs 1, c.regs 2, c.regs 3, c.regs 4, c.regs 5,
      c.regs 6, c.regs 7, c.regs 8, c.regs 9, c.regs 10, c.regs 11, c.regs 12, c.regs lr] (by simp)
  · intro r absent notSp notLr
    have notZero : r ≠ 0#4 := fun same => absent (by simp [same])
    simp (disch := assumption)
  · intro a n outside
    simp
    exact writeWords_below c.mem 56 _ outside (by decide) (by simp)

/-- The start that both Thumb bodies share. -/
theorem tHookbefore_head (push : insnAt true ws 0 = some (.push 0x40FF#16))
    (load : insnAt true ws 1 = some (.ldrPc .al 7 (BitVec.ofNat 32 offset)))
    (pass : insnAt true ws 2 = some (.mov 0 sp)) (call : insnAt true ws 3 = some (.blx 7))
    (index : (4 + offset) % 2 ^ 32 = 4 * k) (literal : ws[k]? = some target)
    (fetch : Fetch true base ws 0 c) (below : Below base (4 * ws.length) (c.regs sp) 36) :
    ∃ e, run other 4 c = some e ∧
      HookEntered thumbSaved target ((base + 8#32) ||| 1#32) c e := by
  obtain ⟨aligned, apart⟩ := below
  obtain ⟨step0, fetch⟩ := fetch.push other 0x40FF#16 [0, 1, 2, 3, 4, 5, 6, 7, lr] push rfl aligned
    apart
  obtain ⟨step1, fetch⟩ := fetch.ldrPc other 7 offset k target load (by decide) (by decide) index
    literal
  obtain ⟨step2, fetch⟩ := fetch.mov other 0 sp pass
  have step3 := fetch.blx other 7 call
  refine ⟨_, run_succ other step0 (run_succ other step1 (run_succ other step2
    (run_succ other step3 rfl))), ?_⟩
  refine ⟨by simp, by simp, ?_, ?_, ?_, ?_, ?_, ?_⟩
  · have back := fetch.returnAddress
    simpa [insnBytes] using back
  · simp (disch := decide)
  · simp (disch := decide) [stateBytes]
  · simp (disch := decide)
    exact writeWords_wordsAt c.mem _ [c.regs 0, c.regs 1, c.regs 2, c.regs 3, c.regs 4, c.regs 5,
      c.regs 6, c.regs 7, c.regs lr] (by simp)
  · intro r absent notSp notLr
    have notZero : r ≠ 0#4 := fun same => absent (by simp [same])
    have notSeven : r ≠ 7#4 := fun same => absent (by simp [same])
    simp (disch := assumption)
  · intro a n outside
    simp
    exact writeWords_below c.mem 36 _ outside (by decide) (by simp)

end Heads

section Tails

variable (other : Word → Cpu → Option Cpu) (t : Cpu) (base : Word) (ws : List Word)

/-- One instruction that takes a whole structure off the stack. -/
theorem pop_restores {thumb : Bool} {j : Nat} (fetch : Fetch thumb base ws j t)
    (saved : List Reg) (list : BitVec 16) (decoded : insnAt thumb ws j = some (.pop list))
    (listed : regList (list &&& 0x7FFF#16) = saved ++ [lr]) (stays : list.getLsbD 15 = false)
    (distinct : (saved ++ [lr]).Nodup) (notSp : sp ∉ saved) (aligned : Aligned (t.regs sp)) :
    ∃ f, step other t = some f ∧ Restored saved t f ∧ f.mem = t.mem ∧ f.flags = t.flags ∧
      Fetch thumb base ws (j + 1) f := by
  obtain ⟨popped, fetch⟩ := fetch.pop other list _ decoded listed stays aligned
  have loaded : ∀ i, (inside : i < (saved ++ [lr]).length) → (saved ++ [lr])[i] ≠ sp →
      (t.pop (saved ++ [lr])).regs (saved ++ [lr])[i] =
        read32 t.mem (t.regs sp + BitVec.ofNat 32 (4 * i)) := by
    intro i inside away
    rw [Cpu.pop_other _ _ _ away, loadRegs_getElem t.mem _ _ _ distinct i inside]
  refine ⟨_, popped, ⟨?_, ?_, ?_, ?_⟩, rfl, rfl, fetch⟩
  · intro i inside
    have word := loaded i (by rw [List.length_append]; omega)
    rw [List.getElem_append_left inside] at word
    exact word fun same => notSp (same ▸ List.getElem_mem inside)
  · have word := loaded saved.length (by simp)
    rw [List.getElem_append_right (Nat.le_refl _)] at word
    simp only [Nat.sub_self, List.getElem_cons_zero] at word
    exact word (by decide)
  · rw [Cpu.next_regs, Cpu.pop_sp, List.length_append]
    rfl
  · intro r absent notTop notLink
    rw [Cpu.next_regs, Cpu.pop_other _ _ _ notTop, loadRegs_absent]
    simp [absent, notLink]

/-- After the structure is taken off, a load of the word with index `k` into `PC`. -/
theorem pop_restores_jump {thumb : Bool} {j : Nat} (fetch : Fetch thumb base ws j t)
    (saved : List Reg) (list : BitVec 16) (decoded : insnAt thumb ws j = some (.pop list))
    (listed : regList (list &&& 0x7FFF#16) = saved ++ [lr]) (stays : list.getLsbD 15 = false)
    (distinct : (saved ++ [lr]).Nodup) (notSp : sp ∉ saved) (aligned : Aligned (t.regs sp))
    (cond : Cond) (offset k : Nat) (dst : Word)
    (jump : insnAt thumb ws (j + 1) = some (.ldrPc cond 15#4 (BitVec.ofNat 32 offset)))
    (taken : cond.holds t.flags = true) (bound : insnBytes thumb * (j + 1 + 2) < 2 ^ 32)
    (index : (insnBytes thumb * (j + 1 + 2) - insnBytes thumb * (j + 1 + 2) % 4 + offset) % 2 ^ 32 =
      4 * k)
    (literal : ws[k]? = some dst) :
    ∃ f, run other 2 t = some f ∧ Restored saved t f ∧ At dst f ∧ f.mem = t.mem := by
  obtain ⟨f, popped, restored, mem, flags, fetch⟩ := pop_restores other t base ws fetch saved list
    decoded listed stays distinct notSp aligned
  have jumped := fetch.ldrPc_jump other cond offset k dst jump (by rwa [flags]) bound index literal
  exact ⟨_, run_succ other popped (run_succ other jumped rfl), restored.congr rfl rfl rfl,
    ⟨rfl, rfl⟩, mem⟩

theorem hookbefore_chain (target dst : Word)
    (fetch : Fetch false base
      (fill Proto.hookbefore.code [(Proto.hookbefore.target, target), (hookbeforeChain, dst)]) 4 t)
    (aligned : Aligned (t.regs sp)) :
    ∃ f, run other 2 t = some f ∧ Restored armSaved t f ∧ At dst f ∧ f.mem = t.mem :=
  pop_restores_jump other t base _ fetch armSaved 0x5FFF#16 rfl rfl rfl (by decide) (by decide)
    aligned .al 0xFFFFFFFC 6 dst rfl rfl (by decide) rfl rfl

theorem hookbefore_original (target ins : Word)
    (fetch : Fetch false base
      (fill Proto.hookbefore.code [(Proto.hookbefore.target, target), (hookbeforeOrgins, ins)]) 4 t)
    (aligned : Aligned (t.regs sp)) :
    ∃ f, run other 1 t = some f ∧ Restored armSaved t f ∧ f.mem = t.mem ∧
      Fetch false base
        (fill Proto.hookbefore.code [(Proto.hookbefore.target, target), (hookbeforeOrgins, ins)])
        5 f := by
  obtain ⟨f, popped, restored, mem, _, fetch⟩ := pop_restores other t base _ fetch armSaved
    0x5FFF#16 rfl rfl rfl (by decide) (by decide) aligned
  exact ⟨f, run_succ other popped rfl, restored, mem, fetch⟩

/-- What the body for results has behind the call, whether or not an instruction was
put into its place. -/
structure ReturnsResult (ws : List Word) (ret : Word) : Prop where
  compare : insnAt false ws 4 = some (.cmp 0#4 0#32)
  pop : insnAt false ws 5 = some (.pop 0x5FFF#16)
  skip : insnAt false ws 6 = some (.ldrPc .ne 15#4 (BitVec.ofNat 32 8))
  leave : insnAt false ws 8 = some (.ldrPc .al 15#4 (BitVec.ofNat 32 0))
  ret : ws[10]? = some ret

theorem compare_zero (result : Word) :
    Cond.ne.holds (Flags.compare result 0#32) = true ↔ result ≠ 0#32 := by
  simp [Cond.holds, Flags.compare]

/-- The result is tested before the registers are restored. -/
theorem hookbeforeLr_true (ret : Word) (body : ReturnsResult ws ret)
    (fetch : Fetch false base ws 4 t) (aligned : Aligned (t.regs sp))
    (result : t.regs 0#4 ≠ 0#32) :
    ∃ f, run other 3 t = some f ∧ Restored armSaved t f ∧ At ret f ∧ f.mem = t.mem := by
  obtain ⟨step0, fetch⟩ := fetch.cmp other 0#4 0#32 body.compare
  obtain ⟨f, ran, restored, arrived, mem⟩ := pop_restores_jump other _ base ws fetch armSaved
    0x5FFF#16 body.pop rfl rfl (by decide) (by decide) aligned .ne 8 10 ret body.skip
    ((compare_zero _).mpr result) (by decide) rfl body.ret
  exact ⟨f, run_succ other step0 ran, restored.congr rfl rfl rfl, arrived, mem⟩

theorem hookbeforeLr_false (ret : Word) (body : ReturnsResult ws ret)
    (fetch : Fetch false base ws 4 t) (aligned : Aligned (t.regs sp))
    (result : t.regs 0#4 = 0#32) :
    ∃ f, run other 3 t = some f ∧ Restored armSaved t f ∧ f.mem = t.mem ∧
      Fetch false base ws 7 f := by
  obtain ⟨step0, fetch⟩ := fetch.cmp other 0#4 0#32 body.compare
  obtain ⟨f, step1, restored, mem, flags, fetch⟩ := pop_restores other _ base ws fetch armSaved
    0x5FFF#16 body.pop rfl rfl (by decide) (by decide) aligned
  have skipped : Cond.ne.holds f.flags = false := by
    rw [flags]
    exact Bool.eq_false_iff.mpr fun taken => (compare_zero _).mp taken result
  obtain ⟨step2, fetch⟩ := fetch.ldrPc_skip other .ne 15#4 _ body.skip skipped
  exact ⟨_, run_succ other step0 (run_succ other step1 (run_succ other step2 rfl)),
    restored.congr rfl rfl rfl, mem, fetch⟩

/-- Nothing was put into the place of the instruction. -/
theorem hookbeforeLr_branch (ret : Word) (body : ReturnsResult ws ret)
    (nop : insnAt false ws 7 = some (.mov 0#4 0#4)) (fetch : Fetch false base ws 4 t)
    (aligned : Aligned (t.regs sp)) :
    ∃ n f, run other n t = some f ∧ Restored armSaved t f ∧ At ret f ∧ f.mem = t.mem := by
  by_cases result : t.regs 0#4 = 0#32
  · obtain ⟨f, ran, restored, mem, fetch⟩ := hookbeforeLr_false other t base ws ret body fetch
      aligned result
    obtain ⟨step3, fetch⟩ := fetch.mov other 0#4 0#4 nop
    have step4 := fetch.ldrPc_jump other .al 0 10 ret body.leave rfl (by decide) rfl body.ret
    refine ⟨3 + 2, _, run_add other ran (run_succ other step3 (run_succ other step4 rfl)),
      restored.congr rfl rfl ?_, ⟨rfl, rfl⟩, mem⟩
    funext r
    by_cases zero : r = 0#4
    · subst r
      simp
    · simp (disch := assumption)
  · obtain ⟨f, rest⟩ := hookbeforeLr_true other t base ws ret body fetch aligned result
    exact ⟨3, f, rest⟩

/-- The link register is restored through a low register, before that one is. -/
theorem tHookbefore_original (target ins : Word)
    (fetch : Fetch true base (fill Proto.tHookbefore.code
      [(Proto.tHookbefore.target, target), (tHookbeforeOrgins, ins)]) 4 t)
    (aligned : Aligned (t.regs sp)) :
    ∃ f, run other 4 t = some f ∧ Restored thumbSaved t f ∧ f.mem = t.mem ∧
      Fetch true base (fill Proto.tHookbefore.code
        [(Proto.tHookbefore.target, target), (tHookbeforeOrgins, ins)]) 8 f := by
  obtain ⟨step0, fetch⟩ := fetch.ldrSp other 0 32#32 rfl aligned
  obtain ⟨step1, fetch⟩ := fetch.mov other lr 0 rfl
  obtain ⟨step2, fetch⟩ := fetch.pop other 0x00FF#16 thumbSaved rfl rfl rfl aligned
  obtain ⟨step3, fetch⟩ := fetch.addSp other 4#32 rfl
  refine ⟨_, run_succ other step0 (run_succ other step1 (run_succ other step2
    (run_succ other step3 rfl))), ⟨?_, ?_, ?_, ?_⟩, rfl, fetch⟩
  · intro i inside
    have notSp : thumbSaved[i] ≠ sp := fun same =>
      absurd (same ▸ List.getElem_mem inside : sp ∈ thumbSaved) (by decide)
    simp (disch := assumption) only [Cpu.next_regs, Cpu.set_other, Cpu.pop_other]
    rw [loadRegs_getElem _ _ _ _ (by decide) i inside]
    rfl
  · simp (disch := decide) [loadRegs_absent]
  · simp (disch := decide) [stateBytes, BitVec.add_assoc]
  · intro r absent notTop notLink
    have notZero : r ≠ 0#4 := fun same => absent (by simp [same])
    simp (disch := assumption) [loadRegs_absent]

/-- The callee takes the place of the link register in the structure, once that has
been read. -/
theorem tHookbeforeBl_chain (target dst : Word)
    (fetch : Fetch true base (fill Proto.tHookbeforeBl.code
      [(Proto.tHookbeforeBl.target, target), (tHookbeforeBlChain, dst)]) 4 t)
    (aligned : Aligned (t.regs sp))
    (apart : Apart base Proto.tHookbeforeBl.size (t.regs sp + 32#32) 4) :
    ∃ f, run other 5 t = some f ∧ Restored thumbSaved t f ∧ At dst f ∧
      f.mem = write32 t.mem (t.regs sp + 32#32) dst := by
  obtain ⟨step0, fetch⟩ := fetch.ldrSp other 0 32#32 rfl aligned
  obtain ⟨step1, fetch⟩ := fetch.mov other lr 0 rfl
  obtain ⟨step2, fetch⟩ := fetch.ldrPc other 1 4 5 dst rfl (by decide) (by decide) rfl rfl
  obtain ⟨step3, fetch⟩ := fetch.strSp other 1 32#32 rfl aligned apart
  have step4 := fetch.pop_jump other 0x80FF#16 thumbSaved rfl rfl rfl aligned
  refine ⟨_, run_succ other step0 (run_succ other step1 (run_succ other step2
    (run_succ other step3 (run_succ other step4 rfl)))), ⟨?_, ?_, ?_, ?_⟩, ⟨?_, ?_⟩, ?_⟩
  · intro i inside
    have notSp : thumbSaved[i] ≠ sp := fun same =>
      absurd (same ▸ List.getElem_mem inside : sp ∈ thumbSaved) (by decide)
    have below : Apart (t.regs sp + BitVec.ofNat 32 (4 * i)) 4 (t.regs sp + 32#32) 4 := by
      have short : i < 8 := inside
      exact apart_offsets (t.regs sp) (4 * i) 32 4 4 (by omega) (by decide) (by omega)
    simp (disch := assumption) only [Cpu.interwork_regs, Cpu.set_other, Cpu.pop_other]
    rw [loadRegs_getElem _ _ _ _ (by decide) i inside]
    simp (disch := decide)
    exact read32_write32_apart t.mem _ _ dst below
  · simp (disch := decide) [loadRegs_absent]
  · simp (disch := decide) [stateBytes, BitVec.add_assoc]
  · intro r absent notTop notLink
    have notZero : r ≠ 0#4 := fun same => absent (by simp [same])
    have notOne : r ≠ 1#4 := fun same => absent (by simp [same])
    simp (disch := assumption) [loadRegs_absent]
  · simp (disch := decide)
  · simp (disch := decide)
  · simp (disch := decide)

end Tails

/-- The trampolines that call a target before an instruction. -/
inductive Hook where
  | before
  | beforeV2
  | tBefore
  deriving DecidableEq

namespace Hook

def kind : Hook → Kind
  | before => .hookBefore
  | beforeV2 => .hookBeforeV2
  | tBefore => .tHookBefore

def thumb : Hook → Bool
  | before => false
  | beforeV2 => false
  | tBefore => true

def saved : Hook → List Reg
  | before => armSaved
  | beforeV2 => armSaved
  | tBefore => thumbSaved

/-- Where the hooked instruction is put into the body. -/
def orgins : Hook → Nat
  | before => hookbeforeOrgins
  | beforeV2 => hookbeforeLrOrgins
  | tBefore => tHookbeforeOrgins

/-- The return address of the target, in the body at `base`. -/
def back (h : Hook) (base : Word) : Word :=
  match h with
  | before => base + 16#32
  | beforeV2 => base + 16#32
  | tBefore => (base + 8#32) ||| 1#32

end Hook

/-- The word at `addr` branches to `dst` without a return address. -/
def Jumps (addr ins dst : Word) : Prop :=
  ∃ offset, decodeArm ins = some (.b offset) ∧ dst = addr + offset

/-- No callee can be read from the word at `addr`: 0 stands for none. -/
def Plain (thumb : Bool) (addr ins : Word) : Prop :=
  ∀ dst, Callee thumb addr ins dst → dst = 0#32

theorem callee_or_plain (addr ins : Word) :
    if blTarget addr ins = 0#32 then Plain false addr ins
    else Callee false addr ins (blTarget addr ins) := by
  by_cases top : ins &&& 0xFF000000#32 = 0xEB000000#32
  · have decoded := (decodeArm_bl_iff ins (branchOffset ins)).mpr ⟨top, rfl⟩
    have target := blTarget_eq addr ins _ decoded
    split
    · rename_i zero
      rintro dst ⟨offset, other, rfl⟩
      rw [← blTarget_eq addr ins offset other, zero]
    · exact ⟨_, decoded, target⟩
  · rw [if_pos (blTarget_other addr ins top)]
    rintro dst ⟨offset, decoded, -⟩
    exact absurd ((decodeArm_bl_iff ins offset).mp decoded).1 top

theorem jumps_or_none (addr ins : Word) :
    if bTarget addr ins = 0#32 then ∀ dst, Jumps addr ins dst → dst = 0#32
    else Jumps addr ins (bTarget addr ins) := by
  by_cases top : ins &&& 0xFF000000#32 = 0xEA000000#32
  · have decoded := (decodeArm_b_iff ins (branchOffset ins)).mpr ⟨top, rfl⟩
    have target := bTarget_eq addr ins _ decoded
    split
    · rename_i zero
      rintro dst ⟨offset, other, rfl⟩
      rw [← bTarget_eq addr ins offset other, zero]
    · exact ⟨_, decoded, target⟩
  · rw [if_pos (bTarget_other addr ins top)]
    rintro dst ⟨offset, decoded, -⟩
    exact absurd ((decodeArm_b_iff ins offset).mp decoded).1 top

theorem callee_or_plain_thumb (addr ins : Word) :
    if blTTarget addr ins = 0#32 then Plain true addr ins
    else Callee true addr ins (blTTarget addr ins) := by
  by_cases pair : ins.extractLsb' 16 16 >>> 11 = 0x1E#16 ∧ ins.extractLsb' 0 16 >>> 11 = 0x1F#16
  · have high := (decodeThumb_blHigh_iff (ins.extractLsb' 16 16) _).mpr
      ⟨(top_bits_iff _ 0x1E (by decide)).mp pair.1, rfl⟩
    have low := (decodeThumb_blLow_iff (ins.extractLsb' 0 16) _).mpr
      ⟨(top_bits_iff _ 0x1F (by decide)).mp pair.2, rfl⟩
    have target := blTTarget_eq addr ins _ _ high low
    split
    · rename_i zero
      rintro dst ⟨high', low', first, second, rfl⟩
      rw [← blTTarget_eq addr ins high' low' first second, zero]
    · exact ⟨_, _, high, low, target⟩
  · have none : blTTarget addr ins = 0#32 := by
      rw [blTTarget]
      exact if_pos (Decidable.not_and_iff_not_or_not.mp pair)
    rw [if_pos none]
    rintro dst ⟨high, low, first, second, -⟩
    have top := (top_bits_iff _ 0x1E (by decide)).mpr ((decodeThumb_blHigh_iff _ _).mp first).1
    have bottom := (top_bits_iff _ 0x1F (by decide)).mpr ((decodeThumb_blLow_iff _ _).mp second).1
    exact absurd ⟨top, bottom⟩ pair

namespace Hook

/-- The bodies a hook can have, by the instruction it is put before. -/
inductive Body (addr target ins : Word) : Hook → List Word → Prop where
  | call (dst : Word) (calls : Callee false addr ins dst) (known : dst ≠ 0#32) :
      Body addr target ins before
        (fill Proto.hookbefore.code [(Proto.hookbefore.target, target), (hookbeforeChain, dst)])
  | original (plain : Plain false addr ins) :
      Body addr target ins before
        (fill Proto.hookbefore.code [(Proto.hookbefore.target, target), (hookbeforeOrgins, ins)])
  | callV2 (dst : Word) (calls : Callee false addr ins dst) (known : dst ≠ 0#32) :
      Body addr target ins beforeV2
        (fill Proto.hookbeforeLr.code
          [(Proto.hookbeforeLr.target, target), (hookbeforeLrRet, dst)])
  | jumpV2 (dst : Word) (plain : Plain false addr ins) (jumps : Jumps addr ins dst)
      (known : dst ≠ 0#32) :
      Body addr target ins beforeV2
        (fill Proto.hookbeforeLr.code
          [(Proto.hookbeforeLr.target, target), (hookbeforeLrRet, dst)])
  | originalV2 (plain : Plain false addr ins) (straight : ∀ dst, Jumps addr ins dst → dst = 0#32) :
      Body addr target ins beforeV2
        (fill Proto.hookbeforeLr.code
          [(Proto.hookbeforeLr.target, target), (hookbeforeLrRet, addr + 4#32),
            (hookbeforeLrOrgins, ins)])
  | tCall (dst : Word) (calls : Callee true addr ins dst) (known : dst ≠ 0#32) :
      Body addr target ins tBefore
        (fill Proto.tHookbeforeBl.code
          [(Proto.tHookbeforeBl.target, target), (tHookbeforeBlChain, dst)])
  | tOriginal (plain : Plain true addr ins) :
      Body addr target ins tBefore
        (fill Proto.tHookbefore.code
          [(Proto.tHookbefore.target, target), (tHookbeforeOrgins, ins)])

theorem plan_body (h : Hook) (addr target ins : Word) :
    Body addr target ins h ((Call.mk h.kind addr target).plan ins).words := by
  cases h with
  | before =>
      have calls := callee_or_plain addr ins
      by_cases zero : blTarget addr ins = 0#32
      · rw [if_pos zero] at calls
        simpa [Plan.words, Call.plan, kind, zero] using Body.original calls
      · rw [if_neg zero] at calls
        simpa [Plan.words, Call.plan, kind, zero] using Body.call _ calls zero
  | beforeV2 =>
      have calls := callee_or_plain addr ins
      have jumps := jumps_or_none addr ins
      by_cases zero : blTarget addr ins = 0#32
      · rw [if_pos zero] at calls
        by_cases straight : bTarget addr ins = 0#32
        · rw [if_pos straight] at jumps
          simpa [Plan.words, Call.plan, kind, zero, straight] using Body.originalV2 calls jumps
        · rw [if_neg straight] at jumps
          simpa [Plan.words, Call.plan, kind, zero, straight] using
            Body.jumpV2 _ calls jumps straight
      · rw [if_neg zero] at calls
        simpa [Plan.words, Call.plan, kind, zero] using Body.callV2 _ calls zero
  | tBefore =>
      have calls := callee_or_plain_thumb addr ins
      by_cases zero : blTTarget addr ins = 0#32
      · rw [if_pos zero] at calls
        simpa [Plan.words, Call.plan, kind, zero] using Body.tOriginal calls
      · rw [if_neg zero] at calls
        simpa [Plan.words, Call.plan, kind, zero] using Body.tCall _ calls zero

/-- The return address leads to the instruction behind the call. -/
theorem back_fetch (h : Hook) (base : Word) (aligned : Aligned base) :
    h.back base &&& ~~~1#32 = base + BitVec.ofNat 32 (insnBytes h.thumb * 4) ∧
      (h.back base).getLsbD 0 = h.thumb := by
  have even : ∀ n, n % 2 = 0 → (base + BitVec.ofNat 32 n).toNat % 2 = 0 := by
    intro n multiple
    rw [aligned_iff] at aligned
    rw [BitVec.toNat_add, BitVec.toNat_ofNat]
    omega
  cases h with
  | before => exact clear_even _ (even 16 rfl)
  | beforeV2 => exact clear_even _ (even 16 rfl)
  | tBefore => exact clear_odd _ (even 8 rfl)

theorem Body.head {h : Hook} {addr target ins : Word} {ws : List Word}
    (body : Body addr target ins h ws) (other : Word → Cpu → Option Cpu) (c : Cpu) (base : Word)
    (fetch : Fetch h.thumb base ws 0 c)
    (below : Below base (4 * ws.length) (c.regs sp) (stateBytes h.saved)) :
    ∃ e, run other 4 c = some e ∧ HookEntered h.saved target (h.back base) c e := by
  cases body with
  | call dst => exact hookbefore_head other c base target _ 12 7 rfl rfl rfl rfl rfl rfl fetch below
  | original => exact hookbefore_head other c base target _ 12 7 rfl rfl rfl rfl rfl rfl fetch below
  | callV2 dst =>
      exact hookbefore_head other c base target _ 20 9 rfl rfl rfl rfl rfl rfl fetch below
  | jumpV2 dst =>
      exact hookbefore_head other c base target _ 20 9 rfl rfl rfl rfl rfl rfl fetch below
  | originalV2 =>
      exact hookbefore_head other c base target _ 20 9 rfl rfl rfl rfl rfl rfl fetch below
  | tCall dst =>
      exact tHookbefore_head other c base target _ 20 6 rfl rfl rfl rfl rfl rfl fetch below
  | tOriginal =>
      exact tHookbefore_head other c base target _ 20 6 rfl rfl rfl rfl rfl rfl fetch below

end Hook

/-- How the machine goes on behind the trampoline at `base`, which was put before the
word `ins` at `addr` and whose target left `result` in its first register. -/
inductive Resumes (h : Hook) (addr ins base result : Word) (f : Cpu) : Prop where
  | callee (dst : Word) (calls : Callee h.thumb addr ins dst) (known : dst ≠ 0#32)
    (there : At dst f)
  | jump (dst : Word) (version : h = .beforeV2) (jumps : Jumps addr ins dst) (known : dst ≠ 0#32)
      (there : At dst f)
  | skip (version : h = .beforeV2) (result : result ≠ 0#32) (plain : Plain h.thumb addr ins)
      (straight : ∀ dst, Jumps addr ins dst → dst = 0#32) (there : At (addr + 4#32) f)
  | original (plain : Plain h.thumb addr ins)
      (version : h = .beforeV2 →
        result = 0#32 ∧ ∀ dst, Jumps addr ins dst → dst = 0#32)
      (pc : f.pc = base + BitVec.ofNat 32 (4 * h.orgins)) (thumb : f.thumb = h.thumb)
      (word : read32 f.mem f.pc = ins)

/-- A relocated instruction is the next one. -/
theorem resumes_original {h : Hook} {addr ins base result : Word} {f : Cpu} {ws : List Word}
    {j : Nat} (plain : Plain h.thumb addr ins)
    (version : h = .beforeV2 → result = 0#32 ∧ ∀ dst, Jumps addr ins dst → dst = 0#32)
    (fetch : Fetch h.thumb base ws j f) (index : insnBytes h.thumb * j = 4 * h.orgins)
    (word : ws[h.orgins]? = some ins) : Resumes h addr ins base result f := by
  have pc := fetch.pc
  rw [index] at pc
  refine .original plain version pc fetch.mode ?_
  rw [pc]
  exact WordsAt.getElem? fetch.code word

theorem Hook.Body.tail {h : Hook} {addr target ins : Word} {ws : List Word}
    (body : Body addr target ins h ws) (other : Word → Cpu → Option Cpu) (t : Cpu) (base : Word)
    (fetch : Fetch h.thumb base ws 4 t) (aligned : Aligned (t.regs sp))
    (apart : Apart base (4 * ws.length) (t.regs sp + BitVec.ofNat 32 (4 * h.saved.length)) 4) :
    ∃ n f, run other n t = some f ∧ Restored h.saved t f ∧
      Resumes h addr ins base (t.regs 0#4) f ∧
      ∀ a n, Apart a n (t.regs sp + BitVec.ofNat 32 (4 * h.saved.length)) 4 →
        Same t.mem f.mem a n := by
  have same : ∀ {f : Cpu}, f.mem = t.mem → ∀ a n,
      Apart a n (t.regs sp + BitVec.ofNat 32 (4 * h.saved.length)) 4 → Same t.mem f.mem a n := by
    intro f mem a n _
    rw [mem]
    exact Same.refl _ _ _
  cases body with
  | call dst calls known =>
      obtain ⟨f, ran, restored, there, mem⟩ :=
        hookbefore_chain other t base target dst fetch aligned
      exact ⟨_, f, ran, restored, .callee dst calls known there, same mem⟩
  | original plain =>
      obtain ⟨f, ran, restored, mem, fetch⟩ := hookbefore_original other t base target ins fetch
        aligned
      exact ⟨_, f, ran, restored, resumes_original plain nofun fetch rfl rfl, same mem⟩
  | callV2 dst calls known =>
      obtain ⟨n, f, ran, restored, there, mem⟩ := hookbeforeLr_branch other t base _ dst
        ⟨rfl, rfl, rfl, rfl, rfl⟩ rfl fetch aligned
      exact ⟨n, f, ran, restored, .callee dst calls known there, same mem⟩
  | jumpV2 dst plain jumps known =>
      obtain ⟨n, f, ran, restored, there, mem⟩ := hookbeforeLr_branch other t base _ dst
        ⟨rfl, rfl, rfl, rfl, rfl⟩ rfl fetch aligned
      exact ⟨n, f, ran, restored, .jump dst rfl jumps known there, same mem⟩
  | originalV2 plain straight =>
      by_cases result : t.regs 0#4 = 0#32
      · obtain ⟨f, ran, restored, mem, fetch⟩ := hookbeforeLr_false other t base _ _
          ⟨rfl, rfl, rfl, rfl, rfl⟩ fetch aligned result
        exact ⟨_, f, ran, restored,
          resumes_original plain (fun _ => ⟨result, straight⟩) fetch rfl rfl, same mem⟩
      · obtain ⟨f, ran, restored, there, mem⟩ := hookbeforeLr_true other t base _ _
          ⟨rfl, rfl, rfl, rfl, rfl⟩ fetch aligned result
        exact ⟨_, f, ran, restored, .skip rfl result plain straight there, same mem⟩
  | tCall dst calls known =>
      obtain ⟨f, ran, restored, there, mem⟩ := tHookbeforeBl_chain other t base target dst fetch
        aligned apart
      refine ⟨_, f, ran, restored, .callee dst calls known there, ?_⟩
      intro a n outside
      rw [mem]
      exact write32_apart t.mem a _ n dst outside
  | tOriginal plain =>
      obtain ⟨f, ran, restored, mem, fetch⟩ := tHookbefore_original other t base target ins fetch
        aligned
      exact ⟨_, f, ran, restored, resumes_original plain nofun fetch rfl rfl, same mem⟩

/-- The branch that is left at a hooked address is about to execute, and leads to `dst`. -/
def Arrives (link : Link) (c : Cpu) (dst : Word) : Prop :=
  match link with
  | .b => c.thumb = false ∧ decodeArm (read32 c.mem c.pc) = some (.b (dst - c.pc))
  | .bl => Calls c dst
  | .blT => Calls c dst

def arrived (link : Link) (c : Cpu) (dst : Word) : Cpu :=
  match link with
  | .b => { c with pc := dst }
  | .bl => called c dst
  | .blT => called c dst

theorem arrives_run (link : Link) (other : Word → Cpu → Option Cpu) (c : Cpu) (dst : Word)
    (arrives : Arrives link c dst) : ∃ n, run other n c = some (arrived link c dst) := by
  cases link with
  | bl => exact ⟨_, calls_run other c dst arrives⟩
  | blT => exact ⟨_, calls_run other c dst arrives⟩
  | b =>
      obtain ⟨mode, decoded⟩ := arrives
      refine ⟨1, run_succ other ?_ rfl⟩
      rw [step, mode, execWord]
      simp only [Bool.false_eq_true, if_false, decoded, exec, arrived]
      rw [BitVec.add_comm, BitVec.sub_add_cancel]

theorem arrived_other (link : Link) (c : Cpu) (dst : Word) (r : Reg) (distinct : r ≠ lr) :
    (arrived link c dst).regs r = c.regs r := by
  cases link with
  | bl => exact called_other c dst r distinct
  | b => rfl
  | blT => exact called_other c dst r distinct

theorem arrived_mem (link : Link) (c : Cpu) (dst : Word) : (arrived link c dst).mem = c.mem := by
  cases link <;> rfl

/-- What a target of a hook finds, for a machine `c` at the hooked instruction: a
structure with the registers there and the link register `link`, and behind it the
stack of `c`. -/
structure EntersHook (h : Hook) (target link : Word) (c e : Cpu) : Prop where
  pc : e.pc = target &&& ~~~1#32
  thumb : e.thumb = target.getLsbD 0
  state : WordsAt e.mem (e.regs 0#4) (h.saved.map c.regs ++ [link])
  stack : e.regs 0#4 + BitVec.ofNat 32 (stateBytes h.saved) = c.regs sp
  caller : ∀ a n,
    Apart a n (c.regs sp - BitVec.ofNat 32 (stateBytes h.saved)) (stateBytes h.saved) →
    Same c.mem e.mem a n

/-- The machine `f` has the registers that stand in the structure at `state` in the
memory `mem`, and the stack pointer of `c`. -/
structure Reloads (h : Hook) (state : Word) (mem : Mem) (c f : Cpu) : Prop where
  regs : ∀ i, (inside : i < h.saved.length) →
    f.regs h.saved[i] = read32 mem (state + BitVec.ofNat 32 (4 * i))
  link : f.regs lr = read32 mem (state + BitVec.ofNat 32 (4 * h.saved.length))
  sp : f.regs Arm.sp = c.regs Arm.sp

section Restore

variable (h : Hook) (other : Word → Cpu → Option Cpu) {sym : Symbols} {s s' : State}
  {target tramp : Word} {c : Cpu}

theorem Hook.saved_not_lr (r : Reg) (member : r ∈ h.saved) : r ≠ lr := by
  rintro rfl
  revert member
  cases h <;> decide

/-- A hook shows its target the registers, takes them from what the target made of
them, and goes on with the hooked instruction. -/
theorem hook_restores (live : Live sym s s' ⟨h.kind, c.pc, target⟩ tramp c.mem)
    (arrives : Arrives ((Call.mk h.kind c.pc target).plan (insAt s.mem c.pc)).link c tramp)
    (mode : c.thumb = h.thumb)
    (below : Below tramp ((Call.mk h.kind c.pc target).copy s).size (c.regs sp)
      (stateBytes h.saved)) :
    let link := ((Call.mk h.kind c.pc target).plan (insAt s.mem c.pc)).link
    ∃ n e, run other n c = some e ∧ EntersHook h target ((arrived link c tramp).regs lr) c e ∧
      ∀ t, Returns e t → Same c.mem t.mem tramp ((Call.mk h.kind c.pc target).copy s).size →
        ∃ n f, run other n t = some f ∧ Reloads h (e.regs 0#4) t.mem c f ∧
          Resumes h c.pc (insAt s.mem c.pc) tramp (t.regs 0#4) f := by
  intro link
  have code := live.code
  have body := h.plan_body c.pc target (insAt s.mem c.pc)
  simp only [Call.copy, Copy.size] at below ⊢
  generalize ((Call.mk h.kind c.pc target).plan (insAt s.mem c.pc)).words = ws at code body below ⊢
  obtain ⟨n, reached⟩ := arrives_run link other c tramp arrives
  have sameSp := arrived_other link c tramp sp (by decide)
  have sameMem := arrived_mem link c tramp
  have fetch : Fetch h.thumb tramp ws 0 (arrived link c tramp) := by
    refine ⟨by rwa [sameMem], live.aligned, ?_, ?_⟩
    · rw [← mode]
      cases link <;> rfl
    · rw [Nat.mul_zero, BitVec.add_zero]
      cases link <;> rfl
  obtain ⟨e, ran, entered⟩ := body.head other _ tramp fetch (by rwa [sameSp])
  have state : e.regs 0#4 = c.regs sp - BitVec.ofNat 32 (stateBytes h.saved) := by
    rw [entered.argument, entered.sp, sameSp]
  refine ⟨_, e, run_add other reached ran, ?_, ?_⟩
  · refine ⟨entered.pc, entered.thumb, ?_, ?_, ?_⟩
    · rw [entered.argument]
      have words := entered.state
      have saved : h.saved.map (arrived link c tramp).regs = h.saved.map c.regs := by
        apply List.map_congr_left
        intro r member
        exact arrived_other link c tramp r (h.saved_not_lr r member)
      rwa [saved] at words
    · rw [state, BitVec.sub_add_cancel]
    · intro a n outside
      have kept := entered.frame a n (by rwa [sameSp])
      rwa [sameMem] at kept
  · intro t returns intact
    have top : t.regs sp = e.regs 0#4 := by rw [returns.sp, entered.argument]
    have bytes : stateBytes h.saved = 4 * h.saved.length + 4 := Nat.mul_succ _ _
    have aligned : Aligned (t.regs sp) := by
      rw [top, state]
      exact below.aligned.sub _ (Nat.mul_mod_right 4 _)
    have apart :
        Apart tramp (4 * ws.length) (t.regs sp + BitVec.ofNat 32 (4 * h.saved.length)) 4 := by
      rw [top, state]
      exact (below.apart.comm.sub (4 * h.saved.length) (by omega)).comm
    have back : Fetch h.thumb tramp ws 4 t := by
      obtain ⟨pc, thumb⟩ := h.back_fetch tramp live.aligned
      refine ⟨Same.wordsAt intact code, live.aligned, ?_, ?_⟩
      · rw [returns.thumb, entered.link, thumb]
      · rw [returns.pc, entered.link, pc]
    obtain ⟨n, f, tailRan, restored, resumes, _⟩ := body.tail other t tramp back aligned apart
    refine ⟨n, f, tailRan, ⟨?_, ?_, ?_⟩, resumes⟩
    · rw [← top]
      exact restored.regs
    · rw [← top]
      exact restored.link
    · rw [restored.sp, top, state, BitVec.sub_add_cancel]

end Restore

def hookInstall : Call := ⟨.tHookBefore, 0x27E00000, 0x27C00101⟩

def hookInstalled : State := (hookInstall.perform sampleSymbols callState).getD callState

def hookCpu : Cpu := { callCpu .tBlre with mem := hookInstalled.mem }

theorem hook_live : Live sampleSymbols callState hookInstalled
    ⟨Hook.kind .tBefore, hookCpu.pc, 0x27C00101⟩ 0x27F01000 hookCpu.mem where
  laid := sampleSymbols_laid
  pool := ⟨[], callState_pool⟩
  outside := outside_sample callState.mem 0x27E00000 (by decide +kernel) (by decide)
  installed := by rfl
  shows := fun _ _ => rfl
  aligned := by decide

theorem hook_link (addr target ins : Word) :
    ((Call.mk .tHookBefore addr target).plan ins).link = .blT := by
  simp only [Call.plan]
  split <;> rfl

theorem hook_below : Below 0x27F01000
    ((Call.mk (Hook.kind .tBefore) hookCpu.pc 0x27C00101).copy callState).size (hookCpu.regs sp)
    (stateBytes (Hook.saved .tBefore)) where
  aligned := by decide
  apart := by
    have size :
        ((Call.mk (Hook.kind .tBefore) hookCpu.pc 0x27C00101).copy callState).size ≤ 64 := by
      rw [Copy.size, Call.copy, Plan.words_length]
      exact Nat.le_trans (Proto.size_le _) (by decide)
    have start : (0x27F01000 : Word).toNat = 0x27F01000 := rfl
    have top : (hookCpu.regs sp - BitVec.ofNat 32 (stateBytes (Hook.saved .tBefore))).toNat +
        stateBytes (Hook.saved .tBefore) = 0x10000000 := by decide
    exact (apart_of_order (by omega) (by omega)).comm

theorem hook_arrives : Arrives
    ((Call.mk (Hook.kind .tBefore) hookCpu.pc 0x27C00101).plan
      (insAt callState.mem hookCpu.pc)).link hookCpu 0x27F01000 := by
  rw [Hook.kind, hook_link]
  exact ⟨0x100000#32, 0xFFC#32, by decide +kernel, by decide +kernel, by decide⟩

theorem hook_restores_call :
    let link :=
      ((Call.mk (Hook.kind .tBefore) hookCpu.pc 0x27C00101).plan
        (insAt callState.mem hookCpu.pc)).link
    ∃ n e, run (fun _ _ => none) n hookCpu = some e ∧
      EntersHook .tBefore 0x27C00101 ((arrived link hookCpu 0x27F01000).regs lr) hookCpu e ∧
      ∀ t, Returns e t → Same hookCpu.mem t.mem 0x27F01000
          ((Call.mk (Hook.kind .tBefore) hookCpu.pc 0x27C00101).copy callState).size →
        ∃ n f, run (fun _ _ => none) n t = some f ∧ Reloads .tBefore (e.regs 0#4) t.mem hookCpu f ∧
          Resumes .tBefore hookCpu.pc (insAt callState.mem hookCpu.pc) 0x27F01000 (t.regs 0#4) f :=
  hook_restores .tBefore (fun _ _ => none) hook_live hook_arrives rfl hook_below

end Stroopwafel.Trampoline
