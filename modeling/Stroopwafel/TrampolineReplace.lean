import Stroopwafel.BranchCodec

set_option autoImplicit false

namespace Stroopwafel.Trampoline

open Memory Arm IosElf

/-- An install that has run, as code at `tramp` in the memory of the hooked thread. -/
structure Live (sym : Symbols) (s s' : State) (call : Call) (tramp : Word) (mem : Mem) : Prop where
  laid : sym.Laid
  pool : ∃ copies, Pool sym s copies
  outside : Outside sym s.mem call.addr
  installed : call.perform sym s = some s'
  shows : Shows s'.mem s.trampolineNext mem tramp (call.copy s).size
  aligned : Aligned tramp

theorem Live.code {sym : Symbols} {s s' : State} {call : Call} {tramp : Word} {mem : Mem}
    (live : Live sym s s' call tramp mem) :
    WordsAt mem tramp (call.plan (insAt s.mem call.addr)).words := by
  obtain ⟨copies, pool⟩ := live.pool
  exact Shows.wordsAt live.shows (Call.effect live.laid pool live.outside live.installed).words

/-- Where a `BL` of the machine returns to. -/
def returnTo (c : Cpu) : Word := if c.thumb then (c.pc + 4#32) ||| 1#32 else c.pc + 4#32

/-- The machine is about to execute a `BL` to `dst`. -/
def Calls (c : Cpu) (dst : Word) : Prop :=
  if c.thumb then
    ∃ high low, decodeThumb (read16 c.mem c.pc) = some (.blHigh high) ∧
      decodeThumb (read16 c.mem (c.pc + 2#32)) = some (.blLow low) ∧
      c.pc + 4#32 + high + low = dst
  else decodeArm (read32 c.mem c.pc) = some (.bl (dst - c.pc))

/-- The state a `BL` to `dst` leads to. -/
def called (c : Cpu) (dst : Word) : Cpu := { c.set lr (returnTo c) with pc := dst }

def callSteps (c : Cpu) : Nat := if c.thumb then 2 else 1

theorem called_eq (c d : Cpu) (dst : Word) (regs : ∀ r, r ≠ lr → d.regs r = c.regs r)
    (mem : d.mem = c.mem) (thumb : d.thumb = c.thumb) (flags : d.flags = c.flags)
    (back : d.returnAddress = returnTo c) :
    { d.set lr d.returnAddress with pc := dst } = called c dst := by
  simp only [called, Cpu.set, Cpu.mk.injEq, mem, thumb, flags, back, and_true]
  funext r
  by_cases link : r = lr
  · rw [if_pos link, if_pos link]
  · rw [if_neg link, if_neg link, regs r link]

theorem calls_run (other : Word → Cpu → Option Cpu) (c : Cpu) (dst : Word) (calls : Calls c dst) :
    run other (callSteps c) c = some (called c dst) := by
  rw [Calls] at calls
  by_cases thumb : c.thumb = true
  · rw [if_pos thumb] at calls
    obtain ⟨high, low, first, second, rfl⟩ := calls
    have size : c.size = 2#32 := by rw [Cpu.size, if_pos thumb]
    have stepHigh : step other c = some (c.set lr (c.pc + 4#32 + high)).next := by
      rw [step, if_pos thumb, first]
      rfl
    generalize middle : (c.set lr (c.pc + 4#32 + high)).next = d at stepHigh
    have pc : d.pc = c.pc + 2#32 := by
      rw [← middle]
      exact congrArg (c.pc + ·) size
    have mode : d.thumb = true := by
      rw [← middle]
      exact thumb
    have link : d.regs lr = c.pc + 4#32 + high := by rw [← middle, Cpu.next_regs, Cpu.set_same]
    have mem : d.mem = c.mem := by rw [← middle]; rfl
    have stepLow : step other d = some (called c (c.pc + 4#32 + high + low)) := by
      rw [step, if_pos mode, mem, pc, second, Option.bind_some, exec, link,
        called_eq c d _ ?_ mem (mode.trans thumb.symm) ?_ ?_]
      · intro r distinct
        rw [← middle, Cpu.next_regs, Cpu.set_other _ _ _ _ distinct]
      · rw [← middle]
        rfl
      · rw [Cpu.returnAddress, if_pos mode, Cpu.size, if_pos mode, pc, returnTo, if_pos thumb,
          BitVec.add_assoc]
        rfl
    rw [callSteps, if_pos thumb]
    exact run_succ other stepHigh (run_succ other stepLow rfl)
  · rw [if_neg thumb] at calls
    have size : c.size = 4#32 := by rw [Cpu.size, if_neg thumb]
    have target : c.pc + (dst - c.pc) = dst := by
      rw [BitVec.add_comm, BitVec.sub_add_cancel]
    have stepCall : step other c = some (called c dst) := by
      rw [step, if_neg thumb, execWord, calls]
      simp only [exec]
      rw [target, called_eq c c dst (fun _ _ => rfl) rfl rfl rfl]
      rw [Cpu.returnAddress, if_neg thumb, size, returnTo, if_neg thumb]
    rw [callSteps, if_neg thumb]
    exact run_succ other stepCall rfl

/-- What a target finds on entry, for a machine `c` at the first instruction of the
trampoline: its caller's registers, and the frame that is built below its stack. -/
structure Entered (saved : List Reg) (pushed : Nat) (target chain back : Word) (c e : Cpu) :
    Prop where
  pc : e.pc = target &&& ~~~1#32
  thumb : e.thumb = target.getLsbD 0
  link : e.regs lr = back
  kept : ∀ r, r ≠ sp → r ≠ lr → e.regs r = c.regs r
  sp : e.regs sp = c.regs sp - BitVec.ofNat 32 (4 * (saved.length + 2))
  stack : WordsAt e.mem (e.regs Arm.sp) (saved.map c.regs ++ [chain, c.regs lr])
  frame : ∀ a n, Apart a n (c.regs Arm.sp - BitVec.ofNat 32 pushed) pushed → Same c.mem e.mem a n

section Heads

variable (other : Word → Cpu → Option Cpu) {c : Cpu} {base target chain : Word}

/-- What the frame of a body lies in: aligned, and apart from the code. -/
structure Below (base : Word) (length : Nat) (top : Word) (depth : Nat) : Prop where
  aligned : Aligned top
  apart : Apart base length (top - BitVec.ofNat 32 depth) depth

theorem blre_head (c : Cpu) (base target chain : Word)
    (fetch : Fetch false base
      (fill Proto.blre.code [(blreChain, chain), (Proto.blre.target, target)]) 0 c)
    (below : Below base Proto.blre.size (c.regs sp) 8) :
    ∃ e, run other 5 c = some e ∧ Entered [] 8 target chain (base + 20#32) c e := by
  obtain ⟨aligned, apart⟩ := below
  obtain ⟨step0, fetch⟩ := fetch.push other 0x4000#16 [lr] rfl rfl aligned
    (apart.below 4 4 (by decide) (by decide))
  obtain ⟨step1, fetch⟩ := fetch.ldrPc other lr 16 7 chain rfl (by decide) (by decide) rfl rfl
  obtain ⟨step2, fetch⟩ := fetch.push other 0x4000#16 [lr] rfl rfl (aligned.sub 4 rfl) (by
    have inner := apart.below 8 4 (by decide) (by decide)
    simpa (disch := decide) [sub_ofNat_sub, Proto.size] using inner)
  obtain ⟨step3, fetch⟩ := fetch.ldrPc other lr 4 6 target rfl (by decide) (by decide) rfl rfl
  have step4 := fetch.blx other lr rfl
  refine ⟨_, run_succ other step0 (run_succ other step1 (run_succ other step2 (run_succ other step3
    (run_succ other step4 rfl)))), ?_⟩
  refine ⟨by simp, by simp, ?_, ?_, ?_, ?_, ?_⟩
  · have back := fetch.returnAddress
    simpa [insnBytes] using back
  · intro r notSp notLr
    simp [notSp, notLr]
  · simp (disch := decide) [sub_ofNat_sub]
  · simp (disch := decide) [sub_ofNat_sub]
    exact writeWords_push [chain] 4 8 (by simp) rfl
      (writeWords_wordsAt c.mem _ [c.regs lr] (by simp))
  · intro a n outside
    simp (disch := decide) [sub_ofNat_sub]
    exact (writeWords_below c.mem 4 _ outside (by decide) (by simp)).trans
      (writeWords_below _ 8 _ outside (by decide) (by simp))

theorem blreRegs_head (c : Cpu) (base target chain : Word)
    (fetch : Fetch false base
      (fill Proto.blreRegs.code [(blreRegsChain, chain), (Proto.blreRegs.target, target)]) 0 c)
    (below : Below base Proto.blreRegs.size (c.regs sp) 44) :
    ∃ e, run other 5 c = some e ∧
      Entered [4, 5, 6, 7, 8, 9, 10, 11, 12] 44 target chain (base + 20#32) c e := by
  obtain ⟨aligned, apart⟩ := below
  obtain ⟨step0, fetch⟩ := fetch.push other 0x4000#16 [lr] rfl rfl aligned
    (apart.below 4 4 (by decide) (by decide))
  obtain ⟨step1, fetch⟩ := fetch.ldrPc other lr 20 8 chain rfl (by decide) (by decide) rfl rfl
  obtain ⟨step2, fetch⟩ := fetch.push other 0x5FF0#16 [4, 5, 6, 7, 8, 9, 10, 11, 12, lr] rfl rfl
    (aligned.sub 4 rfl) (by
      have inner := apart.below 44 40 (by decide) (by decide)
      simpa (disch := decide) [sub_ofNat_sub, Proto.size] using inner)
  obtain ⟨step3, fetch⟩ := fetch.ldrPc other lr 8 7 target rfl (by decide) (by decide) rfl rfl
  have step4 := fetch.blx other lr rfl
  refine ⟨_, run_succ other step0 (run_succ other step1 (run_succ other step2 (run_succ other step3
    (run_succ other step4 rfl)))), ?_⟩
  refine ⟨by simp, by simp, ?_, ?_, ?_, ?_, ?_⟩
  · have back := fetch.returnAddress
    simpa [insnBytes] using back
  · intro r notSp notLr
    simp [notSp, notLr]
  · simp (disch := decide) [sub_ofNat_sub]
  · simp (disch := decide) [sub_ofNat_sub]
    exact writeWords_push [c.regs 4, c.regs 5, c.regs 6, c.regs 7, c.regs 8, c.regs 9, c.regs 10,
      c.regs 11, c.regs 12, chain] 4 44 (by simp) rfl
      (writeWords_wordsAt c.mem _ [c.regs lr] (by simp))
  · intro a n outside
    simp (disch := decide) [sub_ofNat_sub]
    exact (writeWords_below c.mem 4 _ outside (by decide) (by simp)).trans
      (writeWords_below _ 44 _ outside (by decide) (by simp))

theorem tBlre_head (c : Cpu) (base target chain : Word)
    (fetch : Fetch true base
      (fill Proto.tBlre.code [(tBlreChain, chain), (Proto.tBlre.target, target)]) 0 c)
    (below : Below base Proto.tBlre.size (c.regs sp) 12) :
    ∃ e, run other 7 c = some e ∧ Entered [] 12 target chain ((base + 14#32) ||| 1#32) c e := by
  obtain ⟨aligned, apart⟩ := below
  obtain ⟨step0, fetch⟩ := fetch.push other 0x4003#16 [0, 1, lr] rfl rfl aligned
    (apart.below 12 12 (by decide) (by decide))
  obtain ⟨step1, fetch⟩ := fetch.ldrPc other 0 16 5 target rfl (by decide) (by decide) rfl rfl
  obtain ⟨step2, fetch⟩ := fetch.mov other lr 0 rfl
  obtain ⟨step3, fetch⟩ := fetch.ldrPc other 0 16 6 chain rfl (by decide) (by decide) rfl rfl
  obtain ⟨step4, fetch⟩ := fetch.strSp other 0 4#32 rfl
    (by simpa (disch := decide) using aligned.sub 12 rfl) (by
      have inner := apart.below 8 4 (by decide) (by decide)
      simpa (disch := decide) [sub_add_ofNat, Proto.size] using inner)
  obtain ⟨step5, fetch⟩ := fetch.pop other 0x0001#16 [0] rfl rfl rfl
    (by simpa (disch := decide) using aligned.sub 12 rfl)
  have step6 := fetch.blx other lr rfl
  refine ⟨_, run_succ other step0 (run_succ other step1 (run_succ other step2 (run_succ other step3
    (run_succ other step4 (run_succ other step5 (run_succ other step6 rfl)))))), ?_⟩
  -- the frame of three words, with the chain in the reserved place
  have pushed := writeWords_wordsAt c.mem (c.regs sp - BitVec.ofNat 32 12)
    [c.regs 0, c.regs 1, c.regs lr] (by simp)
  have stored := pushed.write32 (by simp) 1 (by simp) chain
  rw [show 4 * 1 = 4 from rfl, sub_add_ofNat _ _ _ (by decide)] at stored
  refine ⟨?_, ?_, ?_, ?_, ?_, ?_, ?_⟩
  · simp (disch := decide) [loadRegs]
  · simp (disch := decide) [loadRegs]
  · have back := fetch.returnAddress
    simpa [insnBytes] using back
  · intro r notSp notLr
    have first := stored 0 (by simp)
    by_cases zero : r = 0
    · subst r
      simpa (disch := decide) [loadRegs, sub_add_ofNat] using first
    · have distinct : r ≠ 0#4 := zero
      simp [notSp, notLr, loadRegs, distinct]
  · simp (disch := decide) [sub_add_ofNat]
  · have tail := WordsAt.tail (show WordsAt _ _ ([c.regs 0] ++ [chain, c.regs lr]) from stored)
    simpa (disch := decide) [sub_add_ofNat] using tail
  · intro a n outside
    simp (disch := decide) [sub_add_ofNat]
    exact (writeWords_below c.mem 12 _ outside (by decide) (by simp)).trans
      (write32_apart _ _ _ _ _ (outside.below 8 4 (by decide) (by decide)))

theorem tBlreRegs_head (c : Cpu) (base target chain : Word)
    (fetch : Fetch true base
      (fill Proto.tBlreRegs.code [(tBlreRegsChain, chain), (Proto.tBlreRegs.target, target)]) 0 c)
    (below : Below base Proto.tBlreRegs.size (c.regs sp) 28) :
    ∃ e, run other 8 c = some e ∧
      Entered [4, 5, 6, 7] 28 target chain ((base + 16#32) ||| 1#32) c e := by
  obtain ⟨aligned, apart⟩ := below
  obtain ⟨step0, fetch⟩ := fetch.push other 0x4000#16 [lr] rfl rfl aligned
    (apart.below 4 4 (by decide) (by decide))
  obtain ⟨step1, fetch⟩ := fetch.push other 0x40F1#16 [0, 4, 5, 6, 7, lr] rfl rfl
    (aligned.sub 4 rfl) (by
      have inner := apart.below 28 24 (by decide) (by decide)
      simpa (disch := decide) [sub_ofNat_sub, Proto.size] using inner)
  obtain ⟨step2, fetch⟩ := fetch.ldrPc other 0 12 5 target rfl (by decide) (by decide) rfl rfl
  obtain ⟨step3, fetch⟩ := fetch.mov other lr 0 rfl
  obtain ⟨step4, fetch⟩ := fetch.ldrPc other 0 12 6 chain rfl (by decide) (by decide) rfl rfl
  obtain ⟨step5, fetch⟩ := fetch.strSp other 0 20#32 rfl
    (by simpa (disch := decide) [sub_ofNat_sub] using aligned.sub 28 rfl) (by
      have inner := apart.below 8 4 (by decide) (by decide)
      simpa (disch := decide) [sub_ofNat_sub, sub_add_ofNat, Proto.size] using inner)
  obtain ⟨step6, fetch⟩ := fetch.pop other 0x0001#16 [0] rfl rfl rfl
    (by simpa (disch := decide) [sub_ofNat_sub] using aligned.sub 28 rfl)
  have step7 := fetch.blx other lr rfl
  refine ⟨_, run_succ other step0 (run_succ other step1 (run_succ other step2 (run_succ other step3
    (run_succ other step4 (run_succ other step5 (run_succ other step6 (run_succ other step7
      rfl))))))), ?_⟩
  -- both pushes, with the chain in the reserved place
  have pushed := writeWords_push [c.regs 0, c.regs 4, c.regs 5, c.regs 6, c.regs 7, c.regs lr] 4 28
    (by simp) rfl
    (writeWords_wordsAt c.mem (c.regs sp - BitVec.ofNat 32 4) [c.regs lr] (by simp))
  have stored := pushed.write32 (by simp) 5 (by simp) chain
  rw [show 4 * 5 = 20 from rfl, sub_add_ofNat _ _ _ (by decide)] at stored
  refine ⟨?_, ?_, ?_, ?_, ?_, ?_, ?_⟩
  · simp (disch := decide) [loadRegs]
  · simp (disch := decide) [loadRegs]
  · have back := fetch.returnAddress
    simpa [insnBytes] using back
  · intro r notSp notLr
    have first := stored 0 (by simp)
    by_cases zero : r = 0
    · subst r
      simpa (disch := decide) [loadRegs, sub_ofNat_sub, sub_add_ofNat] using first
    · have distinct : r ≠ 0#4 := zero
      simp [notSp, notLr, loadRegs, distinct]
  · simp (disch := decide) [sub_ofNat_sub, sub_add_ofNat]
  · have tail := WordsAt.tail (show WordsAt _ _ ([c.regs 0] ++
      [c.regs 4, c.regs 5, c.regs 6, c.regs 7, chain, c.regs lr]) from stored)
    simpa (disch := decide) [sub_ofNat_sub, sub_add_ofNat] using tail
  · intro a n outside
    simp (disch := decide) [sub_ofNat_sub, sub_add_ofNat]
    exact ((writeWords_below c.mem 4 _ outside (by decide) (by simp)).trans
      (writeWords_below _ 28 _ outside (by decide) (by simp))).trans
      (write32_apart _ _ _ _ _ (outside.below 8 4 (by decide) (by decide)))

end Heads

/-- The way out of a body: `depth` bytes are taken off the stack, the last word of
them into `PC`. -/
structure Left (depth : Nat) (t f : Cpu) : Prop where
  pc : f.pc = read32 t.mem (t.regs sp + BitVec.ofNat 32 (depth - 4)) &&& ~~~1#32
  thumb : f.thumb = (read32 t.mem (t.regs sp + BitVec.ofNat 32 (depth - 4))).getLsbD 0
  sp : f.regs sp = t.regs sp + BitVec.ofNat 32 depth
  kept : ∀ r, r ≠ Arm.sp → r ≠ lr → f.regs r = t.regs r

section Tails

variable (other : Word → Cpu → Option Cpu) (t : Cpu) (base target chain : Word)

theorem blre_tail
    (fetch : Fetch false base
      (fill Proto.blre.code [(blreChain, chain), (Proto.blre.target, target)]) 5 t)
    (aligned : Aligned (t.regs sp)) : ∃ f, run other 1 t = some f ∧ Left 8 t f := by
  have step0 := fetch.pop_jump other 0xC000#16 [lr] rfl rfl rfl aligned
  refine ⟨_, run_succ other step0 rfl, ?_, ?_, ?_, ?_⟩
  · simp
  · simp
  · simp [BitVec.add_assoc]
  · intro r notSp notLr
    simp [notSp, notLr, loadRegs]

theorem blreRegs_tail
    (fetch : Fetch false base
      (fill Proto.blreRegs.code [(blreRegsChain, chain), (Proto.blreRegs.target, target)]) 5 t)
    (aligned : Aligned (t.regs sp)) : ∃ f, run other 2 t = some f ∧ Left 44 t f := by
  obtain ⟨step0, fetch⟩ := fetch.addSp other 36#32 rfl
  have step1 := fetch.pop_jump other 0xC000#16 [lr] rfl rfl rfl (by simpa using aligned.add 36 rfl)
  refine ⟨_, run_succ other step0 (run_succ other step1 rfl), ?_, ?_, ?_, ?_⟩
  · simp [BitVec.add_assoc]
  · simp [BitVec.add_assoc]
  · simp [BitVec.add_assoc]
  · intro r notSp notLr
    simp [notSp, notLr, loadRegs]

theorem tBlre_tail
    (fetch : Fetch true base
      (fill Proto.tBlre.code [(tBlreChain, chain), (Proto.tBlre.target, target)]) 7 t)
    (aligned : Aligned (t.regs sp)) : ∃ f, run other 2 t = some f ∧ Left 8 t f := by
  obtain ⟨step0, fetch⟩ := fetch.addSp other 4#32 rfl
  have step1 := fetch.pop_jump other 0x8000#16 [] rfl rfl rfl (by simpa using aligned.add 4 rfl)
  refine ⟨_, run_succ other step0 (run_succ other step1 rfl), ?_, ?_, ?_, ?_⟩
  · simp
  · simp
  · simp [BitVec.add_assoc]
  · intro r notSp notLr
    simp [notSp, loadRegs]

theorem tBlreRegs_tail
    (fetch : Fetch true base
      (fill Proto.tBlreRegs.code [(tBlreRegsChain, chain), (Proto.tBlreRegs.target, target)]) 8 t)
    (aligned : Aligned (t.regs sp)) : ∃ f, run other 2 t = some f ∧ Left 8 t f := by
  obtain ⟨step0, fetch⟩ := fetch.addSp other 4#32 rfl
  have step1 := fetch.pop_jump other 0x8000#16 [] rfl rfl rfl (by simpa using aligned.add 4 rfl)
  refine ⟨_, run_succ other step0 (run_succ other step1 rfl), ?_, ?_, ?_, ?_⟩
  · simp
  · simp
  · simp [BitVec.add_assoc]
  · intro r notSp notLr
    simp [notSp, loadRegs]

end Tails

/-- The four trampolines that replace a call. -/
inductive Variant where
  | blre
  | blreRegs
  | tBlre
  | tBlreRegs
  deriving DecidableEq

namespace Variant

def kind : Variant → Kind
  | blre => .blreplace
  | blreRegs => .blreplaceWithRegs
  | tBlre => .tBlreplace
  | tBlreRegs => .tBlreplaceWithRegs

def proto : Variant → Proto
  | blre => .blre
  | blreRegs => .blreRegs
  | tBlre => .tBlre
  | tBlreRegs => .tBlreRegs

def thumb : Variant → Bool
  | blre => false
  | blreRegs => false
  | tBlre => true
  | tBlreRegs => true

/-- The registers that are pushed for the target to see. -/
def saved : Variant → List Reg
  | blre => []
  | blreRegs => [4, 5, 6, 7, 8, 9, 10, 11, 12]
  | tBlre => []
  | tBlreRegs => [4, 5, 6, 7]

/-- The most bytes that are on the stack at once. -/
def pushed : Variant → Nat
  | blre => 8
  | blreRegs => 44
  | tBlre => 12
  | tBlreRegs => 28

/-- Instructions up to and including the call of the target, and after it. -/
def headSteps : Variant → Nat
  | blre => 5
  | blreRegs => 5
  | tBlre => 7
  | tBlreRegs => 8

def tailSteps : Variant → Nat
  | blre => 1
  | blreRegs => 2
  | tBlre => 2
  | tBlreRegs => 2

/-- What the instructions after the call take off the stack. -/
def popped : Variant → Nat
  | blre => 8
  | blreRegs => 44
  | tBlre => 8
  | tBlreRegs => 8

/-- What is on the stack when the target is called. -/
def frame (v : Variant) : Nat := 4 * (v.saved.length + 2)

def words (v : Variant) (target chain : Word) : List Word :=
  match v with
  | blre => fill Proto.blre.code [(blreChain, chain), (Proto.blre.target, target)]
  | blreRegs => fill Proto.blreRegs.code [(blreRegsChain, chain), (Proto.blreRegs.target, target)]
  | tBlre => fill Proto.tBlre.code [(tBlreChain, chain), (Proto.tBlre.target, target)]
  | tBlreRegs =>
      fill Proto.tBlreRegs.code [(tBlreRegsChain, chain), (Proto.tBlreRegs.target, target)]

/-- The target's return address, in the body at `base`. -/
def back (v : Variant) (base : Word) : Word :=
  match v with
  | blre => base + 20#32
  | blreRegs => base + 20#32
  | tBlre => (base + 14#32) ||| 1#32
  | tBlreRegs => (base + 16#32) ||| 1#32

def original (v : Variant) (addr ins : Word) : Word :=
  if v.thumb then blTTarget addr ins else blTarget addr ins

theorem plan_words (v : Variant) (addr target ins : Word) :
    ((Call.mk v.kind addr target).plan ins).words = v.words target (v.original addr ins) := by
  cases v <;> rfl

theorem words_length (v : Variant) (target chain : Word) :
    4 * (v.words target chain).length = v.proto.size := by
  cases v <;> rfl

theorem head (v : Variant) (other : Word → Cpu → Option Cpu) (c : Cpu) (base target chain : Word)
    (fetch : Fetch v.thumb base (v.words target chain) 0 c)
    (below : Below base v.proto.size (c.regs sp) v.pushed) :
    ∃ e, run other v.headSteps c = some e ∧
      Entered v.saved v.pushed target chain (v.back base) c e := by
  cases v with
  | blre => exact blre_head other c base target chain fetch below
  | blreRegs => exact blreRegs_head other c base target chain fetch below
  | tBlre => exact tBlre_head other c base target chain fetch below
  | tBlreRegs => exact tBlreRegs_head other c base target chain fetch below

/-- From the target's return on, with `t` as the target leaves the machine. -/
theorem tail (v : Variant) (other : Word → Cpu → Option Cpu) (t : Cpu) (base target chain : Word)
    (code : WordsAt t.mem base (v.words target chain)) (aligned : Aligned base)
    (pc : t.pc = v.back base &&& ~~~1#32) (thumb : t.thumb = (v.back base).getLsbD 0)
    (stack : Aligned (t.regs sp)) : ∃ f, run other v.tailSteps t = some f ∧ Left v.popped t f := by
  have even : ∀ n, n % 2 = 0 → (base + BitVec.ofNat 32 n).toNat % 2 = 0 := by
    intro n multiple
    rw [aligned_iff] at aligned
    rw [BitVec.toNat_add, BitVec.toNat_ofNat]
    omega
  cases v with
  | blre =>
      obtain ⟨cleared, bit⟩ := clear_even _ (even 20 rfl)
      exact blre_tail other t base target chain ⟨code, aligned, thumb.trans bit, pc.trans cleared⟩
        stack
  | blreRegs =>
      obtain ⟨cleared, bit⟩ := clear_even _ (even 20 rfl)
      exact blreRegs_tail other t base target chain
        ⟨code, aligned, thumb.trans bit, pc.trans cleared⟩ stack
  | tBlre =>
      obtain ⟨cleared, bit⟩ := clear_odd _ (even 14 rfl)
      exact tBlre_tail other t base target chain ⟨code, aligned, thumb.trans bit, pc.trans cleared⟩
        stack
  | tBlreRegs =>
      obtain ⟨cleared, bit⟩ := clear_odd _ (even 16 rfl)
      exact tBlreRegs_tail other t base target chain
        ⟨code, aligned, thumb.trans bit, pc.trans cleared⟩ stack

theorem popped_eq_frame_iff (v : Variant) : v.popped = v.frame ↔ v ≠ tBlreRegs := by
  cases v <;> decide

end Variant

/-- The word at `addr` calls `callee`. -/
def Callee (thumb : Bool) (addr ins callee : Word) : Prop :=
  if thumb then
    ∃ high low, decodeThumb (ins.extractLsb' 16 16) = some (.blHigh high) ∧
      decodeThumb (ins.extractLsb' 0 16) = some (.blLow low) ∧
      callee = (addr + 4#32 + high + low) ||| 1#32
  else ∃ offset, decodeArm ins = some (.bl offset) ∧ callee = addr + offset

theorem Variant.original_eq (v : Variant) (addr ins callee : Word)
    (calls : Callee v.thumb addr ins callee) : v.original addr ins = callee := by
  rw [Callee] at calls
  rw [Variant.original]
  split at calls
  · obtain ⟨high, low, first, second, rfl⟩ := calls
    rename_i thumb
    rw [if_pos thumb, blTTarget_eq addr ins high low first second]
  · obtain ⟨offset, decoded, rfl⟩ := calls
    rename_i thumb
    rw [if_neg thumb, blTarget_eq addr ins offset decoded]

/-- What the replacing target finds: the caller's arguments, and on the stack the
saved registers, the callee of the replaced call, the return address and the
caller's stack. `c` is the machine at the replaced `BL`. -/
structure EntersTarget (v : Variant) (target callee : Word) (c e : Cpu) : Prop where
  pc : e.pc = target &&& ~~~1#32
  thumb : e.thumb = target.getLsbD 0
  arguments : ∀ r : Reg, r < 4#4 → e.regs r = c.regs r
  stack : WordsAt e.mem (e.regs sp) (v.saved.map c.regs ++ [callee, returnTo c])
  above : e.regs sp + BitVec.ofNat 32 v.frame = c.regs sp
  caller : ∀ a n, Apart a n (c.regs sp - BitVec.ofNat 32 v.pushed) v.pushed → Same c.mem e.mem a n

/-- A target that was entered in the state `e` has returned in the state `t`. -/
structure Returns (e t : Cpu) : Prop where
  pc : t.pc = e.regs lr &&& ~~~1#32
  thumb : t.thumb = (e.regs lr).getLsbD 0
  sp : t.regs Arm.sp = e.regs Arm.sp
  kept : ∀ r : Reg, 4#4 ≤ r → r ≤ 11#4 → t.regs r = e.regs r

/-- The caller goes on in the state `f` as after a call that returned in `t`. -/
structure Unwinds (c t f : Cpu) : Prop where
  pc : f.pc = c.pc + 4#32
  thumb : f.thumb = c.thumb
  sp : f.regs Arm.sp = c.regs Arm.sp
  kept : ∀ r : Reg, 4#4 ≤ r → r ≤ 11#4 → f.regs r = c.regs r
  result : f.regs 0#4 = t.regs 0#4 ∧ f.regs 1#4 = t.regs 1#4

/-- The address a `BL` pushes is the only one that leads back behind it. -/
theorem interwork_iff (c : Cpu) (w : Word) (even : c.pc.toNat % 2 = 0) :
    (w &&& ~~~1#32 = c.pc + 4#32 ∧ w.getLsbD 0 = c.thumb) ↔ w = returnTo c := by
  have next : (c.pc + 4#32).toNat % 2 = 0 := by
    rw [BitVec.toNat_add, show (4#32).toNat = 4 from rfl]
    omega
  have whole : w = (w &&& ~~~1#32) ||| (if w.getLsbD 0 then 1#32 else 0#32) := by
    ext i hi
    simp only [BitVec.getElem_or, BitVec.getElem_and, BitVec.getElem_not]
    cases i with
    | zero => cases bit : w.getLsbD 0 <;> simp_all
    | succ i => cases bit : w.getLsbD 0 <;> simp
  constructor
  · rintro ⟨pc, bit⟩
    rw [whole, pc, bit, returnTo]
    cases c.thumb with
    | true => rfl
    | false => exact BitVec.or_zero
  · rintro rfl
    rw [returnTo]
    cases c.thumb with
    | true => exact clear_odd _ next
    | false => exact clear_even _ next

theorem called_other (c : Cpu) (dst : Word) (r : Reg) (distinct : r ≠ lr) :
    (called c dst).regs r = c.regs r :=
  Cpu.set_other c lr r (returnTo c) distinct

theorem called_lr (c : Cpu) (dst : Word) : (called c dst).regs lr = returnTo c :=
  Cpu.set_same c lr (returnTo c)

section Replace

variable (v : Variant) (other : Word → Cpu → Option Cpu) {sym : Symbols} {s s' : State}
  {target tramp callee : Word} {c : Cpu}

/-- From the replaced `BL` to the target's entry. -/
theorem enters_target (live : Live sym s s' ⟨v.kind, c.pc, target⟩ tramp c.mem)
    (calls : Calls c tramp) (mode : c.thumb = v.thumb)
    (original : Callee v.thumb c.pc (insAt s.mem c.pc) callee)
    (below : Below tramp v.proto.size (c.regs sp) v.pushed) :
    ∃ e, run other (callSteps c + v.headSteps) c = some e ∧ EntersTarget v target callee c e ∧
      e.regs lr = v.back tramp ∧ (∀ r, r ≠ sp → r ≠ lr → e.regs r = c.regs r) := by
  have code := live.code
  rw [v.plan_words, v.original_eq c.pc _ callee original] at code
  have sameSp := called_other c tramp sp (by decide)
  have fetch : Fetch v.thumb tramp (v.words target callee) 0 (called c tramp) :=
    ⟨code, live.aligned, mode, by rw [Nat.mul_zero, BitVec.add_zero]; rfl⟩
  obtain ⟨e, ran, entered⟩ := v.head other (called c tramp) tramp target callee fetch
    (by rwa [sameSp])
  refine ⟨e, run_add other (calls_run other c tramp calls) ran, ?_, entered.link, ?_⟩
  · refine ⟨entered.pc, entered.thumb, ?_, ?_, ?_, ?_⟩
    · intro r argument
      rw [entered.kept r (by bv_omega) (by bv_omega), called_other c tramp r (by bv_omega)]
    · have stack := entered.stack
      rw [called_lr] at stack
      have saved : v.saved.map (called c tramp).regs = v.saved.map c.regs := by
        apply List.map_congr_left
        intro r member
        apply called_other
        rintro rfl
        revert member
        cases v <;> decide
      rwa [saved] at stack
    · rw [entered.sp, sameSp]
      exact BitVec.sub_add_cancel _ _
    · intro a n outside
      exact entered.frame a n (by rwa [sameSp])
  · intro r notSp notLr
    rw [entered.kept r notSp notLr, called_other c tramp r notLr]

/-- Each replacement calls its target as documented. It returns to its caller as a
call does exactly when it is not the Thumb variant with registers, and the target has
left the return address on the stack alone. -/
theorem blreplace_unwinds_iff (live : Live sym s s' ⟨v.kind, c.pc, target⟩ tramp c.mem)
    (calls : Calls c tramp) (mode : c.thumb = v.thumb) (even : c.pc.toNat % 2 = 0)
    (original : Callee v.thumb c.pc (insAt s.mem c.pc) callee)
    (below : Below tramp v.proto.size (c.regs sp) v.pushed) :
    ∃ e, run other (callSteps c + v.headSteps) c = some e ∧ EntersTarget v target callee c e ∧
      ∀ t, Returns e t → Same c.mem t.mem tramp v.proto.size →
        ∃ f, run other v.tailSteps t = some f ∧
          (Unwinds c t f ↔
            v ≠ .tBlreRegs ∧ read32 t.mem (c.regs sp - 4#32) = returnTo c) := by
  obtain ⟨e, ran, enters, link, kept⟩ := enters_target v other live calls mode original below
  refine ⟨e, ran, enters, ?_⟩
  intro t returns intact
  have code := live.code
  rw [v.plan_words] at code
  have stack : Aligned (t.regs sp) := by
    rw [returns.sp, BitVec.eq_sub_iff_add_eq.mpr enters.above]
    exact below.aligned.sub _ (by cases v <;> rfl)
  obtain ⟨f, tailRan, left⟩ := v.tail other t tramp target _
    (Same.wordsAt (by rw [v.words_length]; exact intact) code) live.aligned
    (by rw [returns.pc, link]) (by rw [returns.thumb, link]) stack
  refine ⟨f, tailRan, ?_⟩
  have top : t.regs sp = c.regs sp - BitVec.ofNat 32 v.frame := by
    rw [returns.sp]
    exact BitVec.eq_sub_iff_add_eq.mpr enters.above
  have restored : f.regs sp = c.regs sp ↔ v ≠ .tBlreRegs := by
    rw [left.sp, top]
    by_cases sound : v = .tBlreRegs
    · subst v
      rw [sub_add_ofNat _ _ _ (by decide)]
      simp only [ne_eq, not_true_eq_false, iff_false]
      change c.regs sp - 16#32 ≠ c.regs sp
      bv_omega
    · rw [v.popped_eq_frame_iff.mpr sound, BitVec.sub_add_cancel]
      simp only [ne_eq, sound, not_false_eq_true]
  have preserved : ∀ r : Reg, 4#4 ≤ r → r ≤ 11#4 → f.regs r = c.regs r := by
    intro r low high
    rw [left.kept r (by bv_omega) (by bv_omega), returns.kept r low high,
      kept r (by bv_omega) (by bv_omega)]
  have result : f.regs 0#4 = t.regs 0#4 ∧ f.regs 1#4 = t.regs 1#4 :=
    ⟨left.kept 0 (by decide) (by decide), left.kept 1 (by decide) (by decide)⟩
  have slot : v ≠ .tBlreRegs →
      t.regs sp + BitVec.ofNat 32 (v.popped - 4) = c.regs sp - 4#32 := by
    intro sound
    have same := v.popped_eq_frame_iff.mpr sound
    rw [top, same, sub_add_ofNat _ _ _ (Nat.sub_le _ _), Nat.sub_sub_self (by cases v <;> decide)]
  constructor
  · intro unwinds
    have sound := restored.mp unwinds.sp
    refine ⟨sound, (interwork_iff c _ even).mp ?_⟩
    rw [← slot sound, ← left.pc, ← left.thumb]
    exact ⟨unwinds.pc, unwinds.thumb⟩
  · rintro ⟨sound, word⟩
    obtain ⟨pc, thumb⟩ := (interwork_iff c _ even).mpr word
    rw [← slot sound] at pc thumb
    exact ⟨left.pc.trans pc, left.thumb.trans thumb, restored.mpr sound, preserved, result⟩

end Replace

/-- A Thumb `BL` at `0x27E00000` to `0x27E00008`, before any install. -/
def callState : State :=
  { sampleState with mem := write32 sampleState.mem 0x27E00000 0xF000F802 }

def callInstall (v : Variant) : Call := ⟨v.kind, 0x27E00000, 0x27C00101⟩

def callInstalled (v : Variant) : State :=
  ((callInstall v).perform sampleSymbols callState).getD callState

/-- The caller at the replaced call, with all registers but `SP` zero. -/
def callCpu (v : Variant) : Cpu where
  regs r := if r = sp then 0x10000000 else 0
  pc := 0x27E00000
  thumb := true
  flags := ⟨false, false, false, false⟩
  mem := (callInstalled v).mem

theorem sampleWith_pool (ins : Word) :
    Pool sampleSymbols { sampleState with mem := write32 sampleState.mem 0x27E00000 ins } [] := by
  have pool := sampleState_initial.pool sampleSymbols_laid
  refine ⟨?_, pool.aligned, pool.lower, pool.upper, ?_, ?_, .nil⟩
  · intro p
    refine ⟨p.code, ⟨rfl, fun _ _ => rfl⟩, Same.wordsAt ?_ (sampleState_initial.protos p)⟩
    have start := sampleSymbols_proto p
    have small := p.size_le
    have index : p.ctorIdx < 8 := by cases p <;> decide
    have site : (0x27E00000 : Word).toNat = 0x27E00000 := rfl
    apply write32_apart
    exact (apart_of_order (by omega)
      (by change (sampleSymbols.proto p).toNat + p.size ≤ _; omega)).comm
  · intro copy member
    cases member
  · intro copy member
    cases member

theorem callState_pool : Pool sampleSymbols callState [] := sampleWith_pool 0xF000F802

theorem call_live (v : Variant) :
    Live sampleSymbols callState (callInstalled v) ⟨v.kind, (callCpu v).pc, 0x27C00101⟩ 0x27F01000
      (callCpu v).mem where
  laid := sampleSymbols_laid
  pool := ⟨[], callState_pool⟩
  outside := outside_sample callState.mem 0x27E00000 (by decide +kernel) (by decide)
  installed := by cases v <;> rfl
  shows := fun _ _ => rfl
  aligned := by decide

theorem call_below (v : Variant) :
    Below 0x27F01000 v.proto.size ((callCpu v).regs sp) v.pushed where
  aligned := by cases v <;> decide
  apart := by
    have small := v.proto.size_le
    have depth : v.pushed ≤ 44 := by cases v <;> decide
    have start : (0x27F01000 : Word).toNat = 0x27F01000 := rfl
    have top : ((callCpu v).regs sp - BitVec.ofNat 32 v.pushed).toNat + v.pushed = 0x10000000 := by
      cases v <;> decide
    exact (apart_of_order (by omega) (by omega)).comm

theorem call_original (v : Variant) (thumb : v.thumb = true) :
    Callee v.thumb (callCpu v).pc (insAt callState.mem (callCpu v).pc) 0x27E00009 := by
  have word : insAt callState.mem 0x27E00000 = 0xF000F802#32 := by decide +kernel
  rw [Callee, if_pos thumb]
  change ∃ high low, decodeThumb ((insAt callState.mem 0x27E00000).extractLsb' 16 16) = _ ∧
    decodeThumb ((insAt callState.mem 0x27E00000).extractLsb' 0 16) = _ ∧
    _ = ((0x27E00000#32 : Word) + 4#32 + high + low) ||| 1#32
  rw [word]
  exact ⟨0#32, 4#32, by decide, by decide, by decide⟩

theorem blreplace_unwinds_iff_call :
    ∃ e, run (fun _ _ => none) (2 + 7) (callCpu .tBlre) = some e ∧
      EntersTarget .tBlre 0x27C00101 0x27E00009 (callCpu .tBlre) e ∧
      ∀ t, Returns e t → Same (callCpu .tBlre).mem t.mem 0x27F01000 Proto.tBlre.size →
        ∃ f, run (fun _ _ => none) 2 t = some f ∧
          (Unwinds (callCpu .tBlre) t f ↔ Variant.tBlre ≠ .tBlreRegs ∧
            read32 t.mem ((callCpu .tBlre).regs sp - 4#32) = returnTo (callCpu .tBlre)) :=
  blreplace_unwinds_iff .tBlre (fun _ _ => none) (call_live .tBlre)
    ⟨0x100000#32, 0xFFC#32, by decide +kernel, by decide +kernel, by decide⟩ rfl (by decide)
    (call_original .tBlre rfl) (call_below .tBlre)

/-- A target that returns at once, everything untouched, does not get back to its
caller through the Thumb variant with registers. -/
theorem tBlreRegs_leaves_frame :
    ∃ e t f, Live sampleSymbols callState (callInstalled .tBlreRegs)
        ⟨.tBlreplaceWithRegs, 0x27E00000, 0x27C00101⟩ 0x27F01000 (callCpu .tBlreRegs).mem ∧
      Calls (callCpu .tBlreRegs) 0x27F01000 ∧
      run (fun _ _ => none) (2 + 8) (callCpu .tBlreRegs) = some e ∧
      Returns e t ∧ t.mem = e.mem ∧ run (fun _ _ => none) 2 t = some f ∧
      ¬ Unwinds (callCpu .tBlreRegs) t f := by
  have live := call_live .tBlreRegs
  have below := call_below .tBlreRegs
  have calls : Calls (callCpu .tBlreRegs) 0x27F01000 :=
    ⟨0x100000#32, 0xFFC#32, by decide +kernel, by decide +kernel, by decide⟩
  obtain ⟨e, ran, enters, link, _⟩ := enters_target .tBlreRegs (fun _ _ => none) live calls rfl
    (call_original .tBlreRegs rfl) below
  have returns : Returns e (e.interwork (e.regs lr)) := ⟨rfl, rfl, rfl, fun _ _ _ => rfl⟩
  have top : e.regs sp = (callCpu .tBlreRegs).regs sp - BitVec.ofNat 32 24 :=
    BitVec.eq_sub_iff_add_eq.mpr enters.above
  have code := live.code
  rw [Variant.plan_words] at code
  obtain ⟨f, tailRan, left⟩ := Variant.tail .tBlreRegs (fun _ _ => none)
    (e.interwork (e.regs lr)) 0x27F01000 _ _
    (Same.wordsAt (by rw [Variant.words_length]; exact enters.caller _ _ below.apart) code)
    live.aligned (by rw [returns.pc, link]) (by rw [returns.thumb, link])
    (by rw [returns.sp, top]; exact below.aligned.sub 24 rfl)
  refine ⟨e, _, f, live, calls, ran, returns, rfl, tailRan, ?_⟩
  intro unwinds
  have same := unwinds.sp
  rw [left.sp, returns.sp, top] at same
  revert same
  decide

end Stroopwafel.Trampoline
