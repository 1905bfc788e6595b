import Stroopwafel.IosElfTable
import Stroopwafel.Trampoline

set_option autoImplicit false

namespace Stroopwafel.IosElf

open Memory

/-- The header table, with its first entry even where that one says it is empty. -/
def tableBytes (m : Mem) : Nat := 32 * (numPhdrs m + 1)

theorem vaddrToPaddrFrom_congr (m m' : Mem) (addr : Word) (remaining i : Nat)
    (entry : ∀ j, i ≤ j → j < i + remaining → phdrAt m' j = phdrAt m j) :
    vaddrToPaddrFrom m' addr remaining i = vaddrToPaddrFrom m addr remaining i := by
  induction remaining generalizing i with
  | zero => rfl
  | succ remaining ih =>
      have tail := ih (i + 1) (fun j lower upper => entry j (by omega) (by omega))
      simp only [vaddrToPaddrFrom, entry i (Nat.le_refl i) (by omega), tail]

theorem phdrAt_table {m m' : Mem} (same : Same m m' phdrs (tableBytes m)) (j : Nat)
    (inside : j < numPhdrs m + 1) : phdrAt m' j = phdrAt m j := by
  apply phdrAt_same
  rw [phdrAddress]
  apply same.sub
  simp only [tableBytes]
  omega

theorem numPhdrs_same {m m' : Mem} (same : Same m m' phdrs (tableBytes m)) :
    numPhdrs m' = numPhdrs m := by
  simp only [numPhdrs, segPhdrs, phdrAt_table same 0 (by omega)]

theorem tableBytes_same {m m' : Mem} (same : Same m m' phdrs (tableBytes m)) :
    tableBytes m' = tableBytes m := by
  rw [tableBytes, tableBytes, numPhdrs_same same]

/-- Translation only depends on the header table. -/
theorem iosElfVaddrToPaddr_same {m m' : Mem} (same : Same m m' phdrs (tableBytes m))
    (addr : Word) : iosElfVaddrToPaddr m' addr = iosElfVaddrToPaddr m addr := by
  rw [iosElfVaddrToPaddr, iosElfVaddrToPaddr, numPhdrs_same same]
  apply vaddrToPaddrFrom_congr
  intro j lower upper
  exact phdrAt_table same j (by omega)

end Stroopwafel.IosElf

namespace Stroopwafel.Trampoline

open Memory IosElf

/-- `.skip 2048` -/
abbrev trampolineBufferSize : Nat := 2048

/-- How linker and loader place the pool and the prototypes. The last prototype
bytes behind the pool must not wrap around for the bounds test to work. -/
structure Symbols.Laid (sym : Symbols) : Prop where
  bufferEnd : sym.trampolineBufferEnd = sym.trampolineBuffer + BitVec.ofNat 32 trampolineBufferSize
  aligned : sym.trampolineBuffer.toNat % 4 = 0
  fits : sym.trampolineBuffer.toNat + trampolineBufferSize + 64 ≤ 2 ^ 32
  bufferApart : ∀ p, Apart (sym.proto p) p.size sym.trampolineBuffer trampolineBufferSize
  protosApart : ∀ p q, p ≠ q → Apart (sym.proto p) p.size (sym.proto q) q.size

/-- The words that the calls replace in a prototype. -/
def Proto.edited : Proto → List Nat
  | .blre => [blreChain, Proto.blre.target]
  | .blreRegs => [blreRegsChain, Proto.blreRegs.target]
  | .hookbefore => [Proto.hookbefore.target]
  | .hookbeforeLr => [Proto.hookbeforeLr.target, hookbeforeLrRet]
  | .tBlre => [tBlreChain, Proto.tBlre.target]
  | .tBlreRegs => [tBlreRegsChain, Proto.tBlreRegs.target]
  | .tHookbefore => [Proto.tHookbefore.target, tHookbeforeOrgins]
  | .tHookbeforeBl => [Proto.tHookbeforeBl.target, tHookbeforeBlChain]

/-- The words are the prototype's, but for those that the calls replace. -/
structure Proto.Agrees (p : Proto) (ws : List Word) : Prop where
  length : ws.length = p.code.length
  word : ∀ i, i ∉ p.edited → ws[i]? = p.code[i]?

abbrev Edits := List (Nat × Word)

def fill (ws : List Word) (edits : Edits) : List Word :=
  edits.foldl (fun ws edit => ws.set edit.1 edit.2) ws

def setWords (s : State) (base : Word) (edits : Edits) : State :=
  edits.foldl (fun s edit => setWord s base edit.1 edit.2) s

@[simp] theorem fill_nil (ws : List Word) : fill ws [] = ws := rfl

@[simp] theorem fill_cons (ws : List Word) (edit : Nat × Word) (edits : Edits) :
    fill ws (edit :: edits) = fill (ws.set edit.1 edit.2) edits := rfl

theorem fill_append (ws : List Word) (first second : Edits) :
    fill ws (first ++ second) = fill (fill ws first) second :=
  List.foldl_append

@[simp] theorem fill_length (ws : List Word) (edits : Edits) :
    (fill ws edits).length = ws.length := by
  induction edits generalizing ws with
  | nil => rfl
  | cons edit rest ih => rw [fill_cons, ih, List.length_set]

/-- Lists that differ at most where one of them is edited become equal. -/
theorem fill_eq (ws ws' : List Word) (edits : Edits) (length : ws.length = ws'.length)
    (word : ∀ i, i ∉ edits.map Prod.fst → ws[i]? = ws'[i]?) : fill ws edits = fill ws' edits := by
  induction edits generalizing ws ws' with
  | nil => exact List.ext_getElem? fun i => word i (by simp)
  | cons edit rest ih =>
      rw [fill_cons, fill_cons]
      apply ih
      · simp only [List.length_set, length]
      · intro i outside
        by_cases here : edit.1 = i
        · simp only [List.getElem?_set, here, length, if_true]
        · simp only [List.getElem?_set_ne here]
          exact word i (by simp [outside, Ne.symm here])

theorem fill_untouched (ws : List Word) (edits : Edits) (i : Nat)
    (outside : i ∉ edits.map Prod.fst) : (fill ws edits)[i]? = ws[i]? := by
  induction edits generalizing ws with
  | nil => rfl
  | cons edit rest ih =>
      simp only [List.map_cons, List.mem_cons, not_or] at outside
      rw [fill_cons, ih _ outside.2, List.getElem?_set_ne (Ne.symm outside.1)]

@[simp] theorem setWords_next (s : State) (base : Word) (edits : Edits) :
    (setWords s base edits).trampolineNext = s.trampolineNext := by
  induction edits generalizing s with
  | nil => rfl
  | cons edit rest ih => exact ih _

theorem setWords_wordsAt (s : State) (base : Word) (ws : List Word) (edits : Edits)
    (bound : 4 * ws.length ≤ 2 ^ 32) (inside : ∀ edit ∈ edits, edit.1 < ws.length)
    (words : WordsAt s.mem base ws) : WordsAt (setWords s base edits).mem base (fill ws edits) := by
  induction edits generalizing s ws with
  | nil => exact words
  | cons edit rest ih =>
      have first := words.write32 bound edit.1 (inside edit (by simp)) edit.2
      apply ih (setWord s base edit.1 edit.2) (ws.set edit.1 edit.2)
      · rwa [List.length_set]
      · intro other member
        rw [List.length_set]
        exact inside other (by simp [member])
      · exact first

theorem setWords_apart (s : State) (base a : Word) (n length : Nat) (edits : Edits)
    (inside : ∀ edit ∈ edits, edit.1 < length) (apart : Apart a n base (4 * length)) :
    Same s.mem (setWords s base edits).mem a n := by
  induction edits generalizing s with
  | nil => exact Same.refl s.mem a n
  | cons edit rest ih =>
      have bound := inside edit (by simp)
      have first := write32_apart s.mem a (base + BitVec.ofNat 32 (4 * edit.1)) n edit.2
        (apart.comm.sub (4 * edit.1) (by omega)).comm
      exact first.trans (ih _ fun other member => inside other (by simp [member]))

/-- The branch that is left at the patched address. -/
inductive Link where
  | bl
  | b
  | blT
  deriving DecidableEq

def Link.offsetBits : Link → Nat
  | .bl => 26
  | .b => 26
  | .blT => 23

def Link.word (link : Link) (addr dst : Word) : Word :=
  match link with
  | .bl => 0xEB000000#32 ||| ((dst - addr - 8#32).sdiv 4#32 &&& 0xFFFFFF#32)
  | .b => 0xEA000000#32 ||| ((dst - addr - 8#32).sdiv 4#32 &&& 0xFFFFFF#32)
  | .blT =>
      let offs := (dst - addr - 4#32).sdiv 2#32
      0xF000F800#32 ||| (offs &&& 0x7FF#32) ||| (((offs >>> 11) &&& 0x3FF#32) <<< 16)

def Link.patch (link : Link) (m : Mem) (addr dst : Word) : Mem :=
  patchU32K m addr (link.word addr dst)

theorem patchU32K_eq (m : Mem) (addr value : Word) :
    patchU32K m addr value = write32 m (iosElfVaddrToPaddr m addr) value :=
  write16_write16 m _ value

/-- What one call does, once the instruction at its address is known: edits of the
prototype, the branch, and edits of the copy. -/
structure Plan where
  proto : Proto
  before : Edits
  link : Link
  after : Edits

def Plan.words (plan : Plan) : List Word := fill plan.proto.code (plan.before ++ plan.after)

/-- The state after the copy and before the branch, with the address of the copy. -/
def Plan.copied (plan : Plan) (sym : Symbols) (s : State) : Option (State × Word) :=
  trampolineCopy sym (setWords s (sym.proto plan.proto) plan.before) plan.proto

def Plan.run (plan : Plan) (sym : Symbols) (s : State) (addr : Word) : Option State := do
  let (s, base) ← plan.copied sym s
  let alt ← trampolineFindMapping sym addr base plan.link.offsetBits
  pure (setWords { s with mem := plan.link.patch s.mem addr alt } base plan.after)

inductive Kind where
  | blreplace
  | blreplaceWithRegs
  | hookBefore
  | hookBeforeV2
  | tBlreplace
  | tBlreplaceWithRegs
  | tHookBefore
  deriving DecidableEq

structure Call where
  kind : Kind
  addr : Word
  target : Word

def Call.perform (call : Call) (sym : Symbols) (s : State) : Option State :=
  match call.kind with
  | .blreplace => trampolineBlreplace sym s call.addr call.target
  | .blreplaceWithRegs => trampolineBlreplaceWithRegs sym s call.addr call.target
  | .hookBefore => trampolineHookBefore sym s call.addr call.target
  | .hookBeforeV2 => trampolineHookBeforeV2 sym s call.addr call.target
  | .tBlreplace => trampolineTBlreplace sym s call.addr call.target
  | .tBlreplaceWithRegs => trampolineTBlreplaceWithRegs sym s call.addr call.target
  | .tHookBefore => trampolineTHookBefore sym s call.addr call.target

/-- The target of the `BL` in the word `ins` at `addr`, and 0 for another word. -/
def blTarget (addr ins : Word) : Word :=
  if ins >>> 24 ≠ 0xEB#32 then 0#32 else extractTarget addr ins

def bTarget (addr ins : Word) : Word :=
  if ins >>> 24 ≠ 0xEA#32 then 0#32 else extractTarget addr ins

def blTTarget (addr ins : Word) : Word :=
  let ins1 := ins.extractLsb' 16 16
  let ins2 := ins.extractLsb' 0 16
  if ins1 >>> 11 ≠ 0x1E#16 ∨ ins2 >>> 11 ≠ 0x1F#16 then 0#32
  else
    let off1 : Word := ins1.setWidth 32 <<< 21
    let off2 : Word := (ins2 &&& 0x7FF#16).setWidth 32 <<< 10
    let soff := (off1 ||| off2).sshiftRight 9
    (addr + soff + 4#32) ||| 1#32

/-- The plan of a call on an address that holds the word `ins`. -/
def Call.plan (call : Call) (ins : Word) : Plan :=
  let bl := blTarget call.addr ins
  let blT := blTTarget call.addr ins
  match call.kind with
  | .blreplace => ⟨.blre, [(blreChain, bl), (Proto.blre.target, call.target)], .bl, []⟩
  | .blreplaceWithRegs =>
      ⟨.blreRegs, [(blreRegsChain, bl), (Proto.blreRegs.target, call.target)], .bl, []⟩
  | .hookBefore =>
      ⟨.hookbefore, [(Proto.hookbefore.target, call.target)], .bl,
        if bl ≠ 0#32 then [(hookbeforeChain, bl)] else [(hookbeforeOrgins, ins)]⟩
  | .hookBeforeV2 =>
      let b := if bl = 0#32 then bTarget call.addr ins else bl
      ⟨.hookbeforeLr,
        [(Proto.hookbeforeLr.target, call.target),
          (hookbeforeLrRet, if b ≠ 0#32 then b else call.addr + 4#32)],
        if bl ≠ 0#32 then .bl else .b, if b = 0#32 then [(hookbeforeLrOrgins, ins)] else []⟩
  | .tBlreplace => ⟨.tBlre, [(tBlreChain, blT), (Proto.tBlre.target, call.target)], .blT, []⟩
  | .tBlreplaceWithRegs =>
      ⟨.tBlreRegs, [(tBlreRegsChain, blT), (Proto.tBlreRegs.target, call.target)], .blT, []⟩
  | .tHookBefore =>
      if blT ≠ 0#32 then
        ⟨.tHookbeforeBl,
          [(Proto.tHookbeforeBl.target, call.target), (tHookbeforeBlChain, blT)], .blT, []⟩
      else
        ⟨.tHookbefore,
          [(Proto.tHookbefore.target, call.target), (tHookbeforeOrgins, ins)], .blT, []⟩

/-- The instruction word at `addr`. -/
def insAt (m : Mem) (addr : Word) : Word := read32 m (iosElfVaddrToPaddr m addr)

theorem extractBlTarget_eq (m : Mem) (addr : Word) :
    extractBlTarget m addr = blTarget addr (insAt m addr) := rfl

theorem extractBTarget_eq (m : Mem) (addr : Word) :
    extractBTarget m addr = bTarget addr (insAt m addr) := rfl

theorem read32_halves (m : Mem) (a : Word) :
    (read32 m a).extractLsb' 16 16 = read16 m a ∧
      (read32 m a).extractLsb' 0 16 = read16 m (a + 2#32) :=
  ⟨BitVec.extractLsb'_append_eq_left, BitVec.extractLsb'_append_eq_right⟩

theorem extractBlTTarget_eq (m : Mem) (addr : Word) :
    extractBlTTarget m addr = blTTarget addr (insAt m addr) := by
  obtain ⟨high, low⟩ := read32_halves m (iosElfVaddrToPaddr m addr)
  simp only [extractBlTTarget, blTTarget, insAt, high, low]

/-- The hooked instruction and the header table lie outside pool and prototypes. -/
structure Outside (sym : Symbols) (m : Mem) (addr : Word) : Prop where
  pool : Apart (iosElfVaddrToPaddr m addr) 4 sym.trampolineBuffer trampolineBufferSize
  protos : ∀ p, Apart (iosElfVaddrToPaddr m addr) 4 (sym.proto p) p.size
  tablePool : Apart phdrs (tableBytes m) sym.trampolineBuffer trampolineBufferSize
  tableProtos : ∀ p, Apart phdrs (tableBytes m) (sym.proto p) p.size

/-- The halfwords of the hooked instruction, copied one by one. -/
theorem setHalf_eq_setWord (sym : Symbols) (s : State) (addr target : Word)
    (outside : Apart (iosElfVaddrToPaddr s.mem addr) 4 (sym.proto .tHookbefore)
      Proto.tHookbefore.size) :
    (let orgins := iosElfVaddrToPaddr s.mem addr
      let proto := sym.proto .tHookbefore
      let slot := proto + BitVec.ofNat 32 (4 * tHookbeforeOrgins)
      let s := setWord s proto Proto.tHookbefore.target target
      let s := setHalf s slot (read16 s.mem orgins)
      setHalf s (slot + 2#32) (read16 s.mem (orgins + 2#32))) =
    setWords s (sym.proto .tHookbefore)
      [(Proto.tHookbefore.target, target), (tHookbeforeOrgins, insAt s.mem addr)] := by
  have size : Proto.tHookbefore.size = 28 := rfl
  rw [size] at outside
  have edited : Same s.mem (setWord s (sym.proto .tHookbefore) Proto.tHookbefore.target target).mem
      (iosElfVaddrToPaddr s.mem addr) 4 :=
    write32_apart s.mem _ _ 4 target (outside.comm.sub 24 (by decide)).comm
  have high := (edited.mono (show 2 ≤ 4 by decide)).read16
  have low := (edited.sub 2 (show 2 + 2 ≤ 4 by decide)).read16
  have slotApart : Apart (iosElfVaddrToPaddr s.mem addr + BitVec.ofNat 32 2) 2
      (sym.proto .tHookbefore + BitVec.ofNat 32 (4 * tHookbeforeOrgins)) 2 :=
    ((outside.sub 2 (show 2 + 2 ≤ 4 by decide)).comm.sub 16 (by decide)).comm
  have kept := (write16_apart
    (setWord s (sym.proto .tHookbefore) Proto.tHookbefore.target target).mem _ _ 2
    (read16 s.mem (iosElfVaddrToPaddr s.mem addr)) slotApart).read16
  have whole := write16_write16
    (setWord s (sym.proto .tHookbefore) Proto.tHookbefore.target target).mem
    (sym.proto .tHookbefore + BitVec.ofNat 32 (4 * tHookbeforeOrgins)) (insAt s.mem addr)
  obtain ⟨highHalf, lowHalf⟩ := read32_halves s.mem (iosElfVaddrToPaddr s.mem addr)
  rw [insAt, highHalf, lowHalf] at whole
  simp only [setHalf, high]
  rw [show (2#32 : Word) = BitVec.ofNat 32 2 from rfl, kept, low]
  exact congrArg (fun mem => State.mk mem s.trampolineNext) whole

/-- Every call carries out its plan. -/
theorem Call.perform_eq (call : Call) (sym : Symbols) (s : State)
    (outside : Outside sym s.mem call.addr) :
    call.perform sym s = (call.plan (insAt s.mem call.addr)).run sym s call.addr := by
  obtain ⟨kind, addr, target⟩ := call
  cases kind with
  | blreplace =>
      simp only [perform, trampolineBlreplace, trampolineInstall, bind_assoc, pure_bind]
      rfl
  | blreplaceWithRegs =>
      simp only [perform, trampolineBlreplaceWithRegs, trampolineInstall, bind_assoc, pure_bind]
      rfl
  | hookBefore =>
      simp only [perform, trampolineHookBefore, trampolineInstall, bind_assoc, pure_bind,
        extractBlTarget_eq, Call.plan]
      by_cases branch : blTarget addr (insAt s.mem addr) = 0#32
      · simp only [branch, ne_eq, not_true_eq_false, if_false]
        rfl
      · simp only [branch, ne_eq, not_false_eq_true, if_true]
        rfl
  | hookBeforeV2 =>
      simp only [perform, trampolineHookBeforeV2, trampolineInstall, trampolineInstallNolink,
        extractBlTarget_eq, extractBTarget_eq, Call.plan]
      by_cases linked : blTarget addr (insAt s.mem addr) = 0#32
      · by_cases branch : bTarget addr (insAt s.mem addr) = 0#32
        · simp only [linked, branch, ne_eq, not_true_eq_false, decide_false, Bool.false_eq_true,
            if_false, if_true, bind_assoc, pure_bind]
          rfl
        · simp only [linked, branch, ne_eq, not_true_eq_false, not_false_eq_true, decide_false,
            Bool.false_eq_true, if_false, if_true, bind_assoc, pure_bind]
          rfl
      · simp only [linked, ne_eq, not_false_eq_true, decide_true, if_false, if_true, bind_assoc,
          pure_bind]
        rfl
  | tBlreplace =>
      simp only [perform, trampolineTBlreplace, trampolineTInstall, bind_assoc, pure_bind,
        extractBlTTarget_eq]
      rfl
  | tBlreplaceWithRegs =>
      simp only [perform, trampolineTBlreplaceWithRegs, trampolineTInstall, bind_assoc, pure_bind,
        extractBlTTarget_eq]
      rfl
  | tHookBefore =>
      simp only [perform, trampolineTHookBefore, extractBlTTarget_eq, Call.plan]
      by_cases branch : blTTarget addr (insAt s.mem addr) = 0#32
      · have edits := setHalf_eq_setWord sym s addr target (outside.protos .tHookbefore)
        simp only [branch, ne_eq, not_true_eq_false, if_false, trampolineTHookBeforeIns, edits,
          trampolineTInstall, bind_assoc, pure_bind]
        rfl
      · simp only [branch, ne_eq, not_false_eq_true, if_true, trampolineTHookBeforeBl,
          trampolineTInstall, bind_assoc, pure_bind]
        rfl

theorem Proto.Agrees.fill {p : Proto} {ws : List Word} (agrees : p.Agrees ws) (edits : Edits)
    (covers : edits.map Prod.fst = p.edited) : fill ws edits = Trampoline.fill p.code edits := by
  apply fill_eq _ _ _ agrees.length
  rw [covers]
  exact agrees.word

theorem Proto.agrees_fill (p : Proto) (edits : Edits) (covers : edits.map Prod.fst = p.edited) :
    p.Agrees (Trampoline.fill p.code edits) where
  length := fill_length _ _
  word i outside := fill_untouched _ _ i (by rwa [covers])

/-- The plan replaces exactly the variable words of its prototype. -/
structure Plan.Proper (plan : Plan) : Prop where
  edits : plan.before.map Prod.fst = plan.proto.edited
  before : ∀ edit ∈ plan.before, edit.1 < plan.proto.code.length
  after : ∀ edit ∈ plan.after, edit.1 < plan.proto.code.length

theorem Call.plan_proper (call : Call) (ins : Word) : (call.plan ins).Proper := by
  obtain ⟨kind, addr, target⟩ := call
  cases kind with
  | blreplace => exact ⟨rfl, by simp [Call.plan, Proto.code, Proto.target], by simp [Call.plan]⟩
  | blreplaceWithRegs =>
      exact ⟨rfl, by simp [Call.plan, Proto.code, Proto.target], by simp [Call.plan]⟩
  | hookBefore =>
      refine ⟨rfl, by simp [Call.plan, Proto.code, Proto.target], ?_⟩
      simp only [Call.plan]
      split <;> simp [Proto.code, hookbeforeChain, hookbeforeOrgins]
  | hookBeforeV2 =>
      refine ⟨rfl, by simp [Call.plan, Proto.code, Proto.target], ?_⟩
      simp only [Call.plan]
      split <;> simp [Proto.code, hookbeforeLrOrgins]
  | tBlreplace => exact ⟨rfl, by simp [Call.plan, Proto.code, Proto.target], by simp [Call.plan]⟩
  | tBlreplaceWithRegs =>
      exact ⟨rfl, by simp [Call.plan, Proto.code, Proto.target], by simp [Call.plan]⟩
  | tHookBefore =>
      simp only [Call.plan]
      split
      · exact ⟨rfl, by simp [Proto.code, Proto.target, tHookbeforeBlChain], by simp⟩
      · exact ⟨rfl, by simp [Proto.code, Proto.target, tHookbeforeOrgins], by simp⟩

structure Copy where
  base : Word
  words : List Word

def Copy.size (copy : Copy) : Nat := 4 * copy.words.length

/-- The pool after some installs: intact prototypes, and the copies one behind the
other below the cursor. -/
structure Pool (sym : Symbols) (s : State) (copies : List Copy) : Prop where
  template : ∀ p, ∃ ws, p.Agrees ws ∧ WordsAt s.mem (sym.proto p) ws
  aligned : s.trampolineNext.toNat % 4 = 0
  lower : sym.trampolineBuffer.toNat ≤ s.trampolineNext.toNat
  upper : s.trampolineNext.toNat ≤ sym.trampolineBuffer.toNat + trampolineBufferSize
  inside : ∀ copy ∈ copies, copy.base.toNat % 4 = 0 ∧
    sym.trampolineBuffer.toNat ≤ copy.base.toNat ∧
    copy.base.toNat + copy.size ≤ s.trampolineNext.toNat
  words : ∀ copy ∈ copies, WordsAt s.mem copy.base copy.words
  order : copies.Pairwise fun a b => a.base.toNat + a.size ≤ b.base.toNat

theorem align_four (x : Word) (aligned : x.toNat % 4 = 0) : align x 4#32 = x := by
  have rest : (x - 1#32) % 4#32 = 3#32 := by
    apply BitVec.eq_of_toNat_eq
    rw [BitVec.toNat_umod, BitVec.toNat_sub]
    change (2 ^ 32 - 1 + x.toNat) % 2 ^ 32 % 4 = 3
    omega
  rw [align, rest]
  exact BitVec.add_sub_cancel x 3#32

theorem Proto.size_le (p : Proto) : p.size ≤ 44 := by
  cases p <;> decide

theorem Proto.size_mod (p : Proto) : p.size % 4 = 0 := Nat.mul_mod_right 4 _

/-- What an install leaves, next to the words of its prototype. -/
structure Effect (sym : Symbols) (s s' : State) (addr : Word) (plan : Plan) : Prop where
  room : s.trampolineNext.toNat + plan.proto.size <
    sym.trampolineBuffer.toNat + trampolineBufferSize
  next : s'.trampolineNext = s.trampolineNext + BitVec.ofNat 32 plan.proto.size
  words : WordsAt s'.mem s.trampolineNext plan.words
  template : WordsAt s'.mem (sym.proto plan.proto) (fill plan.proto.code plan.before)
  patched : ∃ alt, trampolineFindMapping sym addr s.trampolineNext plan.link.offsetBits = some alt ∧
    read32 s'.mem (iosElfVaddrToPaddr s.mem addr) = plan.link.word addr alt
  frame : ∀ a n, Apart a n (sym.proto plan.proto) plan.proto.size →
    Apart a n s.trampolineNext plan.proto.size → Apart a n (iosElfVaddrToPaddr s.mem addr) 4 →
    Same s.mem s'.mem a n

section Install

variable {sym : Symbols} {s s' : State} {addr : Word} {plan : Plan} {copies : List Copy}

/-- The memory after the copy and before the branch. -/
def Plan.copiedMem (plan : Plan) (sym : Symbols) (s : State) : Mem :=
  copy16 (setWords s (sym.proto plan.proto) plan.before).mem s.trampolineNext
    (sym.proto plan.proto) (plan.proto.size / 2)

theorem Plan.run_eq_some (aligned : s.trampolineNext.toNat % 4 = 0)
    (ran : plan.run sym s addr = some s') :
    s.trampolineNext + BitVec.ofNat 32 plan.proto.size < sym.trampolineBufferEnd ∧
      ∃ alt, trampolineFindMapping sym addr s.trampolineNext plan.link.offsetBits = some alt ∧
        s' = setWords
          ⟨plan.link.patch (plan.copiedMem sym s) addr alt,
            s.trampolineNext + BitVec.ofNat 32 plan.proto.size⟩ s.trampolineNext plan.after := by
  simp only [Plan.run, Plan.copied, trampolineCopy, setWords_next, align_four _ aligned,
    Option.bind_eq_bind, Option.bind_eq_some_iff, Option.pure_def, Option.some.injEq] at ran
  obtain ⟨⟨middle, base⟩, copied, alt, mapping, same⟩ := ran
  split at copied
  · cases copied
  · rename_i room
    simp only [Option.some.injEq, Prod.mk.injEq] at copied
    obtain ⟨rfl, rfl⟩ := copied
    exact ⟨BitVec.not_le.mp room, alt, mapping, same.symm⟩

theorem Plan.run_effect (laid : sym.Laid) (pool : Pool sym s copies) (proper : plan.Proper)
    (outside : Outside sym s.mem addr) (ran : plan.run sym s addr = some s') :
    Effect sym s s' addr plan := by
  obtain ⟨room, alt, mapping, rfl⟩ := Plan.run_eq_some pool.aligned ran
  obtain ⟨ws, agrees, initial⟩ := pool.template plan.proto
  have lower := pool.lower
  have upper := pool.upper
  have small := plan.proto.size_le
  have fits := laid.fits
  have bufferEnd : sym.trampolineBufferEnd.toNat =
      sym.trampolineBuffer.toNat + trampolineBufferSize := by
    rw [laid.bufferEnd, BitVec.toNat_add, BitVec.toNat_ofNat, Nat.mod_eq_of_lt (by omega),
      Nat.mod_eq_of_lt (by omega)]
  have room : s.trampolineNext.toNat + plan.proto.size <
      sym.trampolineBuffer.toNat + trampolineBufferSize := by
    rw [BitVec.lt_def, bufferEnd, BitVec.toNat_add, BitVec.toNat_ofNat,
      Nat.mod_eq_of_lt (by omega : plan.proto.size < 2 ^ 32), Nat.mod_eq_of_lt (by omega)] at room
    exact room
  have size : 2 * (plan.proto.size / 2) = plan.proto.size := by
    have := plan.proto.size_mod
    omega
  have length : plan.proto.size = 4 * plan.proto.code.length := rfl
  have poolApart : ∀ a n, Apart a n sym.trampolineBuffer trampolineBufferSize →
      Apart a n s.trampolineNext plan.proto.size :=
    fun a n apart => apart.within lower (by omega)
  have copyApart : ∀ p, Apart (sym.proto p) p.size s.trampolineNext plan.proto.size :=
    fun p => poolApart _ _ (laid.bufferApart p)
  -- the prototype and the copy right before the branch is written
  have edited := setWords_wordsAt s (sym.proto plan.proto) ws plan.before
    (by rw [agrees.length]; omega) (fun edit member => by
      rw [agrees.length]
      exact proper.before edit member) initial
  rw [agrees.fill plan.before proper.edits] at edited
  have copied : Shows (setWords s (sym.proto plan.proto) plan.before).mem (sym.proto plan.proto)
      (plan.copiedMem sym s) s.trampolineNext plan.proto.size := by
    rw [← size]
    apply copy16_shows
    · omega
    · rw [size]
      exact (copyApart plan.proto).comm
  have protoKept : Same (setWords s (sym.proto plan.proto) plan.before).mem (plan.copiedMem sym s)
      (sym.proto plan.proto) plan.proto.size := by
    apply copy16_apart
    rw [size]
    exact copyApart plan.proto
  have framed : ∀ a n, Apart a n (sym.proto plan.proto) plan.proto.size →
      Apart a n s.trampolineNext plan.proto.size → Same s.mem (plan.copiedMem sym s) a n := by
    intro a n proto copy
    have first := setWords_apart s (sym.proto plan.proto) a n _ plan.before proper.before proto
    refine first.trans (copy16_apart _ a _ _ n _ ?_)
    rwa [size]
  have site : iosElfVaddrToPaddr (plan.copiedMem sym s) addr = iosElfVaddrToPaddr s.mem addr :=
    iosElfVaddrToPaddr_same (framed phdrs _ (outside.tableProtos plan.proto)
      (poolApart _ _ outside.tablePool)) addr
  have siteCopy := poolApart _ _ outside.pool
  have siteProto := outside.protos plan.proto
  have fullLength : (fill plan.proto.code plan.before).length = plan.proto.code.length :=
    fill_length _ _
  refine ⟨room, setWords_next _ _ _, ?_, ?_, ⟨alt, mapping, ?_⟩, ?_⟩
  · have afterBranch := write32_apart (plan.copiedMem sym s) s.trampolineNext
      (iosElfVaddrToPaddr s.mem addr) plan.proto.size (plan.link.word addr alt) siteCopy.comm
    have words : WordsAt (plan.copiedMem sym s) s.trampolineNext
        (fill plan.proto.code plan.before) := by
      apply Shows.wordsAt _ edited
      rw [fullLength]
      exact copied
    rw [Plan.words, fill_append]
    apply setWords_wordsAt
    · rw [fullLength]
      omega
    · rw [fullLength]
      exact proper.after
    · simp only [Link.patch, patchU32K_eq, site]
      apply Same.wordsAt _ words
      rw [fullLength]
      exact afterBranch
  · have words : WordsAt (plan.copiedMem sym s) (sym.proto plan.proto)
        (fill plan.proto.code plan.before) := by
      apply Same.wordsAt _ edited
      rw [fullLength]
      exact protoKept
    refine Same.wordsAt ?_ words
    rw [fullLength]
    refine Same.trans ?_ (setWords_apart _ s.trampolineNext _ _ _ plan.after proper.after
      (copyApart plan.proto))
    simp only [Link.patch, patchU32K_eq, site]
    exact write32_apart _ _ _ _ _ siteProto.comm
  · have kept := setWords_apart
      ⟨plan.link.patch (plan.copiedMem sym s) addr alt,
        s.trampolineNext + BitVec.ofNat 32 plan.proto.size⟩ s.trampolineNext
      (iosElfVaddrToPaddr s.mem addr) 4 _ plan.after proper.after siteCopy
    rw [kept.read32]
    simp only [Link.patch, patchU32K_eq, site, read32_write32]
  · intro a n proto copy branch
    refine (framed a n proto copy).trans (Same.trans ?_
      (setWords_apart _ s.trampolineNext a n _ plan.after proper.after copy))
    simp only [Link.patch, patchU32K_eq, site]
    exact write32_apart _ _ _ _ _ branch

end Install

/-- The copy a call installs, by the call and the instruction at its address alone. -/
def Call.copy (call : Call) (s : State) : Copy :=
  ⟨s.trampolineNext, (call.plan (insAt s.mem call.addr)).words⟩

@[simp] theorem Plan.words_length (plan : Plan) :
    plan.words.length = plan.proto.code.length :=
  fill_length _ _

section Run

variable {sym : Symbols} {s s' : State} {call : Call} {copies : List Copy}

theorem Call.effect (laid : sym.Laid) (pool : Pool sym s copies)
    (outside : Outside sym s.mem call.addr) (ran : call.perform sym s = some s') :
    Effect sym s s' call.addr (call.plan (insAt s.mem call.addr)) := by
  rw [call.perform_eq sym s outside] at ran
  exact Plan.run_effect laid pool (call.plan_proper _) outside ran

/-- An install keeps every byte of the earlier copies. -/
theorem Effect.earlier {addr : Word} {plan : Plan} (effect : Effect sym s s' addr plan)
    (laid : sym.Laid) (pool : Pool sym s copies) (outside : Outside sym s.mem addr)
    (copy : Copy) (member : copy ∈ copies) : Same s.mem s'.mem copy.base copy.size := by
  obtain ⟨_, lower, upper⟩ := pool.inside copy member
  have cursor := pool.upper
  have room := effect.room
  have fits := laid.fits
  apply effect.frame
  · exact ((laid.bufferApart plan.proto).within lower (by omega)).comm
  · exact apart_of_order upper (by omega)
  · exact (outside.pool.within lower (by omega)).comm

/-- One install keeps the invariant and adds its copy. -/
theorem Effect.pool {plan : Plan} {addr : Word} (effect : Effect sym s s' addr plan)
    (laid : sym.Laid) (proper : plan.Proper) (pool : Pool sym s copies)
    (outside : Outside sym s.mem addr) :
    Pool sym s' (copies ++ [⟨s.trampolineNext, plan.words⟩]) := by
  have room := effect.room
  have fits := laid.fits
  have lower := pool.lower
  have multiple := plan.proto.size_mod
  have aligned := pool.aligned
  have next : s'.trampolineNext.toNat = s.trampolineNext.toNat + plan.proto.size := by
    rw [effect.next, BitVec.toNat_add, BitVec.toNat_ofNat, Nat.mod_eq_of_lt (by omega),
      Nat.mod_eq_of_lt (by omega)]
  have size : (Copy.mk s.trampolineNext plan.words).size = plan.proto.size := by
    rw [Copy.size, Plan.words_length]
    rfl
  refine ⟨?_, by omega, by omega, by omega, ?_, ?_, ?_⟩
  · intro p
    by_cases same : p = plan.proto
    · subst p
      exact ⟨_, plan.proto.agrees_fill plan.before proper.edits, effect.template⟩
    · obtain ⟨ws, agrees, words⟩ := pool.template p
      refine ⟨ws, agrees, Same.wordsAt (effect.frame _ _ ?_ ?_ ?_) words⟩
      · rw [agrees.length]
        exact laid.protosApart p plan.proto same
      · rw [agrees.length]
        exact (laid.bufferApart p).within lower (by omega)
      · rw [agrees.length]
        exact (outside.protos p).comm
  · intro copy member
    rcases List.mem_append.mp member with earlier | last
    · obtain ⟨multiple, start, stop⟩ := pool.inside copy earlier
      exact ⟨multiple, start, by omega⟩
    · cases List.mem_singleton.mp last
      rw [size]
      exact ⟨aligned, lower, Nat.le_of_eq next.symm⟩
  · intro copy member
    rcases List.mem_append.mp member with earlier | last
    · exact (effect.earlier laid pool outside copy earlier).wordsAt (pool.words copy earlier)
    · cases List.mem_singleton.mp last
      exact effect.words
  · refine List.pairwise_append.mpr ⟨pool.order, List.pairwise_singleton _ _, ?_⟩
    intro a earlier b last
    cases List.mem_singleton.mp last
    exact (pool.inside a earlier).2.2

end Run

/-- Successive calls, with the copies they install. `none` if one of them ends in
`crash_and_burn`. -/
def performAll (sym : Symbols) : List Call → State → Option (State × List Copy)
  | [], s => some (s, [])
  | call :: rest, s => do
      let next ← call.perform sym s
      let (last, copies) ← performAll sym rest next
      pure (last, call.copy s :: copies)

/-- No call patches a word of the pool or of a prototype. -/
def AllOutside (sym : Symbols) : List Call → State → Prop
  | [], _ => True
  | call :: rest, s =>
      Outside sym s.mem call.addr ∧
        ∀ next, call.perform sym s = some next → AllOutside sym rest next

theorem performAll_cons {sym : Symbols} {call : Call} {rest : List Call} {s last : State}
    {copies : List Copy} (ran : performAll sym (call :: rest) s = some (last, copies)) :
    ∃ next later, call.perform sym s = some next ∧
      performAll sym rest next = some (last, later) ∧ copies = call.copy s :: later := by
  simp only [performAll, Option.bind_eq_bind, Option.bind_eq_some_iff, Option.pure_def,
    Option.some.injEq, Prod.mk.injEq] at ran
  obtain ⟨next, first, ⟨last', later⟩, more, rfl, rfl⟩ := ran
  exact ⟨next, later, first, more, rfl⟩

theorem performAll_pool {sym : Symbols} (laid : sym.Laid) (calls : List Call) (s last : State)
    (earlier copies : List Copy) (pool : Pool sym s earlier) (outside : AllOutside sym calls s)
    (ran : performAll sym calls s = some (last, copies)) :
    Pool sym last (earlier ++ copies) ∧
      ∀ copy ∈ earlier, Same s.mem last.mem copy.base copy.size := by
  induction calls generalizing s earlier copies with
  | nil =>
      cases ran
      rw [List.append_nil]
      exact ⟨pool, fun copy _ => Same.refl _ _ _⟩
  | cons call rest ih =>
      obtain ⟨next, later, first, more, rfl⟩ := performAll_cons ran
      have effect := Call.effect laid pool outside.1 first
      have grown := effect.pool laid (call.plan_proper _) pool outside.1
      obtain ⟨final, kept⟩ := ih next (earlier ++ [call.copy s]) later grown
        (outside.2 next first) more
      refine ⟨by rwa [List.append_assoc] at final, ?_⟩
      intro copy member
      exact (effect.earlier laid pool outside.1 copy member).trans (kept copy (by simp [member]))

/-- The prototypes as assembled and an empty pool. -/
structure Initial (sym : Symbols) (s : State) : Prop where
  protos : ∀ p, WordsAt s.mem (sym.proto p) p.code
  next : s.trampolineNext = sym.trampolineBuffer

theorem Initial.pool {sym : Symbols} {s : State} (initial : Initial sym s) (laid : sym.Laid) :
    Pool sym s [] where
  template p := ⟨p.code, ⟨rfl, fun _ _ => rfl⟩, initial.protos p⟩
  aligned := by
    rw [initial.next]
    exact laid.aligned
  lower := Nat.le_of_eq (congrArg BitVec.toNat initial.next.symm)
  upper := by rw [initial.next]; exact Nat.le_add_right _ _
  inside _ member := by cases member
  words _ member := by cases member
  order := .nil

/-- What the pool promises after `first` and then `later` calls. -/
structure Kept (sym : Symbols) (middle last : State) (first later : List Copy) : Prop where
  disjoint : (first ++ later).Pairwise fun a b => Apart a.base a.size b.base b.size
  inside : ∀ copy ∈ first ++ later, copy.base.toNat % 4 = 0 ∧
    sym.trampolineBuffer ≤ copy.base ∧ copy.base.toNat + copy.size ≤ sym.trampolineBufferEnd.toNat
  words : ∀ copy ∈ first ++ later, WordsAt last.mem copy.base copy.words
  unchanged : ∀ copy ∈ first, Same middle.mem last.mem copy.base copy.size

/-- Installs that patch neither the pool nor a prototype never disturb a copy. -/
theorem performAll_kept (sym : Symbols) (laid : sym.Laid) (first later : List Call)
    (start middle last : State) (copies copies' : List Copy) (initial : Initial sym start)
    (outside : AllOutside sym first start) (outside' : AllOutside sym later middle)
    (ran : performAll sym first start = some (middle, copies))
    (ran' : performAll sym later middle = some (last, copies')) :
    Kept sym middle last copies copies' := by
  obtain ⟨pool, _⟩ := performAll_pool laid first start middle [] copies (initial.pool laid)
    outside ran
  obtain ⟨final, unchanged⟩ := performAll_pool laid later middle last copies copies' pool
    outside' ran'
  have bufferEnd : sym.trampolineBufferEnd.toNat =
      sym.trampolineBuffer.toNat + trampolineBufferSize := by
    have fits := laid.fits
    rw [laid.bufferEnd, BitVec.toNat_add, BitVec.toNat_ofNat, Nat.mod_eq_of_lt (by omega),
      Nat.mod_eq_of_lt (by omega)]
  have upper := final.upper
  refine ⟨?_, ?_, final.words, unchanged⟩
  · refine final.order.imp_of_mem ?_
    intro a b _ member order
    have fits := laid.fits
    exact apart_of_order order (by have := (final.inside b member).2.2; omega)
  · intro copy member
    obtain ⟨multiple, lower, stop⟩ := final.inside copy member
    exact ⟨multiple, lower, by omega⟩

/-- The prototypes in slots of 64 bytes, with the pool behind them. -/
def sampleSymbols : Symbols where
  proto p := 0x27F00000#32 + BitVec.ofNat 32 (64 * p.ctorIdx)
  trampolineBuffer := 0x27F01000
  trampolineBufferEnd := 0x27F01800
  wafelPluginBaseAddr := 0x27B00000

def writeProtos (sym : Symbols) (m : Mem) : List Proto → Mem
  | [] => m
  | p :: rest => writeProtos sym (writeWords m (sym.proto p) p.code) rest

theorem writeProtos_apart (sym : Symbols) (m : Mem) (a : Word) (n : Nat) (protos : List Proto)
    (apart : ∀ p ∈ protos, Apart a n (sym.proto p) p.size) :
    Same m (writeProtos sym m protos) a n := by
  induction protos generalizing m with
  | nil => exact Same.refl m a n
  | cons p rest ih =>
      have first := writeWords_apart m a (sym.proto p) n p.code (apart p (by simp))
      exact first.trans (ih _ fun q member => apart q (by simp [member]))

theorem writeProtos_wordsAt (sym : Symbols) (laid : sym.Laid) (m : Mem) (protos : List Proto)
    (distinct : protos.Nodup) (p : Proto) (member : p ∈ protos) :
    WordsAt (writeProtos sym m protos) (sym.proto p) p.code := by
  induction protos generalizing m with
  | nil => cases member
  | cons q rest ih =>
      rw [List.nodup_cons] at distinct
      rcases List.mem_cons.mp member with rfl | behind
      · have small := p.size_le
        have words := writeWords_wordsAt m (sym.proto p) p.code (show p.size ≤ 2 ^ 32 by omega)
        refine Same.wordsAt (writeProtos_apart sym _ _ _ rest ?_) words
        intro q later
        exact laid.protosApart p q fun same => distinct.1 (same ▸ later)
      · exact ih (writeWords m (sym.proto q) q.code) distinct.2 behind

def sampleState : State where
  mem := writeProtos sampleSymbols (fun _ => 0#8)
    [.blre, .blreRegs, .hookbefore, .hookbeforeLr, .tBlre, .tBlreRegs, .tHookbefore, .tHookbeforeBl]
  trampolineNext := sampleSymbols.trampolineBuffer

theorem sampleSymbols_proto (p : Proto) :
    (sampleSymbols.proto p).toNat = 0x27F00000 + 64 * p.ctorIdx := by
  cases p <;> rfl

theorem sampleSymbols_laid : sampleSymbols.Laid where
  bufferEnd := rfl
  aligned := rfl
  fits := by decide
  bufferApart p := by
    have start := sampleSymbols_proto p
    have small := p.size_le
    have index : p.ctorIdx < 8 := by cases p <;> decide
    have buffer : sampleSymbols.trampolineBuffer.toNat = 0x27F01000 := rfl
    exact apart_of_order (by omega) (by decide)
  protosApart p q distinct := by
    have startP := sampleSymbols_proto p
    have startQ := sampleSymbols_proto q
    have smallP := p.size_le
    have smallQ := q.size_le
    have indexP : p.ctorIdx < 8 := by cases p <;> decide
    have indexQ : q.ctorIdx < 8 := by cases q <;> decide
    have indices : p.ctorIdx ≠ q.ctorIdx := by
      intro same
      apply distinct
      cases p <;> cases q <;> first | rfl | cases same
    rcases Nat.lt_or_gt_of_ne indices with before | behind
    · exact apart_of_order (by omega) (by omega)
    · exact (apart_of_order (by omega) (by omega)).comm

theorem sampleState_initial : Initial sampleSymbols sampleState where
  protos p := by
    apply writeProtos_wordsAt _ sampleSymbols_laid _ _ (by decide)
    cases p <;> decide
  next := rfl

/-- Without a header table an address is its own translation. -/
theorem outside_sample (m : Mem) (addr : Word) (empty : numPhdrs m = 0)
    (below : addr.toNat + 4 ≤ 0x27F00000) : Outside sampleSymbols m addr := by
  have identity : iosElfVaddrToPaddr m addr = addr := by
    rw [iosElfVaddrToPaddr, empty]
    rfl
  have table : tableBytes m = 32 := by rw [tableBytes, empty]
  have phdrsValue : phdrs.toNat = 0x1D000000 := rfl
  have buffer : sampleSymbols.trampolineBuffer.toNat = 0x27F01000 := rfl
  have proto : ∀ a n (p : Proto), a.toNat + n ≤ 0x27F00000 →
      Apart a n (sampleSymbols.proto p) p.size := by
    intro a n p order
    have start := sampleSymbols_proto p
    have small := p.size_le
    have index : p.ctorIdx < 8 := by cases p <;> decide
    exact apart_of_order (by omega) (by omega)
  refine ⟨?_, ?_, ?_, ?_⟩
  · rw [identity]
    exact apart_of_order (by omega) (by decide)
  · intro p
    rw [identity]
    exact proto addr 4 p below
  · rw [table]
    exact apart_of_order (by omega) (by decide)
  · intro p
    rw [table]
    exact proto phdrs 32 p (by omega)

theorem performAll_kept_sample :
    ∃ middle last copies copies',
      performAll sampleSymbols [⟨.hookBefore, 0x26000000, 0x27C00000⟩] sampleState =
        some (middle, copies) ∧
      performAll sampleSymbols [⟨.tBlreplace, 0x27E00000, 0x27C00101⟩] middle =
        some (last, copies') ∧
      Kept sampleSymbols middle last copies copies' := by
  refine ⟨_, _, _, _, rfl, rfl, performAll_kept sampleSymbols sampleSymbols_laid
    [⟨.hookBefore, 0x26000000, 0x27C00000⟩] [⟨.tBlreplace, 0x27E00000, 0x27C00101⟩] _ _ _ _ _
    sampleState_initial ⟨?_, ?_⟩ ⟨?_, ?_⟩ rfl rfl⟩
  · exact outside_sample _ _ (by decide +kernel) (by decide)
  · exact fun _ _ => trivial
  · exact outside_sample _ _ (by decide +kernel) (by decide)
  · exact fun _ _ => trivial

/-- A call on the first word of an installed copy replaces that word by a branch. -/
theorem performAll_overwrites :
    ∃ middle last copies copies',
      sampleSymbols.Laid ∧ Initial sampleSymbols sampleState ∧
      performAll sampleSymbols [⟨.hookBefore, 0x26000000, 0x27C00000⟩] sampleState =
        some (middle, copies) ∧
      performAll sampleSymbols [⟨.blreplace, 0x27F01000, 0x27C00100⟩] middle =
        some (last, copies') ∧
      ¬ Kept sampleSymbols middle last copies copies' := by
  refine ⟨_, _, _, _, sampleSymbols_laid, sampleState_initial, rfl, rfl, ?_⟩
  intro kept
  have same := kept.unchanged _ (List.mem_singleton.mpr rfl) 0 (by decide)
  revert same
  decide +kernel

end Stroopwafel.Trampoline
