import Stroopwafel.Arm

set_option autoImplicit false

/- Rules for running straight-line code that stands at a known place. -/
namespace Arm

open Memory

section Registers

variable (c : Cpu) (r r' : Reg) (value target : Word) (rs : List Reg)

@[simp] theorem Cpu.set_same : (c.set r value).regs r = value := by
  simp only [Cpu.set, if_true]

@[simp] theorem Cpu.set_other (distinct : r' ≠ r) : (c.set r value).regs r' = c.regs r' := by
  simp only [Cpu.set, distinct, if_false]

@[simp] theorem Cpu.set_mem : (c.set r value).mem = c.mem := rfl
@[simp] theorem Cpu.set_pc : (c.set r value).pc = c.pc := rfl
@[simp] theorem Cpu.set_thumb : (c.set r value).thumb = c.thumb := rfl
@[simp] theorem Cpu.set_flags : (c.set r value).flags = c.flags := rfl

@[simp] theorem Cpu.store_regs (address : Word) : (c.store address value).regs = c.regs := rfl
@[simp] theorem Cpu.store_mem (address : Word) :
    (c.store address value).mem = write32 c.mem address value := rfl
@[simp] theorem Cpu.store_pc (address : Word) : (c.store address value).pc = c.pc := rfl
@[simp] theorem Cpu.store_thumb (address : Word) : (c.store address value).thumb = c.thumb := rfl
@[simp] theorem Cpu.store_flags (address : Word) : (c.store address value).flags = c.flags := rfl

@[simp] theorem Cpu.compare_regs : (c.compare value target).regs = c.regs := rfl
@[simp] theorem Cpu.compare_mem : (c.compare value target).mem = c.mem := rfl
@[simp] theorem Cpu.compare_pc : (c.compare value target).pc = c.pc := rfl
@[simp] theorem Cpu.compare_thumb : (c.compare value target).thumb = c.thumb := rfl
@[simp] theorem Cpu.compare_flags : (c.compare value target).flags = Flags.compare value target :=
  rfl

@[simp] theorem Cpu.next_regs : c.next.regs = c.regs := rfl
@[simp] theorem Cpu.next_mem : c.next.mem = c.mem := rfl
@[simp] theorem Cpu.next_pc : c.next.pc = c.pc + c.size := rfl
@[simp] theorem Cpu.next_thumb : c.next.thumb = c.thumb := rfl
@[simp] theorem Cpu.next_flags : c.next.flags = c.flags := rfl

@[simp] theorem Cpu.interwork_regs : (c.interwork target).regs = c.regs := rfl
@[simp] theorem Cpu.interwork_mem : (c.interwork target).mem = c.mem := rfl
@[simp] theorem Cpu.interwork_pc : (c.interwork target).pc = target &&& ~~~1#32 := rfl
@[simp] theorem Cpu.interwork_thumb : (c.interwork target).thumb = target.getLsbD 0 := rfl
@[simp] theorem Cpu.interwork_flags : (c.interwork target).flags = c.flags := rfl

@[simp] theorem Cpu.push_sp : (c.push rs).regs sp = c.regs sp - BitVec.ofNat 32 (4 * rs.length) :=
  Cpu.set_same _ _ _

@[simp] theorem Cpu.push_other (distinct : r ≠ sp) : (c.push rs).regs r = c.regs r :=
  Cpu.set_other _ _ _ _ distinct

@[simp] theorem Cpu.push_mem : (c.push rs).mem =
    writeWords c.mem (c.regs sp - BitVec.ofNat 32 (4 * rs.length)) (rs.map c.regs) := rfl
@[simp] theorem Cpu.push_pc : (c.push rs).pc = c.pc := rfl
@[simp] theorem Cpu.push_thumb : (c.push rs).thumb = c.thumb := rfl
@[simp] theorem Cpu.push_flags : (c.push rs).flags = c.flags := rfl

@[simp] theorem Cpu.pop_sp : (c.pop rs).regs sp = c.regs sp + BitVec.ofNat 32 (4 * rs.length) :=
  Cpu.set_same _ _ _

@[simp] theorem Cpu.pop_other (distinct : r ≠ sp) :
    (c.pop rs).regs r = loadRegs c.mem rs (c.regs sp) c.regs r :=
  Cpu.set_other _ _ _ _ distinct

@[simp] theorem Cpu.pop_mem : (c.pop rs).mem = c.mem := rfl
@[simp] theorem Cpu.pop_pc : (c.pop rs).pc = c.pc := rfl
@[simp] theorem Cpu.pop_thumb : (c.pop rs).thumb = c.thumb := rfl
@[simp] theorem Cpu.pop_flags : (c.pop rs).flags = c.flags := rfl

end Registers

theorem loadRegs_absent (m : Mem) (rs : List Reg) (a : Word) (regs : Reg → Word) (r : Reg)
    (absent : r ∉ rs) : loadRegs m rs a regs r = regs r := by
  induction rs generalizing a regs with
  | nil => rfl
  | cons s rest ih =>
      simp only [List.mem_cons, not_or] at absent
      rw [loadRegs, ih _ _ absent.2, if_neg absent.1]

/-- The register with index `i` of the list is loaded from the word with index `i`. -/
theorem loadRegs_getElem (m : Mem) (rs : List Reg) (a : Word) (regs : Reg → Word)
    (distinct : rs.Nodup) (i : Nat) (inside : i < rs.length) :
    loadRegs m rs a regs rs[i] = read32 m (a + BitVec.ofNat 32 (4 * i)) := by
  induction rs generalizing a regs i with
  | nil => exact absurd inside (Nat.not_lt_zero i)
  | cons s rest ih =>
      rw [List.nodup_cons] at distinct
      cases i with
      | zero =>
          simp only [List.getElem_cons_zero, loadRegs]
          rw [loadRegs_absent m rest _ _ s distinct.1, if_pos rfl, BitVec.add_zero]
      | succ i =>
          simp only [List.getElem_cons_succ, loadRegs]
          rw [ih (a + 4#32) _ distinct.2 i (by simpa using inside),
            show (4#32 : Word) = BitVec.ofNat 32 4 from rfl, ofNat_add_ofNat,
            show 4 + 4 * i = 4 * (i + 1) by omega]

theorem aligned_iff (a : Word) : Aligned a ↔ a.toNat % 4 = 0 := multiple_of_four_iff a

theorem Aligned.add {a : Word} (aligned : Aligned a) (n : Nat) (multiple : n % 4 = 0) :
    Aligned (a + BitVec.ofNat 32 n) := by
  rw [aligned_iff] at *
  rw [BitVec.toNat_add, BitVec.toNat_ofNat]
  omega

theorem Aligned.sub {a : Word} (aligned : Aligned a) (n : Nat) (multiple : n % 4 = 0) :
    Aligned (a - BitVec.ofNat 32 n) := by
  rw [aligned_iff] at *
  rw [BitVec.toNat_sub, BitVec.toNat_ofNat]
  omega

/-- Clearing bits subtracts them. -/
theorem clear_bits (a mask : Word) : a &&& ~~~mask = a - (a &&& mask) := by
  have disjoint : (a &&& ~~~mask) &&& (a &&& mask) = 0#32 := by
    ext i hi
    simp only [BitVec.getElem_and, BitVec.getElem_not, BitVec.getElem_zero]
    cases a[i] <;> cases mask[i] <;> rfl
  have joined : (a &&& ~~~mask) ||| (a &&& mask) = a := by
    ext i hi
    simp only [BitVec.getElem_or, BitVec.getElem_and, BitVec.getElem_not]
    cases a[i] <;> cases mask[i] <;> rfl
  rw [← BitVec.add_eq_or_of_and_eq_zero _ _ disjoint] at joined
  exact BitVec.eq_sub_iff_add_eq.mpr joined

theorem clear_word (base : Word) (n : Nat) (aligned : Aligned base) (bound : n < 2 ^ 32) :
    (base + BitVec.ofNat 32 n) &&& ~~~3#32 = base + BitVec.ofNat 32 (n - n % 4) := by
  rw [aligned_iff] at aligned
  have rest : (base + BitVec.ofNat 32 n) &&& 3#32 = BitVec.ofNat 32 (n % 4) := by
    apply BitVec.eq_of_toNat_eq
    rw [BitVec.toNat_and, BitVec.toNat_add, BitVec.toNat_ofNat, BitVec.toNat_ofNat]
    refine (Nat.and_two_pow_sub_one_eq_mod _ 2).trans ?_
    rw [BitVec.toNat_ofNat]
    omega
  have split : BitVec.ofNat 32 n = BitVec.ofNat 32 (n - n % 4) + BitVec.ofNat 32 (n % 4) := by
    rw [← BitVec.ofNat_add]
    congr 1
    omega
  rw [clear_bits, rest, split, ← BitVec.add_assoc, BitVec.add_sub_cancel]

/-- An even address loses nothing when its lowest bit is cleared. -/
theorem clear_even (a : Word) (even : a.toNat % 2 = 0) :
    a &&& ~~~1#32 = a ∧ a.getLsbD 0 = false := by
  have low : a &&& 1#32 = 0#32 := by
    apply BitVec.eq_of_toNat_eq
    rw [BitVec.toNat_and]
    exact (Nat.and_two_pow_sub_one_eq_mod a.toNat 1).trans even
  refine ⟨?_, ?_⟩
  · rw [clear_bits, low, BitVec.sub_zero]
  · have bit := congrArg (fun x => x.getLsbD 0) low
    simpa using bit

theorem clear_odd (a : Word) (even : a.toNat % 2 = 0) :
    (a ||| 1#32) &&& ~~~1#32 = a ∧ (a ||| 1#32).getLsbD 0 = true := by
  obtain ⟨cleared, bit⟩ := clear_even a even
  refine ⟨?_, by simp⟩
  rw [← cleared]
  ext i hi
  simp only [BitVec.getElem_and, BitVec.getElem_or, BitVec.getElem_not]
  cases a[i] <;> cases (1#32)[i] <;> rfl

/-- The two halfwords of each word. -/
def halves (ws : List Word) : List Half :=
  ws.flatMap fun w => [w.extractLsb' 16 16, w.extractLsb' 0 16]

/-- The instruction with index `j` of the code `ws`. -/
def insnAt (thumb : Bool) (ws : List Word) (j : Nat) : Option Insn :=
  if thumb then (halves ws)[j]?.bind decodeThumb else ws[j]?.bind decodeArm

def insnBytes (thumb : Bool) : Nat := if thumb then 2 else 4

/-- The machine is about to execute the instruction with index `j` of the code `ws`
that stands at `base`. -/
structure Fetch (thumb : Bool) (base : Word) (ws : List Word) (j : Nat) (c : Cpu) : Prop where
  code : WordsAt c.mem base ws
  aligned : Aligned base
  mode : c.thumb = thumb
  pc : c.pc = base + BitVec.ofNat 32 (insnBytes thumb * j)

theorem halves_getElem (ws : List Word) (j : Nat) (w : Word) (word : ws[j / 2]? = some w) :
    (halves ws)[j]? = some (if j % 2 = 0 then w.extractLsb' 16 16 else w.extractLsb' 0 16) := by
  induction ws generalizing j with
  | nil => simp at word
  | cons v rest ih =>
      rcases (by omega : j = 0 ∨ j = 1 ∨ 2 ≤ j) with rfl | rfl | behind
      · simp only [Nat.zero_div, List.getElem?_cons_zero, Option.some.injEq] at word
        subst word
        rfl
      · simp only [show 1 / 2 = 0 from rfl, List.getElem?_cons_zero, Option.some.injEq] at word
        subst word
        rfl
      · obtain ⟨i, rfl⟩ := Nat.exists_eq_add_of_le' behind
        rw [show (i + 2) / 2 = i / 2 + 1 by omega, List.getElem?_cons_succ] at word
        rw [show (i + 2) % 2 = i % 2 by omega, ← ih i word]
        rfl

theorem halves_length (ws : List Word) : (halves ws).length = 2 * ws.length := by
  induction ws with
  | nil => rfl
  | cons w rest ih =>
      simp only [halves, List.flatMap_cons, List.length_append, List.length_cons,
        List.length_nil] at ih ⊢
      omega

theorem WordsAt.getElem? {m : Mem} {base : Word} {ws : List Word} (words : WordsAt m base ws)
    {i : Nat} {w : Word} (word : ws[i]? = some w) :
    read32 m (base + BitVec.ofNat 32 (4 * i)) = w := by
  obtain ⟨inside, same⟩ := List.getElem?_eq_some_iff.mp word
  rw [words i inside, same]

/-- The code also stands there in halfwords. -/
theorem halves_read {m : Mem} {base : Word} {ws : List Word} (words : WordsAt m base ws)
    {j : Nat} {h : Half} (half : (halves ws)[j]? = some h) :
    read16 m (base + BitVec.ofNat 32 (2 * j)) = h := by
  obtain ⟨inside, _⟩ := List.getElem?_eq_some_iff.mp half
  rw [halves_length] at inside
  have word : ws[j / 2]? = some ws[j / 2] := List.getElem?_eq_getElem (by omega)
  have read := WordsAt.getElem? words word
  rw [halves_getElem ws j _ word, Option.some.injEq] at half
  rw [← half]
  split
  · rename_i even
    rw [show 2 * j = 4 * (j / 2) by omega, ← read, read32]
    exact BitVec.extractLsb'_append_eq_left.symm
  · rename_i odd
    rw [show 2 * j = 4 * (j / 2) + 2 by omega, ← ofNat_add_ofNat, ← read, read32]
    exact BitVec.extractLsb'_append_eq_right.symm

section Execution

variable (other : Word → Cpu → Option Cpu)

theorem run_succ {c c' d : Cpu} {n : Nat} (first : step other c = some c')
    (rest : run other n c' = some d) : run other (n + 1) c = some d := by
  rw [run, first, Option.bind_some, rest]

theorem run_stops {c : Cpu} {k n : Nat} (stops : run other k c = none) (order : k ≤ n) :
    run other n c = none := by
  induction k generalizing n c with
  | zero => cases stops
  | succ k ih =>
      obtain ⟨n, rfl⟩ : ∃ m, n = m + 1 := ⟨n - 1, by omega⟩
      rw [run] at stops ⊢
      cases first : step other c with
      | none => rfl
      | some d =>
          rw [first] at stops
          exact ih stops (Nat.le_of_succ_le_succ order)

theorem run_add {c c' d : Cpu} {n k : Nat} (first : run other n c = some c')
    (rest : run other k c' = some d) : run other (n + k) c = some d := by
  induction n generalizing c with
  | zero =>
      cases first
      rwa [Nat.zero_add]
  | succ n ih =>
      rw [run, Option.bind_eq_some_iff] at first
      obtain ⟨middle, start, more⟩ := first
      rw [Nat.succ_add]
      exact run_succ other start (ih more)

end Execution

namespace Fetch

variable {thumb : Bool} {base : Word} {ws : List Word} {j : Nat} {c : Cpu}

theorem size (fetch : Fetch thumb base ws j c) : c.size = BitVec.ofNat 32 (insnBytes thumb) := by
  rw [Cpu.size, fetch.mode]
  cases thumb <;> rfl

/-- A step executes the instruction that the code has at this index. -/
theorem step_eq (fetch : Fetch thumb base ws j c) (other : Word → Cpu → Option Cpu) {insn : Insn}
    (decoded : insnAt thumb ws j = some insn) : step other c = exec c insn := by
  cases thumb with
  | true =>
      simp only [insnAt, if_true, Option.bind_eq_some_iff] at decoded
      obtain ⟨h, half, decoded⟩ := decoded
      have fetched : read16 c.mem c.pc = h := by
        rw [fetch.pc]
        exact halves_read fetch.code half
      rw [step, fetch.mode, if_pos rfl, fetched, decoded, Option.bind_some]
  | false =>
      simp only [insnAt, Bool.false_eq_true, if_false, Option.bind_eq_some_iff] at decoded
      obtain ⟨w, word, decoded⟩ := decoded
      have fetched : read32 c.mem c.pc = w := by
        rw [fetch.pc]
        exact WordsAt.getElem? fetch.code word
      rw [step, fetch.mode, fetched]
      simp only [Bool.false_eq_true, if_false, execWord, decoded]

/-- The next instruction, in a state that differs in the registers at most. -/
theorem advance (fetch : Fetch thumb base ws j c) {c' : Cpu} (code : WordsAt c'.mem base ws)
    (kept : c'.thumb = c.thumb) (pc : c'.pc = c.pc + c.size) :
    Fetch thumb base ws (j + 1) c' where
  code := code
  aligned := fetch.aligned
  mode := kept.trans fetch.mode
  pc := by
    rw [pc, fetch.size, fetch.pc, ofNat_add_ofNat, Nat.mul_succ]

section Rules

variable (fetch : Fetch thumb base ws j c) (other : Word → Cpu → Option Cpu)
include fetch

theorem push (list : BitVec 16) (rs : List Reg) (decoded : insnAt thumb ws j = some (.push list))
    (listed : regList list = rs) (aligned : Aligned (c.regs sp))
    (apart : Apart base (4 * ws.length) (c.regs sp - BitVec.ofNat 32 (4 * rs.length))
      (4 * rs.length)) :
    step other c = some (c.push rs).next ∧ Fetch thumb base ws (j + 1) (c.push rs).next := by
  refine ⟨?_, fetch.advance (Same.wordsAt ?_ fetch.code) rfl rfl⟩
  · rw [fetch.step_eq other decoded, exec, if_pos aligned, listed]
  · rw [Cpu.next_mem, Cpu.push_mem]
    apply writeWords_apart
    rwa [List.length_map]

/-- The address of a literal, as a word index into the code. -/
theorem literal_address (bound : insnBytes thumb * (j + 2) < 2 ^ 32) {offset k : Nat}
    (index :
      (insnBytes thumb * (j + 2) - insnBytes thumb * (j + 2) % 4 + offset) % 2 ^ 32 = 4 * k) :
    c.literalBase + BitVec.ofNat 32 offset = base + BitVec.ofNat 32 (4 * k) := by
  have ahead : c.pc + c.size + c.size = base + BitVec.ofNat 32 (insnBytes thumb * (j + 2)) := by
    rw [fetch.size, fetch.pc, ofNat_add_ofNat, ofNat_add_ofNat]
    congr 2
    rw [Nat.mul_add]
    omega
  rw [Cpu.literalBase, ahead, clear_word base _ fetch.aligned bound, ofNat_add_ofNat, ← index]
  exact congrArg (base + ·) (BitVec.eq_of_toNat_eq (by simp))

theorem ldrPc (rt : Reg) (offset k : Nat) (value : Word)
    (decoded : insnAt thumb ws j = some (.ldrPc .al rt (BitVec.ofNat 32 offset)))
    (target : rt ≠ 15#4) (bound : insnBytes thumb * (j + 2) < 2 ^ 32)
    (index : (insnBytes thumb * (j + 2) - insnBytes thumb * (j + 2) % 4 + offset) % 2 ^ 32 = 4 * k)
    (literal : ws[k]? = some value) :
    step other c = some (c.set rt value).next ∧
      Fetch thumb base ws (j + 1) (c.set rt value).next := by
  refine ⟨?_, fetch.advance fetch.code rfl rfl⟩
  have address := fetch.literal_address bound index
  have loaded := WordsAt.getElem? fetch.code literal
  have aligned := fetch.aligned.add (4 * k) (Nat.mul_mod_right 4 k)
  rw [fetch.step_eq other decoded, exec]
  simp only [Cond.holds, if_true, address, if_pos aligned, if_neg target, loaded]

/-- A literal loaded into `PC`. -/
theorem ldrPc_jump (cond : Cond) (offset k : Nat) (value : Word)
    (decoded : insnAt thumb ws j = some (.ldrPc cond 15#4 (BitVec.ofNat 32 offset)))
    (taken : cond.holds c.flags = true) (bound : insnBytes thumb * (j + 2) < 2 ^ 32)
    (index : (insnBytes thumb * (j + 2) - insnBytes thumb * (j + 2) % 4 + offset) % 2 ^ 32 = 4 * k)
    (literal : ws[k]? = some value) : step other c = some (c.interwork value) := by
  have address := fetch.literal_address bound index
  have loaded := WordsAt.getElem? fetch.code literal
  have aligned := fetch.aligned.add (4 * k) (Nat.mul_mod_right 4 k)
  rw [fetch.step_eq other decoded, exec]
  simp only [taken, if_true, address, if_pos aligned, loaded]

theorem ldrPc_skip (cond : Cond) (rt : Reg) (offset : Word)
    (decoded : insnAt thumb ws j = some (.ldrPc cond rt offset))
    (skipped : cond.holds c.flags = false) :
    step other c = some c.next ∧ Fetch thumb base ws (j + 1) c.next := by
  refine ⟨?_, fetch.advance fetch.code rfl rfl⟩
  rw [fetch.step_eq other decoded, exec]
  simp only [skipped, Bool.false_eq_true, if_false]

theorem ldrSp (rt : Reg) (offset : Word) (decoded : insnAt thumb ws j = some (.ldrSp rt offset))
    (aligned : Aligned (c.regs sp)) :
    step other c = some (c.set rt (read32 c.mem (c.regs sp + offset))).next ∧
      Fetch thumb base ws (j + 1) (c.set rt (read32 c.mem (c.regs sp + offset))).next := by
  refine ⟨?_, fetch.advance fetch.code rfl rfl⟩
  rw [fetch.step_eq other decoded, exec, if_pos aligned]

theorem strSp (rt : Reg) (offset : Word) (decoded : insnAt thumb ws j = some (.strSp rt offset))
    (aligned : Aligned (c.regs sp))
    (apart : Apart base (4 * ws.length) (c.regs sp + offset) 4) :
    step other c = some (c.store (c.regs sp + offset) (c.regs rt)).next ∧
      Fetch thumb base ws (j + 1) (c.store (c.regs sp + offset) (c.regs rt)).next := by
  refine ⟨?_, fetch.advance (Same.wordsAt ?_ fetch.code) rfl rfl⟩
  · rw [fetch.step_eq other decoded, exec, if_pos aligned]
  · exact write32_apart _ _ _ _ _ apart

theorem mov (rd rm : Reg) (decoded : insnAt thumb ws j = some (.mov rd rm)) :
    step other c = some (c.set rd (c.regs rm)).next ∧
      Fetch thumb base ws (j + 1) (c.set rd (c.regs rm)).next :=
  ⟨by rw [fetch.step_eq other decoded, exec], fetch.advance fetch.code rfl rfl⟩

theorem cmp (rn : Reg) (value : Word) (decoded : insnAt thumb ws j = some (.cmp rn value)) :
    step other c = some (c.compare (c.regs rn) value).next ∧
      Fetch thumb base ws (j + 1) (c.compare (c.regs rn) value).next :=
  ⟨by rw [fetch.step_eq other decoded, exec], fetch.advance fetch.code rfl rfl⟩

theorem addSp (value : Word) (decoded : insnAt thumb ws j = some (.addSp value)) :
    step other c = some (c.set sp (c.regs sp + value)).next ∧
      Fetch thumb base ws (j + 1) (c.set sp (c.regs sp + value)).next :=
  ⟨by rw [fetch.step_eq other decoded, exec], fetch.advance fetch.code rfl rfl⟩

theorem blx (rm : Reg) (decoded : insnAt thumb ws j = some (.blx rm)) :
    step other c = some ((c.set lr c.returnAddress).interwork (c.regs rm)) := by
  rw [fetch.step_eq other decoded, exec]

theorem bx (rm : Reg) (decoded : insnAt thumb ws j = some (.bx rm)) :
    step other c = some (c.interwork (c.regs rm)) := by
  rw [fetch.step_eq other decoded, exec]

theorem pop (list : BitVec 16) (rs : List Reg) (decoded : insnAt thumb ws j = some (.pop list))
    (listed : regList (list &&& 0x7FFF#16) = rs) (stays : list.getLsbD 15 = false)
    (aligned : Aligned (c.regs sp)) :
    step other c = some (c.pop rs).next ∧ Fetch thumb base ws (j + 1) (c.pop rs).next := by
  refine ⟨?_, fetch.advance fetch.code rfl rfl⟩
  rw [fetch.step_eq other decoded, exec, if_pos aligned]
  simp only [stays, Bool.false_eq_true, if_false, listed]

/-- A list with `PC` in it ends with a branch to the last word that is loaded. -/
theorem pop_jump (list : BitVec 16) (rs : List Reg)
    (decoded : insnAt thumb ws j = some (.pop list))
    (listed : regList (list &&& 0x7FFF#16) = rs) (leaves : list.getLsbD 15 = true)
    (aligned : Aligned (c.regs sp)) :
    step other c = some (((c.pop rs).set sp ((c.pop rs).regs sp + 4#32)).interwork
      (read32 c.mem ((c.pop rs).regs sp))) := by
  rw [fetch.step_eq other decoded, exec, if_pos aligned]
  simp only [leaves, if_true, listed]

/-- The return address of a call in this code resumes right behind it. -/
theorem returnAddress : c.returnAddress = (base + BitVec.ofNat 32 (insnBytes thumb * (j + 1))) |||
    (if thumb then 1#32 else 0#32) := by
  have next : c.pc + c.size = base + BitVec.ofNat 32 (insnBytes thumb * (j + 1)) := by
    rw [fetch.size, fetch.pc, ofNat_add_ofNat, Nat.mul_succ]
  rw [Cpu.returnAddress, fetch.mode, next]
  cases thumb with
  | true => rfl
  | false => exact (BitVec.or_zero).symm

end Rules

end Fetch

end Arm
