import Stroopwafel.AncastRead

set_option autoImplicit false

namespace Stroopwafel.Anpack

open Memory ByteFile StructPack

/-- What the edits keep of a header -/
structure Alike (p q : Phdr) : Prop where
  type : q.type = p.type
  flags : q.flags = p.flags
  align : q.align = p.align
  vaddr : q.vaddr = p.vaddr
  paddr : q.paddr = p.paddr

theorem Alike.refl (p : Phdr) : Alike p p := ⟨rfl, rfl, rfl, rfl, rfl⟩

theorem Alike.trans {p q r : Phdr} (first : Alike p q) (second : Alike q r) : Alike p r :=
  ⟨second.type.trans first.type, second.flags.trans first.flags, second.align.trans first.align,
    second.vaddr.trans first.vaddr, second.paddr.trans first.paddr⟩

/-- The first three headers and the fields of the ELF header stay, but for the number of headers. -/
structure Kept (elf elf' : Elf) : Prop where
  hdr : elf'.hdr = { elf.hdr with phnum := elf'.hdr.phnum }
  first : ∀ i < 3, ∀ p, elf.phdrs[i]? = some p → ∃ q, elf'.phdrs[i]? = some q ∧ Alike p q

theorem Kept.refl (elf : Elf) : Kept elf elf := ⟨rfl, fun _ _ p held => ⟨p, held, Alike.refl p⟩⟩

theorem Kept.trans {elf elf' elf'' : Elf} (first : Kept elf elf') (second : Kept elf' elf'') :
    Kept elf elf'' := by
  constructor
  · rw [second.hdr, first.hdr]
  · intro i small p held
    obtain ⟨q, held', alike⟩ := first.first i small p held
    obtain ⟨r, held'', alike'⟩ := second.first i small q held'
    exact ⟨r, held'', alike.trans alike'⟩

section Sections

variable (elf : Elf)

theorem modify_kept (i : Nat) (f : Phdr → Phdr) (alike : i < 3 → ∀ p, Alike p (f p)) :
    Kept elf (elf.modify i f) := by
  constructor
  · rfl
  · intro j small p held
    unfold Elf.modify
    rw [List.getElem?_modify, held, Option.map_eq_map, Option.map_some]
    by_cases here : i = j
    · subst here
      rw [if_pos rfl]
      exact ⟨f p, rfl, alike small p⟩
    · rw [if_neg here]
      exact ⟨p, rfl, Alike.refl p⟩

theorem modifyAt_kept (adr : Nat) (f : Phdr → Phdr) (alike : ∀ p, Alike p (f p)) :
    Kept elf (elf.modifyAt adr f) := by
  unfold Elf.modifyAt
  split
  · exact modify_kept elf _ f fun _ => alike
  · exact Kept.refl elf

theorem sections_kept (f : Nat × List Byte → Phdr → Phdr) (alike : ∀ s p, Alike p (f s p))
    (sections : List (Nat × List Byte)) :
    Kept elf (sections.foldl (fun elf s => elf.modifyAt s.1 (f s)) elf) := by
  induction sections generalizing elf with
  | nil => exact Kept.refl elf
  | cons s sections ih => exact (modifyAt_kept elf s.1 (f s) (alike s)).trans (ih _)

theorem replaceSections_kept (sections : List (Nat × List Byte)) :
    Kept elf (elf.replaceSections sections) :=
  sections_kept elf (fun s p => p.replaceContent s.2)
    (fun _ _ => ⟨rfl, rfl, rfl, rfl, rfl⟩) sections

theorem bssSections_kept (sections : List (Nat × List Byte)) :
    Kept elf (elf.bssSections sections) :=
  sections_kept elf (fun s p => { p with filesz := 0, memsz := s.2.length })
    (fun _ _ => ⟨rfl, rfl, rfl, rfl, rfl⟩) sections

end Sections

section Insert

variable (phdrs : List Phdr) (addr : Nat)

/-- Whether the `i`-th header is above the address -/
def above (i : Nat) : Prop := addr < (phdrs[i]?.getD .empty).vaddr

instance (i : Nat) : Decidable (above phdrs addr i) := Nat.decLt _ _

/-- The place is that of the first header above the address; the one in front does not count. -/
theorem phdrNum_find :
    phdrNum phdrs addr =
      ((List.range phdrs.length).find? fun i => i ≠ 0 ∧ above phdrs addr i).getD 0 := by
  unfold phdrNum
  generalize phdrs.length = n
  induction n with
  | zero => rfl
  | succ n ih =>
      rw [List.range_succ, List.foldl_append, ih, List.find?_append, List.foldl_cons,
        List.foldl_nil]
      cases found : (List.range n).find? fun i => i ≠ 0 ∧ above phdrs addr i with
      | none =>
          rw [Option.none_or, Option.getD_none, List.find?_singleton]
          by_cases zero : n = 0
          · subst zero
            split <;> rfl
          · by_cases past : above phdrs addr n
            · rw [if_pos ⟨past, rfl⟩, if_pos (decide_eq_true ⟨zero, past⟩)]
              rfl
            · rw [if_neg fun both => past both.1,
                if_neg fun both => past (of_decide_eq_true both).2]
              rfl
      | some i =>
          have counts := List.find?_some found
          rw [Option.some_or, Option.getD_some, if_neg fun both => ?_]
          exact (of_decide_eq_true counts).1 both.2

/-- No header in front of the third is above the address, and one from there on is. -/
def Room : Prop :=
  (∀ i, 0 < i → i < 3 → ¬ above phdrs addr i) ∧ ∃ i, 3 ≤ i ∧ i < phdrs.length ∧ above phdrs addr i

theorem phdrNum_room : 3 ≤ phdrNum phdrs addr ↔ Room phdrs addr := by
  rw [phdrNum_find]
  constructor
  · intro behind
    cases found : (List.range phdrs.length).find? fun i => i ≠ 0 ∧ above phdrs addr i with
    | none =>
        rw [found] at behind
        cases behind
    | some num =>
        rw [found, Option.getD_some] at behind
        obtain ⟨past, member, first⟩ := List.find?_range_eq_some.mp found
        constructor
        · intro i positive small past
          have not := first i (by omega)
          rw [decide_eq_true ⟨by omega, past⟩] at not
          cases not
        · exact ⟨num, behind, List.mem_range.mp member, (of_decide_eq_true past).2⟩
  · intro ⟨front, i, behind, inside, past⟩
    cases found : (List.range phdrs.length).find? fun i => i ≠ 0 ∧ above phdrs addr i with
    | none =>
        have not := List.find?_eq_none.mp found i (List.mem_range.mpr inside)
        exact absurd (decide_eq_true ⟨by omega, past⟩) not
    | some num =>
        have counts := List.find?_some found
        obtain ⟨counts, past⟩ := of_decide_eq_true counts
        rw [Option.getD_some]
        apply Decidable.byContradiction
        intro less
        exact front num (by omega) (by omega) past

/-- The headers with another one in the place of a new one -/
def insertAt (num : Nat) (p : Phdr) : List Phdr := phdrs.take num ++ [p] ++ phdrs.drop num

variable {phdrs addr}

theorem insertAt_below {num : Nat} (p : Phdr) (inside : num ≤ phdrs.length) (i : Nat)
    (less : i < num) : (insertAt phdrs num p)[i]? = phdrs[i]? := by
  unfold insertAt
  rw [List.append_assoc, List.getElem?_append_left (by rw [List.length_take]; omega),
    List.getElem?_take_of_lt less]

theorem insertAt_behind {num : Nat} (p : Phdr) (inside : num ≤ phdrs.length) (i : Nat)
    (less : num ≤ i) : (insertAt phdrs num p)[i + 1]? = phdrs[i]? := by
  unfold insertAt
  have front : (phdrs.take num ++ [p]).length = num + 1 := by
    rw [List.length_append, List.length_take, List.length_singleton]
    omega
  rw [List.getElem?_append_right (by omega), front, List.getElem?_drop]
  congr 1
  omega

/-- The place of a new header is that of one above the address. -/
theorem phdrNum_above (positive : 0 < phdrNum phdrs addr) :
    phdrNum phdrs addr < phdrs.length ∧ above phdrs addr (phdrNum phdrs addr) := by
  rw [phdrNum_find] at positive ⊢
  cases found : (List.range phdrs.length).find? fun i => i ≠ 0 ∧ above phdrs addr i with
  | none =>
      rw [found] at positive
      cases positive
  | some num =>
      obtain ⟨past, member, _⟩ := List.find?_range_eq_some.mp found
      exact ⟨List.mem_range.mp member, (of_decide_eq_true past).2⟩

/-- The next new header comes behind this one. -/
theorem insertAt_room (f : Phdr → Phdr) (room : Room phdrs addr) :
    Room ((insertAt phdrs (phdrNum phdrs addr) .empty).modify (phdrNum phdrs addr) f) addr := by
  have behind := (phdrNum_room phdrs addr).mpr room
  obtain ⟨inside, past⟩ := phdrNum_above (Nat.lt_of_lt_of_le (by decide) behind)
  generalize phdrNum phdrs addr = num at behind inside past
  constructor
  · intro i positive small
    unfold above
    rw [List.getElem?_modify_ne _ _ (by omega), insertAt_below .empty (by omega) i (by omega)]
    exact room.1 i positive small
  · refine ⟨num + 1, by omega, ?_, ?_⟩
    · unfold insertAt
      simp only [List.length_modify, List.length_append, List.length_take, List.length_drop,
        List.length_singleton]
      omega
    · unfold above
      rw [List.getElem?_modify_ne _ _ (by omega),
        insertAt_behind .empty (by omega) num (Nat.le_refl num)]
      exact past

theorem modify_room (i : Nat) (f : Phdr → Phdr) (alike : ∀ p, Alike p (f p))
    (room : Room phdrs addr) : Room (phdrs.modify i f) addr := by
  have same (j : Nat) : above (phdrs.modify i f) addr j ↔ above phdrs addr j := by
    unfold above
    rw [List.getElem?_modify]
    cases phdrs[j]? with
    | none => rfl
    | some p =>
        rw [Option.map_eq_map, Option.map_some, Option.getD_some, Option.getD_some]
        split
        · rw [(alike p).vaddr]
        · rfl
  constructor
  · intro j positive small past
    exact room.1 j positive small ((same j).mp past)
  · obtain ⟨j, behind, inside, past⟩ := room.2
    rw [← List.length_modify f phdrs i] at inside
    exact ⟨j, behind, inside, (same j).mpr past⟩

end Insert

/-- A new header with what is set in it -/
def Elf.inserted (elf : Elf) (addr : Nat) (f : Phdr → Phdr) : Elf :=
  (elf.insertPhdr addr).2.modify (elf.insertPhdr addr).1 f

theorem inserted_kept (elf : Elf) (addr : Nat) (f : Phdr → Phdr) (room : Room elf.phdrs addr) :
    Kept elf (elf.inserted addr f) ∧ Room (elf.inserted addr f).phdrs addr := by
  have behind := (phdrNum_room elf.phdrs addr).mpr room
  obtain ⟨inside, _⟩ := phdrNum_above (Nat.lt_of_lt_of_le (by decide) behind)
  refine ⟨⟨rfl, ?_⟩, insertAt_room f room⟩
  intro i small p held
  refine ⟨p, ?_, Alike.refl p⟩
  have less := Nat.lt_of_lt_of_le small behind
  rw [← held, ← insertAt_below .empty (Nat.le_of_lt inside) i less]
  exact List.getElem?_modify_ne f _ (Nat.ne_of_gt less)

theorem elfProc_kept (elf : Elf) (addr : Nat) (elfDat : List Byte) (room : Room elf.phdrs addr) :
    Kept elf (elf.elfProc addr elfDat) := by
  have shape : ∃ first second third i, elf.elfProc addr elfDat =
      (((elf.inserted addr first).modify i fun p => { p with memsz := p.memsz - 0x400000 }).inserted
        addr second).inserted addr third := ⟨_, _, _, _, rfl⟩
  obtain ⟨first, second, third, i, shape⟩ := shape
  have alike : ∀ p : Phdr, Alike p { p with memsz := p.memsz - 0x400000 } :=
    fun p => ⟨rfl, rfl, rfl, rfl, rfl⟩
  obtain ⟨kept, room'⟩ := inserted_kept elf addr first room
  have shrunk := modify_kept (elf.inserted addr first) i _ fun _ => alike
  obtain ⟨kept', room''⟩ := inserted_kept ((elf.inserted addr first).modify i _) addr second
    (modify_room i _ alike room')
  obtain ⟨kept'', _⟩ := inserted_kept _ addr third room''
  rw [shape]
  exact ((kept.trans shrunk).trans kept').trans kept''

/-- The edit inserts no header in front of the third. -/
def Edit.Behind (elf : Elf) : Edit → Prop
  | .elfProc addr _ => 3 ≤ phdrNum elf.phdrs addr
  | _ => True

/-- So does each edit, on the headers as those in front of it leave them. -/
def AllBehind : Elf → List Edit → Prop
  | _, [] => True
  | elf, edit :: edits => edit.Behind elf ∧ AllBehind (elf.edit edit) edits

theorem edit_kept (elf : Elf) (edit : Edit) (behind : edit.Behind elf) :
    Kept elf (elf.edit edit) := by
  cases edit with
  | replaceSections sections => exact replaceSections_kept elf sections
  | bssSections sections => exact bssSections_kept elf sections
  | elfProc addr elfDat =>
      exact elfProc_kept elf addr elfDat ((phdrNum_room elf.phdrs addr).mp behind)

theorem edits_kept (elf : Elf) (edits : List Edit) (behind : AllBehind elf edits) :
    Kept elf (edits.foldl Elf.edit elf) := by
  induction edits generalizing elf with
  | nil => exact Kept.refl elf
  | cons edit edits ih => exact (edit_kept elf edit behind.1).trans (ih _ behind.2)

end Stroopwafel.Anpack
