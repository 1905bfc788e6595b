import Stroopwafel.RemoteTree

set_option autoImplicit false

namespace Stroopwafel.RemoteTree

open Memory FileTree RemoteFile

section Bytes

variable (reads writes : Nat → Answer)

/-- A copy that has ended stays as it is with more rounds. -/
theorem cpLoop_more (fuel : Nat) (i : Nat) (s : Session) (c : Copied)
    (ends : cpLoop reads writes fuel i s = some c) :
    cpLoop reads writes (fuel + 1) i s = some c := by
  induction fuel generalizing i s c with
  | zero => cases ends
  | succ fuel ih =>
      rw [cpLoop] at ends ⊢
      dsimp only at ends ⊢
      split at ends
      · rename_i last
        rw [if_pos last]
        exact ends
      · rename_i more
        obtain ⟨rest, again, rfl⟩ := Option.map_eq_some_iff.mp ends
        rw [if_neg more, ih _ _ _ again]
        rfl

theorem dlLoop_more (fuel : Nat) (i : Nat) (s : Session) (c : Copied)
    (ends : dlLoop reads fuel i s = some c) : dlLoop reads (fuel + 1) i s = some c := by
  induction fuel generalizing i s c with
  | zero => cases ends
  | succ fuel ih =>
      rw [dlLoop] at ends ⊢
      dsimp only at ends ⊢
      split at ends
      · rename_i last
        rw [if_pos last]
        exact ends
      · rename_i more
        obtain ⟨rest, again, rfl⟩ := Option.map_eq_some_iff.mp ends
        rw [if_neg more, ih _ _ _ again]
        rfl

/-- What holds of one number and is kept by the next holds of all larger ones. -/
theorem eventually {P : Nat → Prop} (N : Nat) (holds : P N) (more : ∀ n, P n → P (n + 1)) (n : Nat)
    (larger : N ≤ n) : P n := by
  induction larger with
  | refl => exact holds
  | step _ ih => exact more _ ih

theorem cp_ends (content : List Byte) (buffer : Nat → Byte)
    (served : CpServed reads writes content 0) :
    ∃ N, ∀ rounds, N ≤ rounds →
      ∃ c, RemoteFile.cp reads writes content buffer rounds = some c ∧ c.dest = content := by
  obtain ⟨N, c, ends, copied, -⟩ := cpLoop_copies reads writes content 0 buffer [] served
  refine ⟨N, fun rounds larger => ⟨c, ?_, copied⟩⟩
  exact eventually N ends (fun n => cpLoop_more reads writes n 0 _ c) rounds larger

theorem dl_ends (content : List Byte) (buffer : Nat → Byte) (served : DlServed reads content 0) :
    ∃ N, ∀ rounds, N ≤ rounds →
      ∃ c, RemoteFile.dl reads content buffer rounds = some c ∧ c.dest = content := by
  obtain ⟨N, c, ends, copied, -⟩ := dlLoop_copies reads content 0 buffer [] served
  refine ⟨N, fun rounds larger => ⟨c, ?_, copied⟩⟩
  exact eventually N ends (fun n => dlLoop_more reads n 0 _ c) rounds larger

end Bytes

section Entry

variable {v v' v'' : Files} {dir : Place} {name : Name}

theorem Placed.elsewhere {x : Node (List Byte)} (placed : Placed v v' dir name x) (q : Place)
    (other : ∀ r, q ≠ dir ++ r) : v'.names q = v.names q :=
  placed.names q fun same => other [] (by rw [List.append_nil]; exact same)

theorem Placed.graftsFile {c : List Byte} (placed : Placed v v' dir name (.file c)) :
    Grafts v v' dir (.file name c .nil) := .oneFile placed.node placed.kept placed.elsewhere

theorem Placed.graftsDir {inside : Forest Name (List Byte)} (placed : Placed v v' dir name .dir)
    (within : Grafts v' v'' (dir ++ [name]) inside) : Grafts v v'' dir (.dir name inside .nil) :=
  .oneDir placed.node placed.kept placed.elsewhere within

theorem create_eq (inDir : v.node dir = some .dir) (x : Node (List Byte)) :
    create v (dir ++ [name]) x = some (v.add dir name x) := by
  unfold create
  rw [List.getLast?_concat, List.dropLast_concat]
  exact if_pos inDir

theorem add_placed (sound : v.Sound) (inDir : v.node dir = some .dir)
    (absent : v.node (dir ++ [name]) = none) (x : Node (List Byte)) :
    Placed v (v.add dir name x) dir name x where
  node := if_pos rfl
  kept _ other := if_neg other
  names _ other := if_neg other
  sound := sound.add x inDir absent

/-- What is written to a file that was opened for it -/
theorem Placed.written (placed : Placed v v' dir name (.file [])) (content : List Byte) :
    Placed v (v'.set (dir ++ [name]) (.file content)) dir name (.file content) where
  node := if_pos rfl
  kept q other := (if_neg other).trans (placed.kept q other)
  names := placed.names
  sound := placed.sound.set_file placed.node

theorem openLocal_placed (sound : v.Sound) (inDir : v.node dir = some .dir)
    (free : v.node (dir ++ [name]) ≠ some .dir) :
    ∃ opened, openLocal v (dir ++ [name]) = some opened ∧ Placed v opened dir name (.file []) := by
  unfold openLocal
  cases present : v.node (dir ++ [name]) with
  | none => exact ⟨_, create_eq inDir (.file []), add_placed sound inDir present (.file [])⟩
  | some x =>
      cases x with
      | dir => exact absurd present free
      | file old =>
          refine ⟨_, rfl, ?_⟩
          exact
            { node := if_pos rfl
              kept := fun q other => if_neg other
              names := fun _ _ => rfl
              sound := sound.set_file present }

theorem mkdir_placed {con : Console} (serves : con.Serves) (flags : Word) (sound : v.Sound)
    (inDir : v.node dir = some .dir) (free : ∀ c, v.node (dir ++ [name]) ≠ some (.file c)) :
    Placed v (mkdir con v (dir ++ [name]) flags).2 dir name .dir := by
  unfold mkdir
  cases present : v.node (dir ++ [name]) with
  | none =>
      obtain ⟨v', makes, placed⟩ := serves.makeDir v dir name flags sound inDir present
      rw [makes]
      exact placed
  | some x =>
      cases x with
      | file c => exact absurd present (free c)
      | dir =>
          rw [serves.dirExists v _ flags present]
          exact ⟨present, fun _ _ => rfl, fun _ _ => rfl, sound⟩

/-- One file is copied. -/
theorem cp_placed {con : Console} (serves : con.Serves) {src : Place} {content : List Byte}
    (sound : v.Sound) (source : v.node src = some (.file content)) (apart : src ≠ dir ++ [name])
    (inDir : v.node dir = some .dir) (free : v.node (dir ++ [name]) ≠ some .dir)
    (served : CpServed (con.reads src) (con.writes src) content 0) :
    ∃ v' N, Placed v v' dir name (.file content) ∧
      ∀ rounds, N ≤ rounds → cp con rounds v src (dir ++ [name]) = some v' := by
  obtain ⟨opened, opens, placed⟩ := serves.openWrite v dir name sound inDir free
  obtain ⟨N, copies⟩ := cp_ends _ _ content (con.buffer src) served
  refine ⟨_, N, placed.written content, fun rounds larger => ?_⟩
  obtain ⟨c, ends, copied⟩ := copies rounds larger
  have again : contentOf opened src = content := by
    rw [contentOf, placed.kept src apart, source]
  unfold cp
  simp only [serves.openRead v src content source, opens, again, ends, ne_eq, not_true_eq_false,
    if_false, Option.map_some, copied]

end Entry

/-- The entries that `ls` returns. -/
def entries : Forest Name (List Byte) → List Entry
  | .nil => []
  | .file n _ rest => ⟨n, true⟩ :: entries rest
  | .dir n _ rest => ⟨n, false⟩ :: entries rest

section Listing

variable {v : Files} {p : Place} {f : Forest Name (List Byte)}

theorem entries_eq (holds : f.Holds v p) :
    f.names.map (fun name => Entry.mk name (isFile v (p ++ [name]))) = entries f := by
  induction f with
  | nil => rfl
  | file n c rest ih =>
      obtain ⟨node, others⟩ := holds
      rw [Forest.names, List.map_cons, ih others, entries]
      simp only [isFile, node]
  | dir n inside rest _ ih =>
      obtain ⟨node, -, -, others⟩ := holds
      rw [Forest.names, List.map_cons, ih others, entries]
      simp only [isFile, node]

theorem ls_eq {con : Console} (serves : con.Serves) (dir : v.node p = some .dir)
    (names : v.names p = f.names) (holds : f.Holds v p) : ls con v p = entries f := by
  rw [ls, serves.openDir v p dir, names]
  exact entries_eq holds

end Listing

/-- Every file among the entries of the directory can be copied without an error. -/
def AllServed (con : Console) : Place → Forest Name (List Byte) → Prop
  | _, .nil => True
  | p, .file n c rest =>
      CpServed (con.reads (p ++ [n])) (con.writes (p ++ [n])) c 0 ∧ AllServed con p rest
  | p, .dir n inside rest => AllServed con (p ++ [n]) inside ∧ AllServed con p rest

section Copy

variable {con : Console}

theorem apart_below {p q : Place} (apart : Apart p q) (n m : Name) :
    Apart (p ++ [n]) (q ++ [m]) := by
  intro r r'
  rw [List.append_assoc, List.append_assoc]
  exact apart ([n] ++ r) ([m] ++ r')

/-- The entries of one directory, put on top of the queue, are copied with all that is inside before
the rest of the queue is looked at. By induction on the entries; the last ones are taken first. -/
theorem cpdirLoop_copies (serves : con.Serves) (f : Forest Name (List Byte)) (v : Files)
    (src dst : Place) (q : List Item) (sound : v.Sound) (holds : f.Holds v src) (proper : f.Proper)
    (inDir : v.node dst = some .dir) (fits : f.Fits v dst) (apart : Apart src dst)
    (served : AllServed con src f) :
    ∃ v' N R, Grafts v v' dst f ∧ v'.Sound ∧ ∀ rounds, R ≤ rounds → ∀ fuel,
      cpdirLoop con rounds (N + fuel) v ((items src dst (entries f)).reverse ++ q) =
        cpdirLoop con rounds fuel v' q := by
  induction f generalizing v src dst q with
  | nil =>
      refine ⟨v, 0, 0, Grafts.nil v dst, sound, fun rounds _ fuel => ?_⟩
      rw [Nat.zero_add]
      rfl
  | file n c rest ih =>
      obtain ⟨node, others⟩ := holds
      obtain ⟨fresh, proper⟩ := proper
      obtain ⟨free, fits⟩ := fits
      obtain ⟨here, served⟩ := served
      obtain ⟨v', N, R, grafts, sound', runs⟩ := ih v src dst ((src, dst, ⟨n, true⟩) :: q) sound
        others proper inDir fits apart served
      have alike := grafts.alike apart
      have source : v'.node (src ++ [n]) = some (.file c) := (alike [n]).1.trans node
      have target : v'.node (dst ++ [n]) ≠ some .dir := by
        rw [grafts.beside fresh []]
        exact free
      obtain ⟨v'', R', placed, copies⟩ := cp_placed serves sound' source (apart [n] [n])
        (grafts.self.trans inDir) target here
      refine ⟨v'', N + 1, max R R', ?_, placed.sound, fun rounds larger fuel => ?_⟩
      · exact grafts.fileLast placed.graftsFile fresh
      · rw [entries, items, List.map_cons, List.reverse_cons, List.append_assoc]
        have first := runs rounds (by omega) (1 + fuel)
        rw [← Nat.add_assoc] at first
        refine first.trans ?_
        rw [Nat.add_comm 1 fuel, cpdirLoop]
        simp only [if_true, copies rounds (by omega), Option.bind_some]
  | dir n inside rest ihInside ih =>
      obtain ⟨node, names, within, others⟩ := holds
      obtain ⟨fresh, properInside, proper⟩ := proper
      obtain ⟨free, fitsInside, fits⟩ := fits
      obtain ⟨servedInside, served⟩ := served
      obtain ⟨v', N, R, grafts, sound', runs⟩ := ih v src dst ((src, dst, ⟨n, false⟩) :: q) sound
        others proper inDir fits apart served
      have target : ∀ c, v'.node (dst ++ [n]) ≠ some (.file c) := by
        intro c
        rw [grafts.beside fresh []]
        exact free c
      have placed := mkdir_placed serves 0x666#32 sound' (grafts.self.trans inDir) target
      let made := (mkdir con v' (dst ++ [n]) 0x666#32).2
      have alike : Alike v made (src ++ [n]) := by
        refine Alike.trans (grafts.alike apart |>.below n) fun r => ⟨?_, ?_⟩
        · exact placed.kept _ fun same => apart_below apart n n r [] (by
            rw [List.append_nil]
            exact same)
        · refine placed.names _ fun same => apart ([n] ++ r) [] ?_
          rw [List.append_nil, ← List.append_assoc]
          exact same
      have listed : ls con made (src ++ [n]) = entries inside := by
        refine ls_eq serves ?_ ?_ (alike.holds within)
        · have same := (alike []).1
          rw [List.append_nil] at same
          exact same.trans node
        · have same := (alike []).2
          rw [List.append_nil] at same
          exact same.trans names
      have fitsMade : inside.Fits made (dst ++ [n]) := by
        refine fitsInside.congr fun m r _ => ?_
        have other : dst ++ [n] ++ m :: r ≠ dst ++ [n] := by
          intro same
          exact List.cons_ne_nil m r (List.append_right_eq_self.mp same)
        rw [placed.kept _ other, List.append_assoc]
        exact grafts.beside fresh (m :: r)
      obtain ⟨v'', N', R', within', sound'', inner⟩ := ihInside made (src ++ [n]) (dst ++ [n]) q
        placed.sound (alike.holds within) properInside placed.node fitsMade
        (apart_below apart n n) servedInside
      refine ⟨v'', N + (1 + N'), max R R', ?_, sound'', fun rounds larger fuel => ?_⟩
      · exact grafts.dirLast (placed.graftsDir within') fresh
      · rw [entries, items, List.map_cons, List.reverse_cons, List.append_assoc]
        have first := runs rounds (by omega) (1 + N' + fuel)
        rw [← Nat.add_assoc] at first
        refine first.trans ?_
        rw [Nat.add_assoc 1 N' fuel, Nat.add_comm 1, cpdirLoop]
        simp only [Bool.false_eq_true, if_false]
        rw [listed]
        exact inner rounds (by omega) fuel

end Copy

/-- Every file among the entries of the directory can be fetched without an error. -/
def AllFetched (con : Console) : Place → Forest Name (List Byte) → Prop
  | _, .nil => True
  | p, .file n c rest => DlServed (con.reads (p ++ [n])) c 0 ∧ AllFetched con p rest
  | p, .dir n inside rest => AllFetched con (p ++ [n]) inside ∧ AllFetched con p rest

section Fetch

variable {con : Console} {v : Files} {l : Local}

theorem dl_placed (serves : con.Serves) {dir : Place} {name : Name} {content : List Byte}
    (sound : l.files.Sound)
    (source : v.node (dir ++ [name]) = some (.file content))
    (inDir : l.files.node l.cwd = some .dir) (free : l.files.node (l.cwd ++ [name]) ≠ some .dir)
    (served : DlServed (con.reads (dir ++ [name])) content 0) :
    ∃ files N, Placed l.files files l.cwd name (.file content) ∧
      ∀ rounds, N ≤ rounds → dl con rounds v l dir name = some ⟨files, l.cwd⟩ := by
  obtain ⟨opened, opens, placed⟩ := openLocal_placed sound inDir free
  obtain ⟨N, copies⟩ := dl_ends _ content (con.buffer (dir ++ [name])) served
  refine ⟨_, N, placed.written content, fun rounds larger => ?_⟩
  obtain ⟨c, ends, copied⟩ := copies rounds larger
  have read : contentOf v (dir ++ [name]) = content := by
    rw [contentOf, source]
  unfold dl
  simp only [serves.openRead v _ content source, opens, read, ends, ne_eq, not_true_eq_false,
    if_false, Option.bind_some, Option.map_some, copied]

theorem mkdirP_placed {name : Name} (sound : l.files.Sound) (inDir : l.files.node l.cwd = some .dir)
    (free : ∀ c, l.files.node (l.cwd ++ [name]) ≠ some (.file c)) :
    ∃ files, Placed l.files files l.cwd name .dir ∧ mkdirP l name = some ⟨files, l.cwd⟩ := by
  unfold mkdirP
  cases present : l.files.node (l.cwd ++ [name]) with
  | none =>
      rw [create_eq inDir]
      exact ⟨_, add_placed sound inDir present .dir, rfl⟩
  | some x =>
      cases x with
      | file c => exact absurd present (free c)
      | dir => exact ⟨l.files, ⟨present, fun _ _ => rfl, fun _ _ => rfl, sound⟩, rfl⟩

/-- The loop of `dldir` over the entries. -/
def dldirStep (con : Console) (rounds fuel : Nat) (v : Files) (path : Place) (l : Local)
    (e : Entry) : Option Local :=
  if e.isFile then dl con rounds v l path e.name
  else
    (mkdirP l e.name).bind fun l =>
      (dldir con rounds fuel v (chdir l e.name) (path ++ [e.name])).map chdirUp

theorem dldir_succ (rounds fuel : Nat) (path : Place) :
    dldir con rounds (fuel + 1) v l path =
      (ls con v path).foldlM (dldirStep con rounds fuel v path) l := rfl

theorem Placed.fits {dir : Place} {name : Name} {x : Node (List Byte)} {files files' : Files}
    {rest : Forest Name (List Byte)} (placed : Placed files files' dir name x)
    (fresh : name ∉ rest.names) (fits : rest.Fits files dir) : rest.Fits files' dir := by
  refine fits.congr fun m r member => placed.kept _ fun same => fresh ?_
  rw [← (List.cons.inj (List.append_cancel_left same)).1]
  exact member

/-- By induction on the entries, from the first on. The working directory comes back. -/
theorem dldirStep_fetches (serves : con.Serves) (f : Forest Name (List Byte)) (v : Files)
    (path : Place) (l : Local)
    (holds : f.Holds v path) (proper : f.Proper) (sound : l.files.Sound)
    (inDir : l.files.node l.cwd = some .dir) (fits : f.Fits l.files l.cwd)
    (served : AllFetched con path f) :
    ∃ files N R, Grafts l.files files l.cwd f ∧ files.Sound ∧ ∀ rounds, R ≤ rounds → ∀ fuel,
      N ≤ fuel → (entries f).foldlM (dldirStep con rounds fuel v path) l = some ⟨files, l.cwd⟩ := by
  induction f generalizing path l with
  | nil => exact ⟨l.files, 0, 0, Grafts.nil l.files l.cwd, sound, fun _ _ _ _ => rfl⟩
  | file n c rest ih =>
      obtain ⟨node, others⟩ := holds
      obtain ⟨fresh, proper⟩ := proper
      obtain ⟨free, fits⟩ := fits
      obtain ⟨here, served⟩ := served
      obtain ⟨first, R, placed, fetches⟩ := dl_placed serves sound node inDir free here
      have still : first.node l.cwd = some .dir :=
        (placed.kept _ fun same => concat_ne_self l.cwd n same.symm).trans inDir
      obtain ⟨files, N, R', grafts, sound', runs⟩ := ih path ⟨first, l.cwd⟩ others proper
        placed.sound still (placed.fits fresh fits) served
      refine ⟨files, N, max R R', placed.graftsFile.fileFirst grafts fresh, sound',
        fun rounds larger fuel enough => ?_⟩
      have done : dldirStep con rounds fuel v path l ⟨n, true⟩ = some ⟨first, l.cwd⟩ :=
        fetches rounds (by omega)
      rw [entries, List.foldlM_cons, done]
      exact runs rounds (by omega) fuel enough
  | dir n inside rest ihInside ih =>
      obtain ⟨node, names, within, others⟩ := holds
      obtain ⟨fresh, properInside, proper⟩ := proper
      obtain ⟨free, fitsInside, fits⟩ := fits
      obtain ⟨servedInside, served⟩ := served
      obtain ⟨made, placed, makes⟩ := mkdirP_placed sound inDir free
      have fitsMade : inside.Fits made (l.cwd ++ [n]) := by
        refine fitsInside.congr fun m r _ => placed.kept _ fun same => ?_
        exact List.cons_ne_nil m r (List.append_right_eq_self.mp same)
      obtain ⟨filled, N, R, grafts, soundFilled, fetches⟩ := ihInside (path ++ [n])
        ⟨made, l.cwd ++ [n]⟩ within properInside placed.sound placed.node fitsMade servedInside
      have one := placed.graftsDir grafts
      have still : filled.node l.cwd = some .dir := one.self.trans inDir
      have fitsRest : rest.Fits filled l.cwd := by
        refine fits.congr fun m r member => one.beside (fun single => fresh ?_) r
        rw [← List.mem_singleton.mp single]
        exact member
      obtain ⟨files, N', R', grafts', sound', runs⟩ := ih path ⟨filled, l.cwd⟩ others proper
        soundFilled still fitsRest served
      refine ⟨files, max (N + 1) N', max R R', one.dirFirst grafts' fresh, sound',
        fun rounds larger fuel enough => ?_⟩
      obtain ⟨fuel, rfl⟩ := Nat.exists_eq_add_of_le' (show 1 ≤ fuel by omega)
      have inner : dldir con rounds (fuel + 1) v ⟨made, l.cwd ++ [n]⟩ (path ++ [n]) =
          some ⟨filled, l.cwd ++ [n]⟩ := by
        rw [dldir_succ, ls_eq serves node names within, fetches rounds (by omega) fuel (by omega)]
      have done : dldirStep con rounds (fuel + 1) v path l ⟨n, false⟩ =
          some ⟨filled, l.cwd⟩ := by
        simp only [dldirStep, Bool.false_eq_true, if_false, makes, Option.bind_some, chdir, inner,
          Option.map_some, chdirUp, List.dropLast_concat]
      rw [entries, List.foldlM_cons, done]
      exact runs rounds (by omega) (fuel + 1) (by omega)

end Fetch

section Sample

def emptyVolume : Files where
  node q := if q = [] then some .dir else none
  names _ := []

theorem emptyVolume_sound : emptyVolume.Sound where
  parent p n present := absurd (if_neg (by simp)) present
  listed p n := by simp [emptyVolume]
  nodup _ := List.nodup_nil

/-- The directory `s` has a file `a` and a directory `d` with an empty file `b`, and the directory
`t` is empty. -/
def treeSample : Files :=
  let v := emptyVolume.add [] [0x73#8] .dir
  let v := v.add [[0x73#8]] [0x61#8] (.file [1#8, 2#8])
  let v := v.add [[0x73#8]] [0x64#8] .dir
  let v := v.add [[0x73#8], [0x64#8]] [0x62#8] (.file [])
  v.add [] [0x74#8] .dir

def forestSample : Forest Name (List Byte) :=
  .file [0x61#8] [1#8, 2#8] (.dir [0x64#8] (.file [0x62#8] [] .nil) .nil)

theorem treeSample_sound : treeSample.Sound :=
  ((((emptyVolume_sound.add .dir rfl rfl).add (.file [1#8, 2#8]) rfl rfl).add .dir rfl rfl).add
    (.file []) rfl rfl).add .dir rfl rfl

theorem forestSample_holds : forestSample.Holds treeSample [[0x73#8]] :=
  ⟨rfl, rfl, rfl, ⟨rfl, trivial⟩, trivial⟩

theorem forestSample_fits : forestSample.Fits treeSample [[0x74#8]] :=
  ⟨by decide, fun c same => Option.some_ne_none (Node.file c) same.symm, ⟨by decide, trivial⟩,
    trivial⟩

/-- The requests are refused where the volume does not allow them, and the copies are answered in
full. -/
def consoleSample : Console where
  openRead v path := if isFile v path then 0#32 else 0xFFFCFFE9#32
  openWrite v path :=
    match openLocal v path with
    | none => (0xFFFCFFE9#32, v)
    | some v => (0#32, v)
  makeDir v path _ :=
    match v.node path with
    | some _ => (0xFFFCFFEA#32, v)
    | none =>
        match create v path .dir with
        | none => (0xFFFCFFE9#32, v)
        | some v => (0#32, v)
  remove v path :=
    match path.getLast? with
    | none => (0xFFFCFFE9#32, v)
    | some name =>
        if v.node path = none then (0xFFFCFFE9#32, v)
        else if v.names path = [] then (0#32, v.erase path.dropLast name)
        else (0xFFFCFFE8#32, v)
  openDir v path :=
    if v.node path = some .dir then
      (0#32, (v.names path).map fun name => ⟨name, isFile v (path ++ [name])⟩)
    else (0xFFFCFFE9#32, [])
  reads _ _ := .moved 0
  writes _ _ := .moved 0
  buffer _ _ := 0#8

theorem consoleSample_serves : consoleSample.Serves where
  openRead v path c file := by
    simp [consoleSample, isFile, file]
  openWrite v dir name sound inDir free := by
    obtain ⟨opened, opens, placed⟩ := openLocal_placed sound inDir free
    refine ⟨opened, ?_, placed⟩
    simp only [consoleSample, opens]
  makeDir v dir name flags sound inDir absent := by
    refine ⟨_, ?_, add_placed sound inDir absent .dir⟩
    simp only [consoleSample, absent, create_eq inDir]
  dirExists v path flags there := by
    simp only [consoleSample, there]
  remove v dir name sound there leaf := by
    refine ⟨v.erase dir name, ?_, ?_⟩
    · simp only [consoleSample, List.getLast?_concat, List.dropLast_concat, if_neg there,
        if_pos leaf]
    · exact
        { node := if_pos rfl
          kept := fun q other => if_neg other
          names := fun q other => if_neg other
          sound := sound.erase leaf }
  absent v path none := by
    refine ⟨0xFFFCFFE9#32, ?_⟩
    simp only [consoleSample, none, if_true]
    cases path.getLast? <;> rfl
  openDir v path there := if_pos there

theorem apartSample : Apart [[0x73#8]] [[0x74#8]] := by
  intro r r' same
  exact absurd (List.cons.inj same).1 (by decide)

end Sample

end Stroopwafel.RemoteTree
