import Stroopwafel.FileTree
import Stroopwafel.RemoteCopy

set_option autoImplicit false

namespace Stroopwafel.RemoteTree

open Memory FileTree RemoteFile

/-- A name in a directory. A path with `/` and a name behind it is the list with one more name. -/
abbrev Name := List Byte
abbrev Place := Path Name
abbrev Files := Volume Name (List Byte)

structure Entry where
  name : Name
  isFile : Bool

def isFile (v : Files) (path : Place) : Bool :=
  match v.node path with
  | some (.file _) => true
  | _ => false

def contentOf (v : Files) (path : Place) : List Byte :=
  match v.node path with
  | some (.file content) => content
  | _ => []

/-- The file service of the console: the status of a request, and the volume behind it. `openDir` is
the status with the entries that `FSA_ReadDir` hands out. The reads and writes of a copy are
answered by the path that it reads from. -/
structure Console where
  openRead : Files → Place → Word
  openWrite : Files → Place → Word × Files
  makeDir : Files → Place → Word → Word × Files
  remove : Files → Place → Word × Files
  openDir : Files → Place → Word × List Entry
  reads : Place → Nat → Answer
  writes : Place → Nat → Answer
  buffer : Place → Nat → Byte

section Client

variable (con : Console)

/-- `ls` with `return_data` -/
def ls (v : Files) (path : Place) : List Entry :=
  let (ret, entries) := con.openDir v path
  if ret ≠ 0#32 then [] else entries

def mkdir (v : Files) (path : Place) (flags : Word) : Word × Files :=
  let (ret, v) := con.makeDir v path flags
  if ret = 0#32 then (0#32, v)
  else if ret = 0xFFFCFFEA#32 then (0#32, v)
  else (ret, v)

def rm (v : Files) (path : Place) : Int × Files :=
  let (ret, v) := con.remove v path
  if ret = 0#32 then (0, v) else (-1, v)

/-- Nothing when the loop of the copy still runs after `rounds` of it. -/
def cp (rounds : Nat) (v : Files) (filenameIn filenameOut : Place) : Option Files :=
  if con.openRead v filenameIn ≠ 0#32 then some v
  else
    let (ret, v) := con.openWrite v filenameOut
    if ret ≠ 0#32 then some v
    else
      -- the output is open, and empty, before the input is read
      (RemoteFile.cp (con.reads filenameIn) (con.writes filenameIn) (contentOf v filenameIn)
        (con.buffer filenameIn) rounds).map fun c => v.set filenameOut (.file c.dest)

abbrev Item := Place × Place × Entry

def items (src dst : Place) (entries : List Entry) : List Item :=
  entries.map fun e => (src, dst, e)

/-- The loop of `cpdir`. The head of the list is the end of the queue, where it is taken from. -/
def cpdirLoop (rounds : Nat) : Nat → Files → List Item → Option Files
  | _, v, [] => some v
  | 0, _, _ :: _ => none
  | fuel + 1, v, (src, dst, e) :: q =>
      let src := src ++ [e.name]
      let dst := dst ++ [e.name]
      if e.isFile then (cp con rounds v src dst).bind fun v => cpdirLoop rounds fuel v q
      else
        let v := (mkdir con v dst 0x666#32).2
        cpdirLoop rounds fuel v ((items src dst (ls con v src)).reverse ++ q)

def cpdir (fuel : Nat) (v : Files) (srcpath dstpath : Place) : Option Files :=
  cpdirLoop con fuel fuel v (items srcpath dstpath (ls con v srcpath)).reverse

def rmdir : Nat → Files → Place → Option Files
  | 0, _, _ => none
  | fuel + 1, v, path =>
      ((ls con v path).foldlM (fun v (e : Entry) =>
        let curDir := path ++ [e.name]
        (if e.isFile then some v else rmdir fuel v curDir).map fun v => (rm con v curDir).2) v).map
          fun v => (rm con v path).2

/-- The computer that the client runs on. -/
structure Local where
  files : Files
  cwd : Place

/-- A new entry, if its directory is there. -/
def create (v : Files) (path : Place) (x : Node (List Byte)) : Option Files :=
  match path.getLast? with
  | none => none
  | some name =>
      if v.node path.dropLast = some .dir then some (v.add path.dropLast name x) else none

/-- `open(path, "wb")` -/
def openLocal (v : Files) (path : Place) : Option Files :=
  match v.node path with
  | some .dir => none
  | some (.file _) => some (v.set path (.file []))
  | none => create v path (.file [])

def mkdirP (l : Local) (name : Name) : Option Local :=
  match l.files.node (l.cwd ++ [name]) with
  | some .dir => some l
  | some (.file _) => none
  | none => (create l.files (l.cwd ++ [name]) .dir).map fun files => { l with files := files }

def chdir (l : Local) (name : Name) : Local := { l with cwd := l.cwd ++ [name] }

def chdirUp (l : Local) : Local := { l with cwd := l.cwd.dropLast }

/-- `dl` of a path with a directory, into the file of that name in the working directory. -/
def dl (rounds : Nat) (v : Files) (l : Local) (dir : Place) (name : Name) : Option Local :=
  let filename := dir ++ [name]
  if con.openRead v filename ≠ 0#32 then some l
  else
    (openLocal l.files (l.cwd ++ [name])).bind fun files =>
      (RemoteFile.dl (con.reads filename) (contentOf v filename) (con.buffer filename) rounds).map
        fun c => { l with files := files.set (l.cwd ++ [name]) (.file c.dest) }

/-- Nothing when an exception is raised, too. -/
def dldir (rounds : Nat) : Nat → Files → Local → Place → Option Local
  | 0, _, _, _ => none
  | fuel + 1, v, l, path =>
      (ls con v path).foldlM (fun l (e : Entry) =>
        if e.isFile then dl con rounds v l path e.name
        else
          (mkdirP l e.name).bind fun l =>
            (dldir rounds fuel v (chdir l e.name) (path ++ [e.name])).map chdirUp) l

end Client

/-- One entry of a directory is new or another one, and nothing else has changed. -/
structure Placed (v v' : Files) (dir : Place) (name : Name) (x : Node (List Byte)) : Prop where
  node : v'.node (dir ++ [name]) = some x
  kept : ∀ q, q ≠ dir ++ [name] → v'.node q = v.node q
  names : ∀ q, q ≠ dir → v'.names q = v.names q
  sound : v'.Sound

/-- One entry of a directory is gone, and nothing else has changed. -/
structure Unlinked (v v' : Files) (dir : Place) (name : Name) : Prop where
  node : v'.node (dir ++ [name]) = none
  kept : ∀ q, q ≠ dir ++ [name] → v'.node q = v.node q
  names : ∀ q, q ≠ dir → v'.names q = v.names q
  sound : v'.Sound

/-- The service grants what the volume allows: a file is opened, and emptied to be written, a new
entry is made in a directory, an entry with nothing below it is taken out, and a directory is
listed. For a directory that is there already it has a status of its own. -/
structure Console.Serves (con : Console) : Prop where
  openRead : ∀ v path c, v.node path = some (.file c) → con.openRead v path = 0#32
  openWrite : ∀ v dir name, v.Sound → v.node dir = some .dir → v.node (dir ++ [name]) ≠ some .dir →
    ∃ v', con.openWrite v (dir ++ [name]) = (0#32, v') ∧ Placed v v' dir name (.file [])
  makeDir : ∀ v dir name flags, v.Sound → v.node dir = some .dir → v.node (dir ++ [name]) = none →
    ∃ v', con.makeDir v (dir ++ [name]) flags = (0#32, v') ∧ Placed v v' dir name .dir
  dirExists : ∀ v path flags, v.node path = some .dir →
    con.makeDir v path flags = (0xFFFCFFEA#32, v)
  remove : ∀ v dir name, v.Sound → v.node (dir ++ [name]) ≠ none → v.names (dir ++ [name]) = [] →
    ∃ v', con.remove v (dir ++ [name]) = (0#32, v') ∧ Unlinked v v' dir name
  absent : ∀ v path, v.node path = none → ∃ ret, con.remove v path = (ret, v)
  openDir : ∀ v path, v.node path = some .dir →
    con.openDir v path =
      (0#32, (v.names path).map fun name => ⟨name, isFile v (path ++ [name])⟩)

end Stroopwafel.RemoteTree
