import ImpC.Text.Basic

/-!
Paths as they are written, and the places that they name. Slashes separate the names of a path: one
in front makes it start at the root, one at the end asks for a directory, and several together count
as one. The name `.` stands for the directory where it is met and `..` for the one around that.

The files that a run of the command line reads and writes, and files in memory in which it can run.
A path is followed name by name, and each name but the last has to be that of a directory.
-/

namespace ImpC.CommandLine

structure Path where
  isAbsolute : Bool
  names : List Text
  asksDirectory : Bool
  deriving DecidableEq

/-- Where places are counted from: the root, or the directory that is `levels` around the one in
which the program runs. -/
inductive Anchor where
  | root
  | around (levels : Nat)
  deriving DecidableEq

/-- A place by the names that lead to it, the outermost first. -/
structure Place where
  anchor : Anchor
  names : List Text
  deriving DecidableEq

namespace Path

/-- The names between the slashes of a text. -/
def namesIn (t : Text) : List Text := (t.splitOn '/').filter (· ≠ [])

/-- Reads a path. The empty text is none. -/
def ofText? (t : Text) : Option Path :=
  if t.isEmpty then none else some ⟨t.head? = some '/', namesIn t, t.getLast? = some '/'⟩

/-- The place where a path starts. -/
def start (p : Path) : Place := ⟨if p.isAbsolute then .root else .around 0, []⟩

end Path

namespace Place

/-- The directory around a place. There is none around the root, which stands for it. -/
def parent (p : Place) : Place :=
  match p.names, p.anchor with
  | [], .root => p
  | [], .around levels => ⟨.around (levels + 1), []⟩
  | names, anchor => ⟨anchor, names.dropLast⟩

/-- The place with a given name in a directory. -/
def enter (p : Place) (name : Text) : Place :=
  if name = ".".toList then p
  else if name = "..".toList then p.parent
  else ⟨p.anchor, p.names ++ [name]⟩

/-- `p` is a directory around `q`, if there is anything at `q`. -/
def holds (p q : Place) : Bool := p.anchor = q.anchor && p.names.isPrefixOf q.names.dropLast

end Place

/-- Why a file could not be read or written. -/
inductive Failure where
  | notFound
  | isDirectory
  | notDirectory
  | notText
  | other (cause : Text)
  deriving DecidableEq

def Failure.message : Failure → Text
  | .notFound => "No such file or directory (os error 2)".toList
  | .isDirectory => "Is a directory (os error 21)".toList
  | .notDirectory => "Not a directory (os error 20)".toList
  | .notText => "stream did not contain valid UTF-8".toList
  | .other cause => cause

/-- Access to files and to the standard input. -/
structure Files (m : Type → Type) where
  standardInput : m (Except Failure Text)
  read : Text → m (Except Failure Text)
  write : Text → Text → m (Except Failure Unit)

/-- The text of some bytes, if they are valid UTF-8. -/
def decode (bytes : ByteArray) : Except Failure Text :=
  match String.fromUTF8? bytes with
  | some s => .ok s.toList
  | none => .error .notText

/-- Files by their places, and the bytes on the standard input. -/
structure Folder where
  files : List (Place × ByteArray)
  input : ByteArray

inductive Entry where
  | directory
  | file (bytes : ByteArray)
  | missing

/-- The device that is always empty, whatever is written to it. -/
def nullDevice : Place := ⟨.root, ["dev".toList, "null".toList]⟩

/-- The directories under the root that every system has. -/
def systemDirectories : List Place := [⟨.root, ["dev".toList]⟩, ⟨.root, ["tmp".toList]⟩]

namespace Folder

/-- Files with given names in the directory where the program runs. -/
def holding (files : List (Text × ByteArray)) (input : ByteArray) : Folder :=
  let place (name : Text) : Place := (Path.namesIn name).foldl .enter ⟨.around 0, []⟩
  ⟨files.map fun (name, bytes) => (place name, bytes), input⟩

/-- The directories are the one where the program runs and those around it, those that every system
has, and those that hold a file. -/
def isDirectory (f : Folder) (p : Place) : Bool :=
  p.names.isEmpty || systemDirectories.contains p || f.files.any fun (q, _) => p.holds q

def entry (f : Folder) (p : Place) : Entry :=
  if p = nullDevice then .file .empty
  else
    match f.files.lookup p with
    | some bytes => .file bytes
    | none => if f.isDirectory p then .directory else .missing

/-- Follows the names of directories from a place. -/
def walk (f : Folder) (p : Place) : List Text → Except Failure Place
  | [] => .ok p
  | name :: names =>
    match f.entry (p.enter name) with
    | .directory => walk f (p.enter name) names
    | .file _ => .error .notDirectory
    | .missing => .error .notFound

/-- The place that a path names, whatever is there. -/
def locate (f : Folder) (path : Path) : Except Failure Place :=
  match path.names.getLast? with
  | none => .ok path.start
  | some last => do
    let directory ← f.walk path.start path.names.dropLast
    return directory.enter last

/-- The bytes of a file. -/
def content (f : Folder) (path : Text) : Except Failure ByteArray :=
  match Path.ofText? path with
  | none => .error .notFound
  | some path => do
    match f.entry (← f.locate path) with
    | .directory => .error .isDirectory
    | .missing => .error .notFound
    | .file bytes => if path.asksDirectory then .error .notDirectory else .ok bytes

def read (f : Folder) (path : Text) : Except Failure Text := do decode (← f.content path)

/-- Replaces or adds a file. -/
def put (f : Folder) (p : Place) (bytes : ByteArray) : Folder :=
  if p = nullDevice then f
  else { f with files := (p, bytes) :: f.files.filter (·.1 ≠ p) }

/-- Writes a file, which need not be there before. A path that asks for a directory names none. -/
def write (f : Folder) (path text : Text) : Except Failure Folder :=
  match Path.ofText? path with
  | none => .error .notFound
  | some path => do
    let place ← f.locate path
    match f.entry place with
    | .directory => .error .isDirectory
    | _ =>
      if path.asksDirectory then .error .isDirectory
      else .ok (f.put place (String.ofList text).toUTF8)

/-- Files in memory as the files of a run. -/
def access : Files (StateM Folder) where
  standardInput := fun f => (decode f.input, f)
  read := fun path f => (f.read path, f)
  write := fun path text f =>
    match f.write path text with
    | .ok f => (.ok (), f)
    | .error e => (.error e, f)

end Folder

end ImpC.CommandLine
