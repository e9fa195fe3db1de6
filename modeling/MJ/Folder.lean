import MJ.Host
import MJ.Text.Utf8

/-!
# A host in memory

A working directory with files and directories, given as values.  Commands run on it without any
effect on the world.  Of the directories around it, nothing is known but that they are there.

## Main definitions

* `Location` — a place in the tree of directories.
* `Folder` — the working directory, the input and what has been written.
* `Folder.walk` — where a path leads.
* `Folder.read`, `Folder.write`
* `Folder.written` — the files that a command made or changed.
-/

namespace MJ

/-! ### Paths -/

/-- The longest name of a file, in bytes.  Each name on a path is checked by itself. -/
def maxName : Nat := 255

/-- The longest path, in bytes.  The whole path is checked before any of its names. -/
def maxPath : Nat := 4095

/-- A place in the tree of directories, whether something is there or not.  The names of the
directories above the working directory are not known. -/
structure Location where
  /-- How many levels above the working directory the names start; `none` stands for the root. -/
  above? : Option Nat
  /-- The names that lead to it from there. -/
  names : List String
  deriving DecidableEq, Repr

namespace Location

/-- The working directory.  Relative paths start there. -/
def here : Location := ⟨some 0, []⟩

/-- The root of the tree.  Paths that start with a slash start there. -/
def root : Location := ⟨none, []⟩

/-- The place of a name in a directory.  Whether something is there is not asked. -/
def child (l : Location) (name : String) : Location := { l with names := l.names ++ [name] }

/-- The directory around a place; the root has none but itself. -/
def parent (l : Location) : Location :=
  if l.names.isEmpty then { l with above? := l.above?.map (· + 1) }
  else { l with names := l.names.dropLast }

/-- Where a path starts. -/
def start (path : String) : Location :=
  if path.toList.head? = some '/' then root else here

end Location

/-- The steps of a path: what stands between its slashes.  Several slashes in a row count as one. -/
def pathSteps (path : String) : List String := (path.splitOn "/").filter (· ≠ "")

/-- Whether a path ends with a slash, so that it can only name a directory.  This matters after the
last step only. -/
def endsOpen (path : String) : Bool := path.toList.getLast? == some '/'

/-! ### Folders -/

/-- A working directory and the standard streams.  What lies above the working directory is not part
of it. -/
structure Folder where
  /-- The files by the names that lead to them. -/
  files : List (List String × List UInt8)
  /-- The directories by the names that lead to them; those around a file or directory need not
  be listed. -/
  dirs : List (List String)
  /-- Standard input. -/
  input : List UInt8
  /-- What has been written to standard output. -/
  output : List UInt8
  /-- What has been written to the error output. -/
  errors : String
  deriving DecidableEq, Repr

namespace Folder

/-- The folder with given files and directories, by their paths.  Nothing has been written yet. -/
def ofPaths (files : List (String × List UInt8)) (dirs : List String) (input : List UInt8) :
    Folder where
  files := files.map fun (path, bs) => (pathSteps path, bs)
  dirs := dirs.map pathSteps
  input := input
  output := []
  errors := ""

/-- The bytes of the file at a place.  Outside of the working directory there is none. -/
def file? (f : Folder) (l : Location) : Option (List UInt8) :=
  if l.above? = some 0 then f.files.lookup l.names else none

/-- Whether a place is a directory: it is listed, or something lies inside it. -/
def isDirectory (f : Folder) (l : Location) : Bool :=
  l.names.isEmpty ||
    (l.above? == some 0 &&
      (f.dirs.any l.names.isPrefixOf ||
        f.files.any fun (names, _) => l.names.isPrefixOf names && l.names != names))

/-- Checks that a place is a directory.  A file in its place is another error than nothing there. -/
def requireDirectory (f : Folder) (l : Location) : Except HostError Unit :=
  if f.isDirectory l then .ok ()
  else if (f.file? l).isSome then .error .notDirectory
  else .error .notFound

/-- Checks that a name is not too long.  Names are measured in bytes. -/
def checkName (name : String) : Except HostError Unit :=
  if maxName < name.utf8ByteSize then .error .nameTooLong else .ok ()

/-- Where one step leads from a place, which must be a directory.  The length of the name is checked
after that. -/
def step (f : Folder) (l : Location) (name : String) : Except HostError Location := do
  f.requireDirectory l
  if name = "." then .ok l
  else if name = ".." then .ok l.parent
  else do
    checkName name
    .ok (l.child name)

/-- Where steps lead from a place.  Nothing need be there. -/
def walk (f : Folder) (l : Location) : List String → Except HostError Location
  | [] => .ok l
  | name :: names => do
    let l ← f.step l name
    walk f l names

/-- Checks the length of a path.  An empty path leads nowhere. -/
def checkPath (path : String) : Except HostError Unit :=
  if maxPath < path.utf8ByteSize then .error .nameTooLong
  else if path.isEmpty then .error .notFound
  else .ok ()

/-- The bytes of the file at a path.  A directory is refused before it is asked whether the path
ends with a slash. -/
def read (f : Folder) (path : String) : Except HostError (List UInt8) := do
  checkPath path
  let l ← f.walk (.start path) (pathSteps path)
  if f.isDirectory l then .error .isDirectory
  else
    match f.file? l with
    | none => .error .notFound
    | some bs => if endsOpen path then .error .notDirectory else .ok bs

/-- The folder with given bytes in the file at a place; what lies outside of the folder is not
kept. -/
def put (f : Folder) (l : Location) (bs : List UInt8) : Folder :=
  if l.above? = some 0 then
    { f with files := (l.names, bs) :: f.files.filter fun (names, _) => names != l.names }
  else f

/-- The folder with given bytes in the file at a path.  A path that can only name a directory is
refused before its last name is looked up. -/
def write (f : Folder) (path : String) (bs : List UInt8) : Except HostError Folder := do
  checkPath path
  let steps := pathSteps path
  let directory ← f.walk (.start path) steps.dropLast
  f.requireDirectory directory
  match steps.getLast? with
  | none => .error .isDirectory
  | some name =>
    if name = "." ∨ name = ".." ∨ endsOpen path then .error .isDirectory
    else do
      checkName name
      let l := directory.child name
      if f.isDirectory l then .error .isDirectory else .ok (f.put l bs)

/-- The files directly in the working directory that are not as they were before.  Files that were
rewritten with the same bytes are not among them. -/
def written (before f : Folder) : List (String × List UInt8) :=
  f.files.filterMap fun (names, bs) =>
    match names with
    | [name] => if before.files.lookup names = some bs then none else some (name, bs)
    | _ => none

instance : Host (StateM Folder) where
  readFile path := do return (← get).read path
  writeFile path bs := do
    match (← get).write path bs with
    | .ok f =>
      set f
      return .ok ()
    | .error e => return .error e
  readInput := do return (← get).input
  print bs := modify fun f => { f with output := f.output ++ bs }
  complain text := modify fun f => { f with errors := f.errors ++ text ++ "\n" }

end Folder
end MJ
