import MessageBinder.Path
import MessageBinder.Text.Lines
import MessageBinder.Text.Shown
import MessageBinder.Text.Utf8

/-!
# File trees

The files that a run sees, as a value: every file and every directory by the names that lead to it
from the top. Paths are followed name by name from the current directory, and each name on the way
has to be a directory, also where `..` leads out of it again. A failure shows the path as it was
asked for.

Text is read as strict UTF-8 with its line ends made line feeds.
-/

namespace MessageBinder

/-- What the system refuses. -/
inductive IoFault where
  /-- There is nothing under the path. -/
  | missing
  /-- Something stands where a directory is to be made. -/
  | occupied
  /-- The path leads through a file. -/
  | notDirectory
  /-- A file is needed and there is a directory. -/
  | isDirectory
  /-- A name on the way, or the whole path, is too long. -/
  | tooLong
deriving DecidableEq, Repr

namespace IoFault

/-- The number of a fault. -/
def number : IoFault → Nat
  | missing => 2
  | occupied => 17
  | notDirectory => 20
  | isDirectory => 21
  | tooLong => 36

/-- The wording of a fault. -/
def message : IoFault → String
  | missing => "No such file or directory"
  | occupied => "File exists"
  | notDirectory => "Not a directory"
  | isDirectory => "Is a directory"
  | tooLong => "File name too long"

/-- The word for a fault. -/
def word : IoFault → String
  | missing => "FileNotFoundError"
  | occupied => "FileExistsError"
  | notDirectory => "NotADirectoryError"
  | isDirectory => "IsADirectoryError"
  | tooLong => "OSError"

end IoFault

/-- Why an operation on a path fails. -/
inductive IoError where
  /-- The system refuses it, for the path asked for. -/
  | refused (fault : IoFault) (path : String)
  /-- The path holds a null character, so that the system is not even asked. -/
  | nullInPath
deriving DecidableEq, Repr

namespace IoError

/-- The wording of a failure. -/
def message : IoError → String
  | refused fault path =>
    "[Errno " ++ toString fault.number ++ "] " ++ fault.message ++ ": " ++ Text.shown path
  | nullInPath => "embedded null byte"

/-- The word for the kind of a failure. -/
def word : IoError → String
  | refused fault _ => fault.word
  | nullInPath => "ValueError"

end IoError

/-- What a path leads to. -/
inductive Entry where
  /-- A file with its bytes. -/
  | file (bytes : List UInt8)
  /-- A directory. -/
  | directory
deriving DecidableEq, Repr

/-- Whether an entry is a file. -/
def Entry.isFile : Entry → Bool
  | .file _ => true
  | .directory => false

/-- Files and directories by the names that lead to them from the top, and the current directory. -/
structure FileTree where
  /-- The entries. The top is a directory without an entry. -/
  entries : List (List String × Entry)
  /-- The current directory. -/
  cwd : Path

namespace FileTree

/-- The entry at the end of names from the top. -/
def at? (t : FileTree) (names : List String) : Option Entry :=
  if names.isEmpty then some .directory else (t.entries.find? (·.1 = names)).map (·.2)

/-- Puts an entry at the end of names from the top. -/
def put (t : FileTree) (names : List String) (entry : Entry) : FileTree :=
  if (t.at? names).isSome then
    { t with entries := t.entries.map fun e => if e.1 = names then (names, entry) else e }
  else { t with entries := t.entries ++ [(names, entry)] }

/-! ### Following paths -/

/-- The greatest number of bytes in a name. -/
def maxNameSize : Nat := 255

/-- The greatest number of bytes in a path. -/
def maxPathSize : Nat := 4095

/-- Follows a name from a place, which must be a directory. -/
def enter (t : FileTree) (place : List String) (name : String) : Except IoFault (List String) :=
  match t.at? place with
  | none => .error .missing
  | some (.file _) => .error .notDirectory
  | some .directory =>
    if maxNameSize < name.utf8ByteSize then .error .tooLong
    else .ok (if Path.isUp name then place.dropLast else place ++ [name])

/-- The place that a path leads to. There need not be anything, but what holds it is a directory. -/
def locate (t : FileTree) (p : Path) : Except IoFault (List String) :=
  if maxPathSize < p.text.utf8ByteSize then .error .tooLong
  else (t.cwd.join p).names.foldlM t.enter []

/-- What a path leads to. -/
def stat (t : FileTree) (p : Path) : Except IoFault Entry := do
  match t.at? (← t.locate p) with
  | some entry => return entry
  | none => throw .missing

/-- Whether a path leads to a directory. -/
def isDirectory (t : FileTree) (p : Path) : Bool :=
  match t.stat p with
  | .ok .directory => true
  | _ => false

/-- The outcome of asking the system for a path, which a failure names. -/
def naming {α : Type} (p : Path) (r : Except IoFault α) : Except IoError α :=
  if p.hasNull then .error .nullInPath else r.mapError (.refused · p.text)

/-! ### Reading -/

/-- Whether a path leads to something. Only a path that is too long has no answer. -/
def has (t : FileTree) (p : Path) : Except IoError Bool :=
  if p.hasNull then .ok false
  else
    match t.stat p with
    | .ok _ => .ok true
    | .error .tooLong => .error (.refused .tooLong p.text)
    | .error _ => .ok false

/-- The bytes of a file. -/
def read (t : FileTree) (p : Path) : Except IoError (List UInt8) :=
  naming p do
    match ← t.stat p with
    | .file bytes => return bytes
    | .directory => throw .isDirectory

/-- The names of the files in a directory, in order of their entries. -/
def filesIn (t : FileTree) (p : Path) : Except IoError (List String) :=
  naming p do
    let place ← t.locate p
    match t.at? place with
    | none => throw .missing
    | some (.file _) => throw .notDirectory
    | some .directory =>
      return t.entries.filterMap fun (names, entry) =>
        if entry.isFile && names.dropLast = place then names.getLast? else none

/-! ### Writing -/

/-- The tree with a file written. -/
def write (t : FileTree) (p : Path) (bytes : List UInt8) : Except IoError FileTree :=
  naming p do
    let place ← t.locate p
    match t.at? place with
    | some .directory => throw .isDirectory
    | some (.file _) => return t.put place (.file bytes)
    | none => return t.put place (.file bytes)

/-- The tree with a directory made in one that exists. -/
def makeDirectory (t : FileTree) (p : Path) : Except IoFault FileTree := do
  let place ← t.locate p
  match t.at? place with
  | some _ => throw .occupied
  | none => return t.put place .directory

/-- The tree with a directory, where one that is there already is no failure. -/
def ensureDirectory (t : FileTree) (p : Path) : Except IoFault FileTree :=
  match t.makeDirectory p with
  | .error fault => if t.isDirectory p then .ok t else .error fault
  | ok => ok

/-- The tree with a directory and the directories above it. The names come last first. -/
def ensureAll (t : FileTree) (root : Root) : List String → Except IoError FileTree
  | [] => naming ⟨root, []⟩ (t.ensureDirectory ⟨root, []⟩)
  | name :: above =>
    let p : Path := ⟨root, (name :: above).reverse⟩
    match t.ensureDirectory p with
    | .error .missing => do
      let t ← ensureAll t root above
      naming p (t.ensureDirectory p)
    | r => naming p r

/-- The tree with a directory and the directories above it. -/
def makeDirectories (t : FileTree) (p : Path) : Except IoError FileTree :=
  ensureAll t p.root p.names.reverse

/-! ### Text -/

/-- The text of bytes: strict UTF-8 with its line ends made line feeds. -/
def textOf (bytes : List UInt8) : Except Text.Utf8Error String :=
  (Text.ofUtf8 bytes).map fun cs => String.ofList (Text.unifyNewlines cs)

/-- The bytes of a text. -/
def bytesOf (text : String) : List UInt8 := text.toUTF8.data.toList

end FileTree

end MessageBinder
