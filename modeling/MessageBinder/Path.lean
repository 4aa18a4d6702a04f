/-!
# Paths

A path is read as its root and its names: empty names and `.` are dropped, `..` is kept, and exactly
two slashes at the front are a root of their own. Normalizing takes `..` away by dropping the name
before it, without a look at the disk.

The path of a source is written relative to the project, so that the output does not depend on where
the project lies; a source outside the project keeps its whole path.
-/

namespace MessageBinder

/-- Where a path starts. -/
inductive Root where
  /-- At the current directory. -/
  | relative
  /-- At the top. -/
  | slash
  /-- At the top, written with two slashes. -/
  | twoSlashes
deriving DecidableEq, Repr, Inhabited

/-- The written form of a root. -/
def Root.text : Root → String
  | .relative => ""
  | .slash => "/"
  | .twoSlashes => "//"

/-- A root and names, none of which is empty or `.`. -/
structure Path where
  /-- Where the path starts. -/
  root : Root
  /-- The names. -/
  names : List String
deriving DecidableEq, Repr, Inhabited

namespace Path

/-- The root of a written path. -/
def rootOf : List Char → Root
  | '/' :: '/' :: '/' :: _ => .slash
  | '/' :: '/' :: _ => .twoSlashes
  | '/' :: _ => .slash
  | _ => .relative

/-- The path that a text writes. -/
def ofString (s : String) : Path :=
  ⟨rootOf s.toList, ((s.toList.splitOn '/').map String.ofList).filter fun n => n ≠ "" && n ≠ "."⟩

/-- The written form of a path. -/
def text (p : Path) : String :=
  if p.root = .relative ∧ p.names = [] then "." else p.root.text ++ "/".intercalate p.names

/-- Whether a path starts at the top. -/
def isAbsolute (p : Path) : Bool := p.root ≠ .relative

/-- A path continued by another one, which counts alone if it is absolute. -/
def join (p q : Path) : Path := if q.isAbsolute then q else ⟨p.root, p.names ++ q.names⟩

/-- The path without its last name. -/
def parent (p : Path) : Path := ⟨p.root, p.names.dropLast⟩

/-- The last name, empty if there is none. -/
def name (p : Path) : String := p.names.getLast?.getD ""

/-- A name without its last suffix. A point at the front or at the end starts no suffix. -/
def stemOf (name : List Char) : List Char :=
  let suffix := (name.reverse.takeWhile (· ≠ '.')).reverse
  let before := name.take (name.length - suffix.length - 1)
  if suffix.isEmpty || before.isEmpty then name else before

/-- The last name without its suffix. -/
def stem (p : Path) : String := String.ofList (stemOf p.name.toList)

/-- Whether a name goes to the directory above. -/
def isUp (name : String) : Bool := name = ".."

/-- Takes one name onto normalized names, the last of which comes first. At the top there is nothing
above. -/
def normalStep (absolute : Bool) (stack : List String) (name : String) : List String :=
  if isUp name then
    match stack with
    | [] => if absolute then [] else [name]
    | top :: rest => if isUp top then name :: stack else rest
  else name :: stack

/-- The path with `..` taken away as far as possible. -/
def normalize (p : Path) : Path :=
  ⟨p.root, (p.names.foldl (normalStep p.isAbsolute) []).reverse⟩

/-- Whether the written form holds a null character, with which the system cannot be asked for
it. -/
def hasNull (p : Path) : Bool := p.names.any (·.toList.contains '\x00')

/-- The path as seen from a directory, normalized. -/
def absolute (cwd p : Path) : Path := (cwd.join p).normalize

/-- The text without the slashes at its front. -/
def withoutSlashes (s : String) : String := String.ofList (s.toList.dropWhile (· = '/'))

/-- The names behind those of a directory, if the path lies in it. -/
def relativeTo? (p directory : Path) : Option Path :=
  if p.root = directory.root && directory.names.isPrefixOf p.names then
    some ⟨.relative, p.names.drop directory.names.length⟩
  else none

/-- The path of a file relative to a project. A relative path is one from the project already. -/
def inProject (cwd file project : Path) : String :=
  if file.isAbsolute then
    let project := if project.isAbsolute then project else cwd.absolute project
    match file.relativeTo? project with
    | some p => withoutSlashes p.text
    | none => file.text
  else withoutSlashes file.normalize.text

/-- Where a path relative to a project lies; the path itself if there is no project. -/
def onDisk (source : Path) (project : Option Path) : Path :=
  match project with
  | some root => root.join source
  | none => source

/-- The directory continued by a name, as text. -/
def entryText (directory : Path) (name : String) : String :=
  let d := directory.text
  if d.endsWith "/" then d ++ name else d ++ "/" ++ name

end Path

end MessageBinder
