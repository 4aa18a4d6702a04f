import MessageBinder.CommandLine.Run

/-!
# The program

The outer layer around `MessageBinder.CommandLine.run`: it looks at the directories that the
arguments name, hands their files over as a value, and carries out what the run leaves changed. The
names of characters are those of the Unicode database of the system. All decisions are made by the
run.
-/

namespace MessageBinder.CommandLine

/-- What a path on the disk is, if it is anything. -/
def entryOnDisk (path : String) : IO (Option Entry) := do
  try
    let place ← IO.FS.realPath path
    if ← place.isDir then return some .directory
    else if ← place.pathExists then
      return some (.file (← IO.FS.readBinFile path).data.toList)
    else return none
  catch _ => return none

/-- The names in a directory on the disk. -/
def namesOnDisk (path : String) : IO (List String) := do
  try
    let place ← IO.FS.realPath path
    return (← place.readDir).toList.map (·.fileName)
  catch _ => return []

/-- Adds what a path and the paths above it are. -/
def lookAt (t : FileTree) (names : List String) : IO FileTree := do
  let mut tree := t
  for n in List.range names.length do
    let above := names.take (n + 1)
    if (tree.at? above).isNone then
      match ← entryOnDisk ("/" ++ "/".intercalate above) with
      | some entry => tree := tree.put above entry
      | none => return tree
  return tree

/-- Adds a directory with what is in it. -/
def lookInto (t : FileTree) (p : Path) : IO FileTree := do
  let names := (t.cwd.absolute p).names
  let mut tree ← lookAt t names
  for name in ← namesOnDisk ("/" ++ "/".intercalate names) do
    tree ← lookAt tree (names ++ [name])
  return tree

/-- The files that a run of the arguments may look at. -/
def filesFor (argv : List String) : IO FileTree := do
  let cwd := Path.ofString (← IO.currentDir).toString
  let mut tree ← lookInto ⟨[], cwd⟩ cwd
  match Arguments.parse argv with
  | .error _ => return tree
  | .ok a =>
    let directories := a.sources.map Path.parent ++ (a.config.path?.map Path.parent).toList ++
      a.projectRoot.toList ++ a.outputDir.path?.toList
    for directory in directories do
      tree ← lookInto tree directory
    return tree

/-- Makes the directories and writes the files that a run has changed. -/
def carryOut (before after : FileTree) : IO Unit := do
  for (names, entry) in after.entries do
    if before.at? names ≠ some entry then
      let path := "/" ++ "/".intercalate names
      match entry with
      | .directory => IO.FS.createDirAll path
      | .file bytes => IO.FS.writeBinFile path ⟨bytes.toArray⟩

/-- Where the Unicode database of the system is. Each of its lines is the number of a character, its
name and further properties, with semicolons between them. -/
def databasePath : String := "/usr/share/unicode/UnicodeData.txt"

/-- The names of characters in the database, whatever the case of their letters. Without a database
there are none. -/
def namesInDatabase : IO CharacterNames := do
  try
    let table := ((← IO.FS.readFile databasePath).splitOn "\n").filterMap fun line =>
      match line.splitOn ";" with
      | number :: name :: _ => (Text.hexNumber? number.toList).map fun n => (name, Char.ofNat n)
      | _ => none
    return ⟨fun name => (table.find? (·.1 = name.toUpper)).map (·.2)⟩
  catch _ => return .nameless

/-- How the program is called. -/
def usage : String :=
  "usage: messages-modules [-h] [-o OUTPUT_DIR] [--config CONFIG] [--project-root PROJECT_ROOT] " ++
    "[--target MODULE:FUNCTION] [--extension EXTENSION] [--json] [--verbose] source [source ...]"

end MessageBinder.CommandLine

open MessageBinder MessageBinder.CommandLine

/-- Compiles the modules that the arguments name. -/
def main (argv : List String) : IO UInt32 := do
  let tree ← filesFor argv
  match @run (← namesInDatabase) tree argv with
  | .ok outcome =>
    carryOut tree outcome.tree
    IO.print outcome.stdout
    IO.eprint outcome.stderr
    return outcome.exitCode.toUInt32
  | .error (.usage .help) =>
    IO.println usage
    return Usage.help.exitCode.toUInt32
  | .error (.usage .invalid) =>
    IO.eprintln usage
    return Usage.invalid.exitCode.toUInt32
  | .error (.failure e) =>
    IO.eprintln e.message
    return 1
  | .error (.unreadableString fault) =>
    IO.eprintln (fault.message?.getD "a string cannot be read")
    return 1
  | .error (.longInteger digits) =>
    IO.eprintln (Text.tooManyDigits digits)
    return 1
  | .error .surrogate =>
    IO.eprintln "a compiled module holds a surrogate"
    return 1
  | .error (.valueless _) =>
    IO.eprintln "an option has no value"
    return 1
