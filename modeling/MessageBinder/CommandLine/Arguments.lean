import MessageBinder.Path
import MessageBinder.Text.DecimalDigit

/-!
# Arguments of the command line

An argument is an option, a value or the separator `--`, behind which everything is a value. Long
options may be cut short as long as one option fits, and may carry their value behind an equals
sign; the short option `-o` may carry it right behind its letter, and `-h` may carry further short
options there. What looks like a negative number or holds a blank is a value, unless it is an
option. An unknown option is a fault, but reading goes on: a request for help that comes later is
still answered.

The sources are the first run of values. Values that come later, behind an option, are a fault. Two
hyphens carried by an option are the separator again and no value: the option is then given
*without* one.
-/

namespace MessageBinder.CommandLine

/-! ### Options -/

/-- The options. -/
inductive OptionName where
  | help | outputDir | config | projectRoot | target | extension | json | verbose
deriving DecidableEq, Repr

/-- The spellings of the options. -/
def spellings : List (String × OptionName) :=
  [("-h", .help), ("--help", .help), ("-o", .outputDir), ("--output-dir", .outputDir),
   ("--config", .config), ("--project-root", .projectRoot), ("--target", .target),
   ("--extension", .extension), ("--json", .json), ("--verbose", .verbose)]

/-- Whether an option has a value. -/
def OptionName.takesValue : OptionName → Bool
  | .help | .json | .verbose => false
  | _ => true

/-- The option of a spelling. -/
def spelled? (text : List Char) : Option OptionName :=
  (spellings.find? (·.1.toList = text)).map (·.2)

/-- An argument. -/
inductive Argument where
  /-- An option, `short` if it is written as a hyphen and a letter, with the value that the same
  argument carries. -/
  | option (name : OptionName) (short : Bool) (value : Option String)
  /-- An option that is none. -/
  | unknown
  /-- A value. -/
  | value (text : String)
  /-- The separator. -/
  | separator
deriving DecidableEq, Repr

/-- Why reading the arguments ends early. -/
inductive Usage where
  /-- Help is asked for. -/
  | help
  /-- The arguments are at fault. -/
  | invalid
deriving DecidableEq, Repr

/-- The exit code of an early end. -/
def Usage.exitCode : Usage → Nat
  | .help => 0
  | .invalid => 2

/-! ### Single arguments -/

/-- Whether a text is a number without a sign: digits, or a point with digits behind it and perhaps
before it. -/
def isUnsignedNumber (cs : List Char) : Bool :=
  let whole := cs.takeWhile Text.isDecimalDigit
  match cs.drop whole.length with
  | [] => !whole.isEmpty
  | '.' :: part => !part.isEmpty && part.all Text.isDecimalDigit
  | _ => false

/-- Whether a text looks like a negative number. One line feed may follow the number. -/
def isNegativeNumber : List Char → Bool
  | '-' :: cs => isUnsignedNumber (if cs.getLast? = some '\n' then cs.dropLast else cs)
  | _ => false

/-- The text before the first equals sign, and the text behind it if there is one. -/
def splitValue (cs : List Char) : List Char × Option (List Char) :=
  let name := cs.takeWhile (· ≠ '=')
  match cs.drop name.length with
  | [] => (name, none)
  | _ :: value => (name, some value)

/-- Whether a spelling is one of two hyphens. -/
def isLong : List Char → Bool
  | '-' :: '-' :: _ => true
  | _ => false

/-- An option of a spelling, with the value behind an equals sign. -/
def Argument.assigned (name : OptionName) (spelling : List Char) (value : Option (List Char)) :
    Argument :=
  .option name (!isLong spelling) (value.map String.ofList)

/-- The options that an argument can mean when it is no spelling in full. -/
def abbreviated (cs : List Char) : List Argument :=
  if isLong cs then
    let (name, value) := splitValue cs
    (spellings.filter fun s => name.isPrefixOf s.1.toList).map fun s =>
      .assigned s.2 name value
  else
    (spellings.filter fun s => s.1.toList = cs.take 2).map fun s =>
      .option s.2 true (some (String.ofList (cs.drop 2)))

/-- What an argument before the separator is. -/
def Argument.ofText (text : String) : Except Usage Argument :=
  let cs := text.toList
  if cs.head? ≠ some '-' then .ok (.value text)
  else if cs = ['-'] then .ok (.value text)
  else
    match spelled? cs, spelled? (splitValue cs).1 with
    | some name, _ => .ok (.assigned name cs none)
    | none, some name => .ok (.assigned name cs (splitValue cs).2)
    | none, none =>
      match abbreviated cs with
      | [a] => .ok a
      | _ :: _ :: _ => .error .invalid
      | [] => .ok (if isNegativeNumber cs || cs.contains ' ' then .value text else .unknown)

/-- What the arguments are. -/
def classify : List String → Except Usage (List Argument)
  | [] => .ok []
  | text :: texts =>
    if text = "--" then .ok (.separator :: texts.map .value)
    else do
      let a ← Argument.ofText text
      return a :: (← classify texts)

/-! ### All arguments -/

/-- How far the sources have been read. -/
inductive SourceRun where
  | before | inside | behind
deriving DecidableEq, Repr

/-- What an option that names a path was given. -/
inductive PathSetting where
  /-- The option is not given. -/
  | absent
  /-- The option is given without a value. -/
  | valueless
  /-- The option is given with a path. -/
  | path (p : Path)
deriving DecidableEq, Repr

/-- The path that was given, if any. -/
def PathSetting.path? : PathSetting → Option Path
  | .path p => some p
  | .absent | .valueless => none

/-- What the arguments say. -/
structure Arguments where
  /-- The sources. -/
  sources : List Path := []
  /-- The directory for the compiled modules. -/
  outputDir : PathSetting := .absent
  /-- The configuration. -/
  config : PathSetting := .absent
  /-- The project. -/
  projectRoot : Option Path := none
  /-- The targets, as they are written; there is none where the option has no value. -/
  targets : List (Option String) := []
  /-- The extension of the catalogues. -/
  extension : String := ""
  /-- Whether diagnostics are written as JSON. -/
  json : Bool := false
  /-- Whether compiled files are reported too. -/
  verbose : Bool := false
  /-- How far the sources have been read. -/
  run : SourceRun := .before
  /-- Whether an argument was left over. -/
  extra : Bool := false
deriving DecidableEq, Repr

namespace Arguments

/-- Takes a value of no option. -/
def addSource (a : Arguments) (text : String) : Arguments :=
  if a.run = .behind then { a with extra := true }
  else { a with sources := a.sources ++ [.ofString text], run := .inside }

/-- Ends a run of sources. -/
def endRun (a : Arguments) : Arguments :=
  if a.run = .inside then { a with run := .behind } else a

/-- What a text that an option carries or that follows it stands for. Two hyphens are no value. -/
def valueOf? (text : String) : Option String := if text = "--" then none else some text

/-- The setting that a text makes. -/
def pathOf (text : String) : PathSetting :=
  match valueOf? text with
  | some value => .path (.ofString value)
  | none => .valueless

/-- Takes an option with its value. -/
def set (a : Arguments) (name : OptionName) (text : String) : Arguments :=
  match name with
  | .outputDir => { a with outputDir := pathOf text }
  | .config => { a with config := pathOf text }
  | .projectRoot => { a with projectRoot := (valueOf? text).map .ofString }
  | .target => { a with targets := a.targets ++ [valueOf? text] }
  | .extension => { a with extension := (valueOf? text).getD "" }
  | .json => { a with json := true }
  | .verbose => { a with verbose := true }
  | .help => a

/-- What letters behind `-h` come to. Each is a short option again, and `-o` takes the rest of them
or else the next argument for its value; the help is given unless a letter is no option or the value
is missing. -/
def helpCluster (valueFollows : Bool) : List Char → Usage
  | [] => .help
  | 'h' :: rest => helpCluster valueFollows rest
  | ['o'] => if valueFollows then .help else .invalid
  | 'o' :: _ => .help
  | _ => .invalid

/-- Whether the next argument is a value. -/
def valueFollows : List Argument → Bool
  | .value _ :: _ => true
  | _ => false

/-- Takes the arguments one after the other. -/
def take (a : Arguments) : List Argument → Except Usage Arguments
  | [] => .ok a
  | .value text :: rest => take (a.addSource text) rest
  | .separator :: rest => take (if a.run = .behind then { a with extra := true } else a) rest
  | .unknown :: rest => take { a.endRun with extra := true } rest
  | .option .help short (some text) :: rest =>
    .error (if short && text ≠ "" then helpCluster (valueFollows rest) text.toList else .invalid)
  | .option .help _ none :: _ => .error .help
  | .option name _ (some text) :: rest =>
    if name.takesValue then take (a.endRun.set name text) rest else .error .invalid
  | .option name _ none :: rest =>
    if name.takesValue then
      match rest with
      | .value text :: rest => take (a.endRun.set name text) rest
      | _ => .error .invalid
    else take (a.endRun.set name "") rest

/-- What the arguments of a command line say. -/
def parse (argv : List String) : Except Usage Arguments := do
  let a ← take {} (← classify argv)
  if a.extra || a.sources.isEmpty then throw .invalid
  return a

end Arguments

end MessageBinder.CommandLine
