import MessageBinder.Catalogue.Properties
import MessageBinder.Failure
import MessageBinder.Text.Lower

/-!
# Formats of catalogues

A catalogue is kept as properties text or as one JSON object of texts. The extension of a file tells
which; points in front of it and the case of its letters do not matter. A loader gives the catalogue
of a path, and the two formats give the loaders that read the files of a tree.
-/

namespace MessageBinder

/-- Gives the catalogue of a path. -/
abbrev Loader := String → Except Failure Catalogue

/-- How a catalogue is kept. -/
inductive Format where
  /-- As properties text. -/
  | properties
  /-- As a JSON object. -/
  | json
deriving DecidableEq, Repr

namespace JsonCatalogue

/-- The entries of an object all of whose values are texts. -/
def entries (origin : String) : List (CodeText × Json) → Except CatalogueError Catalogue
  | [] => .ok []
  | (key, .string value) :: fields => do return (key, value) :: (← entries origin fields)
  | (key, _) :: _ => .error ⟨.valueNotText key, origin⟩

/-- The catalogue that a JSON text writes. -/
def parse (text origin : String) : Except CatalogueError Catalogue := do
  match ← (Json.parse (some Text.maxDigits) text).mapError fun e =>
      ⟨.invalidJson e.fault, origin⟩ with
  | .object fields => entries origin fields
  | _ => throw ⟨.notObject, origin⟩

end JsonCatalogue

namespace Format

/-- The name of a format, which is also its extension. -/
def name : Format → String
  | properties => "properties"
  | json => "json"

/-- The formats by their names. -/
def all : List Format := [properties, json]

/-- An extension without the points in front of it. -/
def withoutPoints (extension : CodeText) : CodeText :=
  ⟨extension.codes.dropWhile (· = .char '.')⟩

/-- The format of an extension. None goes by an extension that holds a surrogate. -/
def ofExtension (extension : CodeText) : Except ConfigError Format :=
  match (withoutPoints extension).text?.bind fun e => all.find? (·.name = Text.lower e) with
  | some f => .ok f
  | none => .error (.unknownExtension extension)

/-- The catalogue that a text writes. -/
def parse : Format → (text origin : String) → Except CatalogueError Catalogue
  | properties => Properties.parse
  | json => JsonCatalogue.parse

/-- Loads catalogues from the files of a tree. -/
def loader (f : Format) (t : FileTree) : Loader := fun path => do
  let text ← t.readText (Path.ofString path)
  (f.parse text path).mapError Failure.ofCatalogue

end Format

end MessageBinder
