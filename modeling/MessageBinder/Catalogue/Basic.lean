import MessageBinder.Json.Reader
import MessageBinder.Text.Shown

/-!
# Catalogues

A catalogue is the messages of one locale: texts by their keys, in the order in which the keys first
arrived. This file says what can be wrong with the text of one.
-/

namespace MessageBinder

/-- Messages by their keys. -/
abbrev Catalogue := Table CodeText

/-- A catalogue as a JSON object. -/
def Catalogue.toJson (c : Catalogue) : Json := .object (c.map fun e => (e.1, .string e.2))

/-- What is wrong with the text of a catalogue. -/
inductive CatalogueFault where
  /-- A code point escape has too few hexadecimal digits. -/
  | malformedEscape (line : Nat)
  /-- The text is no JSON. -/
  | invalidJson (fault : JsonFault)
  /-- The JSON value is no object. -/
  | notObject
  /-- A value is no text. -/
  | valueNotText (key : CodeText)
deriving DecidableEq, Repr

/-- A fault with the origin of the text. -/
structure CatalogueError where
  /-- What is wrong. -/
  fault : CatalogueFault
  /-- The origin of the text. -/
  origin : String
deriving DecidableEq, Repr

/-- The wording of a fault. -/
def CatalogueError.message (e : CatalogueError) : String :=
  match e.fault with
  | .malformedEscape line =>
    e.origin ++ ":" ++ toString line ++ ": malformed \\uXXXX escape"
  | .invalidJson fault => e.origin ++ ": invalid JSON: " ++ fault.message
  | .notObject => e.origin ++ ": messages must be a JSON object"
  | .valueNotText key => e.origin ++ ": value for " ++ Text.shown key ++ " must be a string"

end MessageBinder
