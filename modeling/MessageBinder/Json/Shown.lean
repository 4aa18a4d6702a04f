import MessageBinder.Decimal
import MessageBinder.Json.Basic
import MessageBinder.Text.Shown

/-!
# JSON values as plain text

A value that stands where a text is wanted is taken by its plain text: a text by itself, anything
else by a form in which the texts inside are shown between single quotes.
-/

namespace MessageBinder.Json

/-- The words for the numbers that are not finite, in plain text. -/
def plainWords : NonFinite := ⟨"nan", "inf", "-inf"⟩

mutual

/-- The form of a value inside another one. -/
def shown : Json → String
  | .null => "None"
  | .bool b => if b then "True" else "False"
  | .int n => toString n
  | .float x => floatText plainWords x
  | .string s => Text.shown s
  | .array items => "[" ++ ", ".intercalate (shownItems items) ++ "]"
  | .object fields => "\x7b" ++ ", ".intercalate (shownFields fields) ++ "\x7d"

/-- The forms of the items of an array. -/
def shownItems : List Json → List String
  | [] => []
  | item :: items => item.shown :: shownItems items

/-- The forms of the fields of an object. -/
def shownFields : List (CodeText × Json) → List String
  | [] => []
  | (key, value) :: fields => (Text.shown key ++ ": " ++ value.shown) :: shownFields fields

end

/-- The plain text of a value. -/
def plain : Json → CodeText
  | .string s => s
  | j => j.shown

end MessageBinder.Json
