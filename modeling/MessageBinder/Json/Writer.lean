import MessageBinder.Decimal
import MessageBinder.Json.Basic
import MessageBinder.Text.Quoted

/-!
# Writing JSON

Values are written on one line, with a space after each comma and colon. The repertoire of the
quoted texts decides whether the output stays within ASCII.
-/

namespace MessageBinder.Json

/-- The words for the numbers that are not finite. -/
def numberWords : NonFinite := ⟨"NaN", "Infinity", "-Infinity"⟩

mutual

/-- The written form of a value. -/
def render (repertoire : Text.Repertoire) : Json → CodeText
  | .null => "null"
  | .bool b => if b then "true" else "false"
  | .int n => toString n
  | .float x => floatText numberWords x
  | .string s => Text.quoted repertoire s
  | .array items => "[" ++ CodeText.intercalate ", " (renderItems repertoire items) ++ "]"
  | .object fields =>
    "\x7b" ++ CodeText.intercalate ", " (renderFields repertoire fields) ++ "\x7d"

/-- The written forms of the items of an array. -/
def renderItems (repertoire : Text.Repertoire) : List Json → List CodeText
  | [] => []
  | item :: items => item.render repertoire :: renderItems repertoire items

/-- The written forms of the fields of an object. -/
def renderFields (repertoire : Text.Repertoire) : List (CodeText × Json) → List CodeText
  | [] => []
  | (key, value) :: fields =>
    (Text.quoted repertoire key ++ ": " ++ value.render repertoire) ::
      renderFields repertoire fields

end

/-! ### Items and fields one by one -/

theorem renderItems_eq_map (repertoire : Text.Repertoire) (items : List Json) :
    renderItems repertoire items = items.map (render repertoire) := by
  induction items with
  | nil => rw [renderItems, List.map_nil]
  | cons item items ih => rw [renderItems, ih, List.map_cons]

theorem render_array (repertoire : Text.Repertoire) (items : List Json) :
    (array items).render repertoire
      = "[" ++ CodeText.intercalate ", " (items.map (render repertoire)) ++ "]" := by
  rw [render, renderItems_eq_map]

/-- The written form of a field of an object. -/
def renderField (repertoire : Text.Repertoire) (e : CodeText × Json) : CodeText :=
  Text.quoted repertoire e.1 ++ ": " ++ e.2.render repertoire

theorem renderFields_eq_map (repertoire : Text.Repertoire) (fields : List (CodeText × Json)) :
    renderFields repertoire fields = fields.map (renderField repertoire) := by
  induction fields with
  | nil => rw [renderFields, List.map_nil]
  | cons e fields ih => rw [renderFields, ih, List.map_cons, renderField]

theorem render_object (repertoire : Text.Repertoire) (fields : List (CodeText × Json)) :
    (object fields).render repertoire
      = "\x7b" ++ CodeText.intercalate ", " (fields.map (renderField repertoire)) ++ "\x7d" := by
  rw [render, renderFields_eq_map]

end MessageBinder.Json
