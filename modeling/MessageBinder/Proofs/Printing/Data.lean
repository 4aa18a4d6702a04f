import MessageBinder.Draft.Basic
import MessageBinder.Json.Writer
import MessageBinder.Proofs.Printing.RoundTrip

/-!
# Data in a module

A literal, and an array or object of literals, is data: it can be read as a JSON value without being
run (`MessageBinder.Expr.data?`). Where the printer puts the JSON text of a value into a module as
it is, what is read back is an expression, and read as data it is the value
(`MessageBinder.Json.NumberFree.readable`): the keys and texts between double quotes are string
tokens with these values, and no brace is taken for that of a block, as none stands where a
statement can.

Numbers are left out. JSON writes negative ones, which are no literals of a module, and words for
those that are not finite, which are names there. A surrogate is written in the way in which the
printer writes one.
-/

namespace MessageBinder

/-! ### Reading data -/

/-- The value of a literal as a JSON value. -/
def LiteralValue.data : LiteralValue → Json
  | .text s => .string s
  | .integer n => .int n
  | .float x => .float x
  | .truth b => .bool b
  | .null => .null

mutual

/-- The JSON value that an expression writes, if it is made of literals alone. The entries of an
object are kept as they stand. -/
def Expr.data? : Expr → Option Json
  | .literal v _ _ => some v.data
  | .array es _ => (Expr.dataList? es).map .array
  | .object ps _ => (Property.dataList? ps).map .object
  | _ => none

/-- The JSON values that expressions write. -/
def Expr.dataList? : List Expr → Option (List Json)
  | [] => some []
  | e :: es => do return (← e.data?) :: (← Expr.dataList? es)

/-- The entry that a property writes. -/
def Property.data? : Property → Option (CodeText × Json)
  | ⟨key, value, _, _, _⟩ => do return (key, ← value.data?)

/-- The entries that properties write. -/
def Property.dataList? : List Property → Option (List (CodeText × Json))
  | [] => some []
  | p :: ps => do return (← p.data?) :: (← Property.dataList? ps)

end

theorem Expr.dataList?_eq_some {es : List Expr} {items : List Json}
    (h : es.map Expr.data? = items.map some) : Expr.dataList? es = some items := by
  induction es generalizing items with
  | nil =>
    obtain rfl := List.map_eq_nil_iff.1 h.symm
    rfl
  | cons e es ih =>
    obtain ⟨item, items, rfl, hitem, hitems⟩ := List.map_eq_cons_iff.1 h.symm
    rw [Expr.dataList?, ← hitem, ih hitems.symm]
    rfl

theorem Property.dataList?_eq_some {ps : List Property} {fields : List (CodeText × Json)}
    (h : ps.map Property.data? = fields.map some) : Property.dataList? ps = some fields := by
  induction ps generalizing fields with
  | nil =>
    obtain rfl := List.map_eq_nil_iff.1 h.symm
    rfl
  | cons p ps ih =>
    obtain ⟨field, fields, rfl, hfield, hfields⟩ := List.map_eq_cons_iff.1 h.symm
    rw [Property.dataList?, ← hfield, ih hfields.symm]
    rfl

/-! ### Writing data -/

/-- A JSON value in which there are no numbers and, with `texts`, no surrogates. -/
inductive Json.NumberFree (texts : Bool) : Json → Prop
  /-- The null value. -/
  | null : NumberFree texts .null
  /-- A truth value. -/
  | bool {b : Bool} : NumberFree texts (.bool b)
  /-- A text. -/
  | string {s : CodeText} (hs : texts → s.IsText) : NumberFree texts (.string s)
  /-- An array without numbers in its items. -/
  | array {items : List Json} (h : ∀ j ∈ items, NumberFree texts j) :
      NumberFree texts (.array items)
  /-- An object without numbers in its fields. -/
  | object {fields : List (CodeText × Json)} (hkeys : ∀ e ∈ fields, texts → e.1.IsText)
      (h : ∀ e ∈ fields, NumberFree texts e.2) : NumberFree texts (.object fields)

/-- Items of which each is an item of another kind, with a value, are items of that kind with the
values. -/
theorem Items.exists_map_eq {α β : Type} {item : β → List Token → Prop} {value : β → Option α}
    {close : TokenKind} {trailing : Bool} {xs : List α} {c : List Token}
    (h : Items (fun x c => ∃ y, item y c ∧ value y = some x) close trailing xs c) :
    ∃ ys, Items item close trailing ys c ∧ ys.map value = xs.map some := by
  induction h with
  | last hx ht =>
    obtain ⟨y, hy, hvalue⟩ := hx
    exact ⟨[y], .last hy ht, by rw [List.map_singleton, hvalue, List.map_singleton]⟩
  | trailed hx hc ht htrailing =>
    obtain ⟨y, hy, hvalue⟩ := hx
    exact ⟨[y], .trailed hy hc ht htrailing, by rw [List.map_singleton, hvalue, List.map_singleton]⟩
  | more hx hc _ ih =>
    obtain ⟨y, hy, hvalue⟩ := hx
    obtain ⟨ys, hys, hvalues⟩ := ih
    exact ⟨y :: ys, .more hy hc hys, by rw [List.map_cons, hvalue, hvalues, List.map_cons]⟩

theorem Listed.exists_map_eq {α β : Type} {item : β → List Token → Prop} {value : β → Option α}
    {close : TokenKind} {trailing : Bool} {xs : List α} {c : List Token}
    (h : Listed (fun x c => ∃ y, item y c ∧ value y = some x) close trailing xs c) :
    ∃ ys, Listed item close trailing ys c ∧ ys.map value = xs.map some := by
  rcases h with ⟨rfl, ht⟩ | h
  · exact ⟨[], Or.inl ⟨rfl, ht⟩, rfl⟩
  · obtain ⟨ys, hys, hvalues⟩ := h.exists_map_eq
    exact ⟨ys, Or.inr hys, hvalues⟩

namespace Json

/-- **A value can be read**: its text, behind a token behind which a brace is that of an object, is
read as an expression that is the value as data. -/
def Readable [CharacterNames] (j : Json) : Prop :=
  ∀ (k : TokenKind) (rest : List Char), k.leads → Lexer.Apart rest →
    Writes (some k) (j.render .unicode).written rest fun c =>
      ∃ e, Derives (.expr e) c ∧ e.data? = some j

/-- What stands in a list stands behind its bracket or behind a comma. -/
theorem Readable.writes_item [CharacterNames] {j : Json} (h : j.Readable) {k : TokenKind}
    (hk : k.leads) {last : Option TokenKind} (hlast : last = some k ∨ last = some .comma)
    {rest : List Char} (hrest : Lexer.Apart rest) :
    Writes last (j.render .unicode).written rest fun c =>
      ∃ e, Derives (.expr e) c ∧ e.data? = some j := by
  rcases hlast with rfl | rfl
  · exact h _ _ hk hrest
  · exact h _ _ rfl hrest

/-- A word of the language is read as its literal. -/
theorem readable_of_word [CharacterNames] {j : Json} {word : TokenKind} (hword : word.isWord)
    (htext : j.render .unicode = word.spelling)
    (hderives : ∀ t : Token, t.kind = word → ∃ e, Derives (.expr e) [t] ∧ e.data? = some j) :
    j.Readable := by
  intro k rest hk hrest
  rw [htext, CodeText.written_ofString]
  exact .lexeme (Lexer.front_word hword hrest) (TokenKind.isNeutral_of_isWord hword)
    (fun _ => (Phrase.standsBehind_of_leads hk default).1) fun t ht _ => hderives t ht

theorem readable_null [CharacterNames] : Json.null.Readable := by
  have htext : Json.null.render .unicode = TokenKind.nullWord.spelling := by
    simp only [render, TokenKind.spelling]
  exact readable_of_word rfl htext fun t ht => ⟨_, .ofPrimary (.null ht), rfl⟩

theorem readable_bool [CharacterNames] (b : Bool) : (Json.bool b).Readable := by
  have htext : (Json.bool b).render .unicode
      = (if b then TokenKind.trueWord else TokenKind.falseWord).spelling := by
    cases b <;> simp [render, TokenKind.spelling]
  exact readable_of_word (by cases b <;> rfl) htext fun t ht => ⟨_, .ofPrimary (.truth ht), rfl⟩

theorem readable_string [CharacterNames] (s : CodeText) : (Json.string s).Readable := by
  intro k rest _ _
  rw [render]
  refine .lexeme (Lexer.front_quoted s rest) rfl (fun h => by cases h) fun t ht htext => ?_
  refine ⟨_, .ofPrimary (.string ⟨ht, ?_⟩), rfl⟩
  rw [htext]
  exact StringLiteral.value?_quoted s

theorem readable_array [CharacterNames] {items : List Json} (h : ∀ j ∈ items, j.Readable) :
    (Json.array items).Readable := by
  intro k rest _ _
  have htext : ((Json.array items).render .unicode).written
      = TokenKind.leftBracket.spelling.toList ++
        ((commaSeparated (items.map (render .unicode))).written ++
          TokenKind.rightBracket.spelling.toList) := by
    simp [render_array, commaSeparated, TokenKind.spelling]
  have hitems : WritesItems (fun j c => ∃ e, Derives (.expr e) c ∧ e.data? = some j)
      (render .unicode) id items (some .leftBracket) := by
    intro j hj last rest hlast hrest
    exact ((h j hj).writes_item rfl hlast hrest).mono fun c hc => ⟨j, hc, rfl⟩
  rw [htext]
  refine (hitems.listed true rfl (by simp)).mono ?_
  rintro _ ⟨t, c, items', ht, hlisted, hsame, rfl⟩
  rw [List.map_id, List.map_id] at hsame
  subst hsame
  obtain ⟨es, hes, hdata⟩ := hlisted.exists_map_eq
  refine ⟨_, .ofPrimary (.array ht hes.exprs), ?_⟩
  rw [Expr.data?, Expr.dataList?_eq_some hdata, Option.map_some]

/-- The text of a field is read as a property. -/
theorem Readable.writes_field [CharacterNames] {key : CodeText} {j : Json} (h : j.Readable)
    {last : Option TokenKind} {rest : List Char} (hrest : Lexer.Apart rest) :
    Writes last (renderField .unicode (key, j)).written rest fun c =>
      ∃ p, Derives (.property p) c ∧ p.data? = some (key, j) := by
  have htext : (renderField .unicode (key, j)).written = (Text.quoted .unicode key).written ++
      (TokenKind.colon.spelling.toList ++ ' ' :: (j.render .unicode).written) := by
    simp [renderField, TokenKind.spelling]
  rw [htext]
  refine .token (Lexer.front_quoted key _) rfl (fun h => by cases h)
    fun t ht htext => ?_
  refine .symbol rfl rfl fun colon hcolon _ => (h _ _ rfl hrest).mono ?_
  rintro c ⟨v, hv, hdata⟩
  have hkey : StringLiteral.value? t.text = some key := by
    rw [htext]
    exact StringLiteral.value?_quoted key
  refine ⟨_, .quotedProperty ⟨ht, hkey⟩ hcolon hv, ?_⟩
  rw [Property.data?, hdata]
  rfl

theorem readable_object [CharacterNames] {fields : List (CodeText × Json)}
    (h : ∀ e ∈ fields, e.2.Readable) : (Json.object fields).Readable := by
  intro k rest hk _
  have htext : ((Json.object fields).render .unicode).written
      = TokenKind.leftBrace.spelling.toList ++
        ((commaSeparated (fields.map (renderField .unicode))).written ++
          TokenKind.rightBrace.spelling.toList) := by
    simp [render_object, commaSeparated, TokenKind.spelling]
  have hfields : WritesItems (fun x c => ∃ p, Derives (.property p) c ∧ p.data? = some x)
      (renderField .unicode) id fields (some .leftBrace) := by
    intro e he last rest _ hrest
    exact ((h e he).writes_field hrest).mono fun c hc => ⟨e, hc, rfl⟩
  have hbrace : (some k).all TokenKind.precedesBlock = false :=
    (Phrase.standsBehind_of_leads hk (.object [] default)).2 rfl
  rw [htext]
  refine (hfields.listed true rfl fun _ => hbrace).mono ?_
  rintro _ ⟨t, c, fields', ht, hlisted, hsame, rfl⟩
  rw [List.map_id, List.map_id] at hsame
  subst hsame
  obtain ⟨ps, hps, hdata⟩ := hlisted.exists_map_eq
  refine ⟨_, .ofPrimary (.object ht hps.properties), ?_⟩
  rw [Expr.data?, Property.dataList?_eq_some hdata, Option.map_some]

/-- **A value without numbers can be read.** -/
theorem NumberFree.readable [CharacterNames] {texts : Bool} {j : Json} (h : j.NumberFree texts) :
    j.Readable := by
  induction h with
  | null => exact readable_null
  | bool => exact readable_bool _
  | string => exact readable_string _
  | array _ ih => exact readable_array ih
  | object _ _ ih => exact readable_object ih

/-! ### Values without surrogates -/

section

variable {repertoire : Text.Repertoire}

theorem isText_render_null : (Json.null.render repertoire).IsText := by
  rw [render]
  exact CodeText.isText_ofString _

theorem isText_render_bool (b : Bool) : ((Json.bool b).render repertoire).IsText := by
  rw [render]
  cases b <;> exact CodeText.isText_ofString _

theorem isText_render_string {s : CodeText} (hs : s.IsText) :
    ((Json.string s).render repertoire).IsText := by
  rw [render]
  exact Text.isText_quoted_of_isText hs repertoire

theorem isText_render_array {items : List Json} (h : ∀ j ∈ items, (j.render repertoire).IsText) :
    ((Json.array items).render repertoire).IsText := by
  rw [render_array]
  have hitems := isText_commaSeparated (List.forall_mem_map.2 h)
  simpa [commaSeparated] using hitems

theorem isText_render_object {fields : List (CodeText × Json)} (hkeys : ∀ e ∈ fields, e.1.IsText)
    (h : ∀ e ∈ fields, (e.2.render repertoire).IsText) :
    ((Json.object fields).render repertoire).IsText := by
  have hfield : ∀ e ∈ fields, (renderField repertoire e).IsText := fun e he => by
    simpa [renderField] using ⟨Text.isText_quoted_of_isText (hkeys e he) repertoire, h e he⟩
  have hfields := isText_commaSeparated (List.forall_mem_map.2 hfield)
  rw [render_object]
  simpa [commaSeparated] using hfields

end

/-- **A value without surrogates** is written as a text of characters. -/
theorem NumberFree.isText_render {j : Json} (h : j.NumberFree true) :
    (j.render .unicode).IsText := by
  induction h with
  | null => exact isText_render_null
  | bool => exact isText_render_bool _
  | string hs => exact isText_render_string (hs rfl)
  | array _ ih => exact isText_render_array ih
  | object hkeys _ ih => exact isText_render_object (fun e he => hkeys e he rfl) ih

end Json

/-! ### Constants that hold data -/

/-- A constant of a name and nothing else, whose value is data. -/
def Stmt.HoldsData (name : String) (j : Json) (s : Stmt) : Prop :=
  ∃ id e o o', s = .declaration (.variables .const [⟨id, some e, o⟩] o') ∧ id.name = name ∧
    e.data? = some j

/-- **The constant that holds the messages** is read as a constant that holds them as data. -/
theorem writes_messagesConstant [CharacterNames] {name : String} (hname : IsBindingName name)
    {j : Json} (hj : j.Readable) (id : Nat) {last : Option TokenKind} {rest : List Char}
    (hlast : last.all TokenKind.precedesBlock) :
    Writes last ((Stmt.messagesConstant name (j.render .unicode) id).text 0).written rest fun c =>
      ∃ s, Derives (.stmt s) c ∧ s.HoldsData name j := by
  have htext : ((Stmt.messagesConstant name (j.render .unicode) id).text 0).written
      = TokenKind.constWord.spelling.toList ++ (' ' :: (name.toList ++
        (' ' :: (TokenKind.assign.spelling.toList ++
          ' ' :: ((j.render .unicode).written ++ [';']))))) := by
    simp [Stmt.messagesConstant, Stmt.constant, Stmt.addedId, Stmt.text, Declaration.text,
      Declarator.texts, Declarator.text, Expr.text, VariableKind.word, commaSeparated,
      TokenKind.spelling]
  rw [htext]
  refine .word rfl (ne_dot_of_precedesBlock hlast) (Lexer.apart_blank _) fun t ht => .blank ?_
  refine writes_name_append hname.1 (by decide) (Lexer.apart_blank _) fun t' ht' htext' => .blank ?_
  refine .symbol rfl rfl fun assign hassign _ => ?_
  refine (hj _ _ rfl (Lexer.apart_cons rfl rfl (by decide) _)).append ?_
  rintro c ⟨e, he, hdata⟩
  refine .semicolon fun fin hfin => ?_
  have hkind : t.kind.variableKind? = some .const := by
    rw [ht]
    rfl
  exact ⟨_, .declaration (.variableDecl hkind hfin
    (.lastDeclarator (.declaratorInit (ht' ▸ hname.2) hassign he))), _, e, _, _, rfl, htext', hdata⟩

end MessageBinder
