import MessageBinder.Proofs.Grammar.Numbering

/-!
# Parts and the tokens that write them

A tree is taken apart into all that has a place of its own, identifiers and the specifiers of
imports and exports among it, in the order of a walk that goes from the first child to the last
(`MessageBinder.Module.parts`). What a part is written by is said with the rules of the grammar
(`MessageBinder.Part.Spelled`): expressions, properties, variables, declarations, blocks and
statements by what derives them, names and specifiers by tokens of their own. The block that stands
for a branch without a statement has the terminator there.

Every part but one kind stands at its first token (`MessageBinder.Part.Spelled.first`). The
specifier that takes all exports of a module as one value is the exception: it is written from its
star on and stands at the name that it binds (`MessageBinder.Part.Spelled.last_of_isNamespace`).
-/

namespace MessageBinder

/-! ### The parts of a tree -/

/-- The origin of a specifier. -/
def ImportSpecifier.origin : ImportSpecifier → Origin
  | named _ _ o | default _ o | all _ o => o

/-- A part of a tree that has a place. A statement that is a declaration or a block is one part with
it. -/
inductive Part where
  | identifier (id : Identifier)
  /-- An expression other than the use of a name. -/
  | expr (e : Expr)
  | property (p : Property)
  | importSpecifier (s : ImportSpecifier)
  | exportSpecifier (s : ExportSpecifier)
  | declarator (d : Declarator)
  | block (b : Block)
  | declaration (d : Declaration)
  | stmt (s : Stmt)

namespace Part

/-- The place that a part carries. -/
def origin : Part → Origin
  | identifier id => id.origin
  | expr e => e.origin
  | property p => p.origin
  | importSpecifier s => s.origin
  | exportSpecifier s => s.origin
  | declarator d => d.origin
  | block b => b.origin
  | declaration d => d.origin
  | stmt s => s.origin

/-- The part as an identifier, if it is one. -/
@[simp] def identifier? : Part → Option Identifier
  | identifier id => some id
  | _ => none

/-- Whether a part takes all exports of a module as one value. -/
def isNamespace : Part → Bool
  | importSpecifier (.all ..) => true
  | _ => false

end Part

/-- The parts of an import specifier. -/
def ImportSpecifier.parts (s : ImportSpecifier) : List Part :=
  [.importSpecifier s, .identifier s.binding]

/-- The parts of an export specifier. -/
def ExportSpecifier.parts (s : ExportSpecifier) : List Part :=
  [.exportSpecifier s, .identifier s.source]

mutual

/-- The parts of an expression in order. -/
def Expr.parts : Expr → List Part
  | .name id => [.identifier id]
  | .literal value raw o => [.expr (.literal value raw o)]
  | .verbatim text o => [.expr (.verbatim text o)]
  | .array es o => .expr (.array es o) :: Expr.partsList es
  | .object ps o => .expr (.object ps o) :: Property.partsList ps
  | .member e p o => .expr (.member e p o) :: e.parts
  | .index e i o => .expr (.index e i o) :: (e.parts ++ i.parts)
  | .call f as o => .expr (.call f as o) :: (f.parts ++ Expr.partsList as)
  | .unary op e o => .expr (.unary op e o) :: e.parts
  | .binary op l r o => .expr (.binary op l r o) :: (l.parts ++ r.parts)
  | .conditional t c a o => .expr (.conditional t c a o) :: (t.parts ++ (c.parts ++ a.parts))
  | .assign op t v o => .expr (.assign op t v o) :: (t.parts ++ v.parts)
  | .group e o => .expr (.group e o) :: e.parts
  | .arrow ids e o => .expr (.arrow ids e o) :: (ids.map .identifier ++ e.parts)
  | .arrowBlock ids b o => .expr (.arrowBlock ids b o) :: (ids.map .identifier ++ b.parts)

/-- The parts of expressions in order. -/
def Expr.partsList : List Expr → List Part
  | [] => []
  | e :: es => e.parts ++ Expr.partsList es

/-- The parts of a property in order. -/
def Property.parts : Property → List Part
  | ⟨key, value, shorthand, quoted, o⟩ =>
    .property ⟨key, value, shorthand, quoted, o⟩ :: value.parts

/-- The parts of properties in order. -/
def Property.partsList : List Property → List Part
  | [] => []
  | p :: ps => p.parts ++ Property.partsList ps

/-- The parts of a variable in order. -/
def Declarator.parts : Declarator → List Part
  | ⟨id, none, o⟩ => [.declarator ⟨id, none, o⟩, .identifier id]
  | ⟨id, some e, o⟩ => .declarator ⟨id, some e, o⟩ :: .identifier id :: e.parts

/-- The parts of variables in order. -/
def Declarator.partsList : List Declarator → List Part
  | [] => []
  | d :: ds => d.parts ++ Declarator.partsList ds

/-- The parts of a block in order. -/
def Block.parts : Block → List Part
  | ⟨body, o⟩ => .block ⟨body, o⟩ :: Stmt.partsList body

/-- The parts of a declaration in order. -/
def Declaration.parts : Declaration → List Part
  | .variables kind ds o => .declaration (.variables kind ds o) :: Declarator.partsList ds
  | .function f ids b o =>
    .declaration (.function f ids b o) :: .identifier f :: (ids.map .identifier ++ b.parts)

/-- The parts of a statement in order. -/
def Stmt.parts : Stmt → List Part
  | .importDecl ss source o => .stmt (.importDecl ss source o) :: ss.flatMap ImportSpecifier.parts
  | .exportNamed ss source o => .stmt (.exportNamed ss source o) :: ss.flatMap ExportSpecifier.parts
  | .exportAll source o => [.stmt (.exportAll source o)]
  | .exportDecl d o => .stmt (.exportDecl d o) :: d.parts
  | .exportDefault e o => .stmt (.exportDefault e o) :: e.parts
  | .declaration d => d.parts
  | .block b => b.parts
  | .returnValue none o => [.stmt (.returnValue none o)]
  | .returnValue (some e) o => .stmt (.returnValue (some e) o) :: e.parts
  | .ifThen t c none o => .stmt (.ifThen t c none o) :: (t.parts ++ c.parts)
  | .ifThen t c (some a) o => .stmt (.ifThen t c (some a) o) :: (t.parts ++ (c.parts ++ a.parts))
  | .expr e o => .stmt (.expr e o) :: e.parts

/-- The parts of statements in order. -/
def Stmt.partsList : List Stmt → List Part
  | [] => []
  | s :: ss => s.parts ++ Stmt.partsList ss

end

/-- The parts of a module in order, without the module itself. -/
def Module.parts (m : Module) : List Part := Stmt.partsList m.body

/-! ### The identifiers among the parts -/

namespace Part

/-- The identifiers among parts. -/
def identifiers (ns : List Part) : List Identifier := ns.filterMap identifier?

@[simp] theorem identifiers_nil : identifiers [] = [] := rfl

@[simp] theorem identifiers_cons (n : Part) (ns : List Part) :
    identifiers (n :: ns) = n.identifier?.toList ++ identifiers ns := by
  rw [identifiers, List.filterMap_cons]
  cases n <;> rfl

@[simp] theorem identifiers_append (ns ns' : List Part) :
    identifiers (ns ++ ns') = identifiers ns ++ identifiers ns' :=
  List.filterMap_append

@[simp] theorem identifiers_map (ids : List Identifier) :
    identifiers (ids.map identifier) = ids := by
  rw [identifiers, List.filterMap_map]
  exact List.filterMap_some

/-- The identifiers of a list of specifiers, where each has one. -/
theorem identifiers_flatMap {α : Type} {f : α → List Part} {g : α → Identifier}
    (h : ∀ x, identifiers (f x) = [g x]) (xs : List α) :
    identifiers (xs.flatMap f) = xs.map g := by
  induction xs with
  | nil => rfl
  | cons x xs ih => rw [List.flatMap_cons, identifiers_append, h, ih]; rfl

end Part

mutual

theorem Expr.identifiers_parts (e : Expr) :
    Part.identifiers e.parts = e.identifiers := by
  match e with
  | .name _ | .literal .. | .verbatim .. => rfl
  | .array es _ => exact Expr.identifiers_partsList es
  | .object ps _ => exact Property.identifiers_partsList ps
  | .member e _ _ | .unary _ e _ | .group e _ => exact e.identifiers_parts
  | .index l r _ | .binary _ l r _ | .assign _ l r _ =>
    simp [Expr.parts, Expr.identifiers, l.identifiers_parts, r.identifiers_parts]
  | .call f as _ =>
    simp [Expr.parts, Expr.identifiers, f.identifiers_parts,
      Expr.identifiers_partsList as]
  | .conditional t c a _ =>
    simp [Expr.parts, Expr.identifiers, t.identifiers_parts, c.identifiers_parts,
      a.identifiers_parts]
  | .arrow _ e _ => simp [Expr.parts, Expr.identifiers, e.identifiers_parts]
  | .arrowBlock _ b _ => simp [Expr.parts, Expr.identifiers, b.identifiers_parts]

theorem Expr.identifiers_partsList (es : List Expr) :
    Part.identifiers (Expr.partsList es) = Expr.identifiersList es := by
  match es with
  | [] => rfl
  | e :: es =>
    simp [Expr.partsList, Expr.identifiersList, e.identifiers_parts, Expr.identifiers_partsList es]

theorem Property.identifiers_partsList (ps : List Property) :
    Part.identifiers (Property.partsList ps) = Property.identifiersList ps := by
  match ps with
  | [] => rfl
  | ⟨_, v, _, _, _⟩ :: ps =>
    simp [Property.partsList, Property.parts, Property.identifiersList,
      v.identifiers_parts, Property.identifiers_partsList ps]

theorem Declarator.identifiers_partsList (ds : List Declarator) :
    Part.identifiers (Declarator.partsList ds) = Declarator.identifiersList ds := by
  match ds with
  | [] => rfl
  | ⟨_, none, _⟩ :: ds =>
    simp [Declarator.partsList, Declarator.parts, Declarator.identifiersList,
      Declarator.identifiers_partsList ds]
  | ⟨_, some e, _⟩ :: ds =>
    simp [Declarator.partsList, Declarator.parts, Declarator.identifiersList,
      e.identifiers_parts, Declarator.identifiers_partsList ds]

theorem Block.identifiers_parts (b : Block) :
    Part.identifiers b.parts = b.identifiers := by
  match b with
  | ⟨body, _⟩ => exact Stmt.identifiers_partsList body

theorem Declaration.identifiers_parts (d : Declaration) :
    Part.identifiers d.parts = d.identifiers := by
  match d with
  | .variables _ ds _ => exact Declarator.identifiers_partsList ds
  | .function _ _ b _ =>
    simp [Declaration.parts, Declaration.identifiers, b.identifiers_parts]

theorem Stmt.identifiers_parts (s : Stmt) :
    Part.identifiers s.parts = s.identifiers := by
  match s with
  | .importDecl ss _ _ =>
    exact Part.identifiers_flatMap (g := ImportSpecifier.binding) (fun _ => rfl) ss
  | .exportNamed ss _ _ =>
    exact Part.identifiers_flatMap (g := ExportSpecifier.source) (fun _ => rfl) ss
  | .exportAll .. | .returnValue none _ => rfl
  | .exportDecl d _ | .declaration d => exact d.identifiers_parts
  | .exportDefault e _ | .returnValue (some e) _ | .expr e _ => exact e.identifiers_parts
  | .block b => exact b.identifiers_parts
  | .ifThen t c none _ =>
    simp [Stmt.parts, Stmt.identifiers, t.identifiers_parts, c.identifiers_parts]
  | .ifThen t c (some a) _ =>
    simp [Stmt.parts, Stmt.identifiers, t.identifiers_parts, c.identifiers_parts,
      a.identifiers_parts]

theorem Stmt.identifiers_partsList (ss : List Stmt) :
    Part.identifiers (Stmt.partsList ss) = Stmt.identifiersList ss := by
  match ss with
  | [] => rfl
  | s :: ss =>
    simp [Stmt.partsList, Stmt.identifiersList, s.identifiers_parts, Stmt.identifiers_partsList ss]

end

/-- **A walk through the parts meets the identifiers in their order.** -/
theorem Module.identifiers_parts (m : Module) :
    Part.identifiers m.parts = m.identifiers :=
  Stmt.identifiers_partsList m.body

theorem Module.mem_parts_of_mem_identifiers {m : Module} {id : Identifier}
    (h : id ∈ m.identifiers) : .identifier id ∈ m.parts := by
  rw [← m.identifiers_parts] at h
  obtain ⟨n, hn, hid⟩ := List.mem_filterMap.1 h
  cases n <;> cases hid
  exact hn

/-! ### What writes a part -/

/-- The part of the tree of a phrase, if the phrase is one of a single part. -/
def Phrase.part? : Phrase → Option Part
  | expr e | choice e | operation _ e | operand e | suffixed e | primary e => some (.expr e)
  | property p => some (.property p)
  | block b => some (.block b)
  | declarator d => some (.declarator d)
  | declaration d => some (.declaration d)
  | stmt s => some (.stmt s)
  | _ => none

/-- **The tokens that write a part**, where `Lone` says which terminators are a branch alone. -/
inductive Part.Spelled [CharacterNames] (Lone : Token → Prop) : Part → List Token → Prop
  /-- A phrase is written by what derives it. -/
  | phrase {p : Phrase} {n : Part} {c : List Token} (hp : p.part? = some n) (h : Derives p c) :
      Spelled Lone n c
  /-- A branch without a statement. -/
  | lone {t : Token} (ht : t.kind = .terminator) (h : Lone t) :
      Spelled Lone (.block ⟨[], t.origin⟩) [t]
  /-- A name. -/
  | identifier {t : Token} (ht : t.kind.isExportName) :
      Spelled Lone (.identifier t.identifier) [t]
  /-- A name of an import list. -/
  | named {s : ImportSpecifier} {c : List Token} (h : ImportTokens s c) :
      Spelled Lone (.importSpecifier s) c
  /-- The default export. -/
  | default {t : Token} (ht : t.kind = .name) :
      Spelled Lone (.importSpecifier (.default t.identifier t.origin)) [t]
  /-- All exports as one value. -/
  | all {star as t : Token} (hstar : star.kind = .star) (has : as.kind = .asWord)
      (ht : t.kind = .name) :
      Spelled Lone (.importSpecifier (.all t.identifier t.origin)) [star, as, t]
  /-- A name of an export list. -/
  | exported {isLocal : Bool} {s : ExportSpecifier} {c : List Token}
      (h : ExportTokens isLocal s c) : Spelled Lone (.exportSpecifier s) c

theorem AliasTokens.eq_cons {admits : TokenKind → Bool} {t second : Token} {c : List Token}
    (h : AliasTokens admits t second c) : ∃ c', c = t :: c' := by
  obtain ⟨-, ⟨-, rfl⟩ | ⟨as, -, -, rfl⟩⟩ := h
  · exact ⟨[], rfl⟩
  · exact ⟨[as, second], rfl⟩

namespace Part.Spelled

variable {Lone : Token → Prop} {n : Part} {c : List Token}

/-- A phrase of one part starts where the part stands. -/
theorem first_of_derives [CharacterNames] {p : Phrase} (hp : p.part? = some n) (h : Derives p c) :
    ∃ t c', c = t :: c' ∧ t.origin = n.origin := by
  have hphrase : ∀ {o : Origin}, p.origin? = some o → ∃ t c', c = t :: c' ∧ t.origin = o :=
    fun ho => by
      obtain ⟨t, c', hc, hto, -⟩ := h.first_token ho
      exact ⟨t, c', hc, hto⟩
  match p, hp with
  | .expr e, rfl | .choice e, rfl | .operation _ e, rfl | .operand e, rfl | .suffixed e, rfl
  | .primary e, rfl => exact hphrase rfl
  | .block b, rfl => exact hphrase rfl
  | .declaration d, rfl => exact hphrase rfl
  | .stmt s, rfl => exact hphrase rfl
  | .property p, rfl => cases h <;> exact ⟨_, _, rfl, rfl⟩
  | .declarator d, rfl => cases h <;> exact ⟨_, _, rfl, rfl⟩

/-- **Every part stands at its first token**, but for the specifier of all exports. -/
theorem first [CharacterNames] (h : n.Spelled Lone c) (hn : n.isNamespace = false) :
    ∃ t c', c = t :: c' ∧ t.origin = n.origin := by
  cases h with
  | phrase hp h => exact first_of_derives hp h
  | lone | identifier | default => exact ⟨_, [], rfl, rfl⟩
  | named h =>
    obtain ⟨t, second, halias, -, rfl⟩ := h
    obtain ⟨c', rfl⟩ := halias.eq_cons
    exact ⟨t, c', rfl, rfl⟩
  | all => cases hn
  | exported h =>
    obtain ⟨t, second, halias, -, rfl⟩ := h
    obtain ⟨c', rfl⟩ := halias.eq_cons
    exact ⟨t, c', rfl, rfl⟩

/-- **The specifier of all exports stands at the name that it binds**, the last of its tokens. -/
theorem last_of_isNamespace [CharacterNames] (h : n.Spelled Lone c) (hn : n.isNamespace) :
    ∃ star as t : Token, c = [star, as, t] ∧ star.kind = .star ∧ as.kind = .asWord ∧
      t.kind = .name ∧ t.origin = n.origin := by
  cases h with
  | @phrase p _ _ hp h =>
    match n, hn with
    | .importSpecifier (.all ..), _ => cases p <;> cases hp
  | all hstar has ht => exact ⟨_, _, _, rfl, hstar, has, ht, rfl⟩
  | named h =>
    obtain ⟨t, second, -, -, rfl⟩ := h
    cases hn
  | _ => cases hn

/-- What writes an identifier is its name. -/
theorem token_of_identifier [CharacterNames] {id : Identifier}
    (h : (Part.identifier id).Spelled Lone c) :
    ∃ t : Token, c = [t] ∧ id = t.identifier ∧ t.kind ≠ .terminator := by
  cases h with
  | @phrase p _ _ hp h => cases p <;> cases hp
  | identifier ht =>
    refine ⟨_, rfl, rfl, fun hk => ?_⟩
    rw [hk] at ht
    cases ht

end Part.Spelled

/-! ### Every part is written among the tokens of its tree -/

/-- The parts of the tree of a phrase. -/
def Phrase.parts : Phrase → List Part
  | expr e | choice e | operation _ e | operand e | suffixed e | primary e => e.parts
  | exprs _ _ es | someExprs _ _ es => Expr.partsList es
  | property p => p.parts
  | properties ps | someProperties ps => Property.partsList ps
  | block b => b.parts
  | untilBrace ss | body ss => Stmt.partsList ss
  | declarator d => d.parts
  | declarators ds => Declarator.partsList ds
  | declaration d => d.parts
  | stmt s | branch s => s.parts

/-- A part is written by some of the tokens in a row. -/
def Part.Written [CharacterNames] (Lone : Token → Prop) (ts : List Token) (n : Part) : Prop :=
  ∃ own, own <:+: ts ∧ n.Spelled Lone own

/-- `Lone` holds of **the terminators that are a branch alone**: behind the condition of a choice,
and behind `else`. -/
structure LoneBranches [CharacterNames] (Lone : Token → Prop) (ts : List Token) : Prop where
  condition {t paren close fin : Token} {e : Expr} {c : List Token} (ht : t.kind = .ifWord)
    (hparen : paren.kind = .leftParen) (h : Derives (.expr e) c) (hclose : close.kind = .rightParen)
    (hfin : fin.kind = .terminator) (hc : t :: paren :: (c ++ close :: [fin]) <:+: ts) : Lone fin
  otherwise {other fin : Token} (hother : other.kind = .elseWord) (hfin : fin.kind = .terminator)
    (hc : other :: [fin] <:+: ts) : Lone fin

/-- A branch that is a terminator alone is one of those. -/
def Phrase.LoneIn (Lone : Token → Prop) (c : List Token) : Phrase → Prop
  | branch _ => ∀ t, c = [t] → t.kind = .terminator → Lone t
  | _ => True

section Written

variable {Lone : Token → Prop} {ts a b c : List Token} {t : Token} {n : Part} {ns ns' : List Part}

theorem left_among (h : a ++ b <:+: ts) : a <:+: ts := List.infix_append_left.trans h

theorem right_among (h : a ++ b <:+: ts) : b <:+: ts := List.infix_append_right.trans h

theorem tail_among (h : t :: b <:+: ts) : b <:+: ts := right_among (a := [t]) h

theorem head_among (h : t :: b <:+: ts) : [t] <:+: ts := left_among (a := [t]) h

namespace Part

/-- A part in front of others. -/
theorem written_cons [CharacterNames] (h : n.Spelled Lone c) (hc : c <:+: ts)
    (hns : ∀ m ∈ ns, m.Written Lone ts) : ∀ m ∈ n :: ns, m.Written Lone ts :=
  List.forall_mem_cons.2 ⟨⟨c, hc, h⟩, hns⟩

theorem written_alone [CharacterNames] (h : n.Spelled Lone c) (hc : c <:+: ts) :
    ∀ m ∈ [n], m.Written Lone ts :=
  written_cons h hc nofun

theorem written_append [CharacterNames] (hns : ∀ m ∈ ns, m.Written Lone ts)
    (hns' : ∀ m ∈ ns', m.Written Lone ts) :
    ∀ m ∈ ns ++ ns', m.Written Lone ts :=
  List.forall_mem_append.2 ⟨hns, hns'⟩

theorem written_binding [CharacterNames] (ht : t.kind.isExportName) (hc : [t] <:+: ts) :
    ∀ m ∈ [identifier t.identifier], m.Written Lone ts :=
  written_alone (.identifier ht) hc

end Part

open MessageBinder.Part

theorem TokenKind.isExportName_of_isBindingName {k : TokenKind} (h : k.isBindingName) :
    k.isExportName := by
  rw [isExportName, h]
  rfl

variable {α : Type} {item : α → List Token → Prop} {close : TokenKind} {trailing : Bool}
  {xs : List α} {f : α → List Part}

/-- The items of a list are written in it. -/
theorem Listed.written [CharacterNames]
    (hf : ∀ x c, item x c → c <:+: ts → ∀ n ∈ f x, n.Written Lone ts)
    (h : Listed item close trailing xs c) (hc : c <:+: ts) :
    ∀ n ∈ xs.flatMap f, n.Written Lone ts := by
  rcases h with ⟨rfl, -⟩ | h
  · exact nofun
  induction h with
  | last hx | trailed hx =>
    rw [List.flatMap_cons]
    exact written_append (hf _ _ hx (left_among hc)) nofun
  | more hx _ _ ih =>
    rw [List.flatMap_cons]
    exact written_append (hf _ _ hx (left_among hc)) (ih (tail_among (right_among hc)))

theorem BindingToken.written [CharacterNames] {id : Identifier} (h : BindingToken id c)
    (hc : c <:+: ts) :
    ∀ n ∈ [identifier id], n.Written Lone ts := by
  obtain ⟨t, ht, rfl, rfl⟩ := h
  exact written_binding (TokenKind.isExportName_of_isBindingName ht) hc

theorem Listed.written_bindings [CharacterNames] {ids : List Identifier}
    (h : Listed BindingToken close trailing ids c) (hc : c <:+: ts) :
    ∀ n ∈ ids.map identifier, n.Written Lone ts := by
  rw [List.map_eq_flatMap]
  exact h.written (fun _ _ => BindingToken.written) hc

theorem ArrowParams.written [CharacterNames] {ids : List Identifier} (h : ArrowParams ids c)
    (hc : c <:+: ts) :
    ∀ n ∈ ids.map identifier, n.Written Lone ts := by
  cases h with
  | name h => exact h.written hc
  | group _ h => exact h.written_bindings (tail_among hc)

/-- The first and the last name with an alias or without. -/
theorem AliasTokens.among {admits : TokenKind → Bool} {second : Token}
    (h : AliasTokens admits t second c) (hc : c <:+: ts) : [t] <:+: ts ∧ [second] <:+: ts := by
  obtain ⟨-, ⟨rfl, rfl⟩ | ⟨as, -, -, rfl⟩⟩ := h
  · exact ⟨hc, hc⟩
  · exact ⟨head_among hc, tail_among (tail_among hc)⟩

theorem ImportTokens.written [CharacterNames] (s : ImportSpecifier) (c : List Token)
    (h : ImportTokens s c) (hc : c <:+: ts) : ∀ n ∈ s.parts, n.Written Lone ts := by
  have hspelled : (importSpecifier s).Spelled Lone c := .named h
  obtain ⟨t, second, halias, -, rfl⟩ := h
  have hsecond : second.kind.isExportName := by
    obtain ⟨ht, ⟨rfl, -⟩ | ⟨-, -, hsecond, -⟩⟩ := halias
    · exact ht
    · exact TokenKind.isExportName_of_isBindingName hsecond
  exact written_cons hspelled hc (written_binding hsecond (halias.among hc).2)

theorem ExportTokens.written [CharacterNames] {isLocal : Bool} (s : ExportSpecifier)
    (c : List Token) (h : ExportTokens isLocal s c) (hc : c <:+: ts) :
    ∀ n ∈ s.parts, n.Written Lone ts := by
  have hspelled : (exportSpecifier s).Spelled Lone c := .exported h
  obtain ⟨t, second, halias, -, rfl⟩ := h
  exact written_cons hspelled hc (written_binding halias.1 (halias.among hc).1)

theorem ImportSpecifier.written_default [CharacterNames] (ht : t.kind = .name) (hc : [t] <:+: ts) :
    ∀ n ∈ ImportSpecifier.parts (.default t.identifier t.origin), n.Written Lone ts :=
  written_cons (.default ht) hc (written_binding (by rw [ht]; rfl) hc)

theorem ImportRest.written [CharacterNames] {ss : List ImportSpecifier} (h : ImportRest ss c)
    (hc : c <:+: ts) :
    ∀ n ∈ ss.flatMap ImportSpecifier.parts, n.Written Lone ts := by
  cases h with
  | all hstar has ht =>
    exact written_cons (.all hstar has ht) hc
      (written_binding (by rw [ht]; rfl) (tail_among (tail_among hc)))
  | list _ h => exact h.written ImportTokens.written (tail_among hc)

theorem ImportClause.written [CharacterNames] {ss : List ImportSpecifier} (h : ImportClause ss c)
    (hc : c <:+: ts) :
    ∀ n ∈ ss.flatMap ImportSpecifier.parts, n.Written Lone ts := by
  cases h with
  | default ht => exact ImportSpecifier.written_default ht hc
  | both ht _ h =>
    rw [List.flatMap_cons]
    exact written_append (ImportSpecifier.written_default ht (head_among hc))
      (h.written (tail_among (tail_among hc)))
  | rest h => exact h.written hc

/-- **Every part of a tree is written by tokens in a row** among those of its phrase. -/
theorem Derives.written [CharacterNames] (hts : LoneBranches Lone ts) {p : Phrase} (h : Derives p c)
    (hc : c <:+: ts) (hlone : p.LoneIn Lone c) :
    ∀ n ∈ p.parts, n.Written Lone ts := by
  -- the tokens of a part are a part of the tokens, so its place in the text is handed on
  induction h with
  | exprChoice _ ih | choiceOperation _ ih | operationOperand _ ih | operationTighter _ ih
  | operandSuffixed _ ih | suffixedPrimary _ ih | exprsSome _ ih | propertiesSome _ ih
  | declaration _ ih | blockStatement _ ih | branchStmt _ ih =>
    exact ih hc trivial
  | arrow hids hfirst ht h ih =>
    exact written_cons (.phrase rfl (.arrow hids hfirst ht h)) hc
      (written_append (hids.written (left_among hc))
        (ih (tail_among (right_among hc)) trivial))
  | arrowBlock hids hfirst ht h ih =>
    exact written_cons (.phrase rfl (.arrowBlock hids hfirst ht h)) hc
      (written_append (hids.written (left_among hc))
        (ih (tail_among (right_among hc)) trivial))
  | assign hop htarget h h' ih ih' =>
    exact written_cons (.phrase rfl (.assign hop htarget h h')) hc
      (written_append (ih (left_among hc) trivial)
        (ih' (tail_among (right_among hc)) trivial))
  | conditional hquestion hcolon ht hco ha iht ihc iha =>
    have hrest := tail_among (right_among hc)
    exact written_cons (.phrase rfl (.conditional hquestion hcolon ht hco ha)) hc
      (written_append (iht (left_among hc) trivial)
        (written_append (ihc (left_among hrest) trivial)
          (iha (tail_among (right_among hrest)) trivial)))
  | binary hop h h' ih ih' =>
    exact written_cons (.phrase rfl (.binary hop h h')) hc
      (written_append (ih (left_among hc) trivial)
        (ih' (tail_among (right_among hc)) trivial))
  | unary hop h ih =>
    exact written_cons (.phrase rfl (.unary hop h)) hc (ih (tail_among hc) trivial)
  | member hdot ht h ih =>
    exact written_cons (.phrase rfl (.member hdot ht h)) hc (ih (left_among hc) trivial)
  | index ht ht' h h' ih ih' =>
    exact written_cons (.phrase rfl (.index ht ht' h h')) hc
      (written_append (ih (left_among hc) trivial)
        (ih' (left_among (tail_among (right_among hc))) trivial))
  | call ht h h' ih ih' =>
    exact written_cons (.phrase rfl (.call ht h h')) hc
      (written_append (ih (left_among hc) trivial)
        (ih' (tail_among (right_among hc)) trivial))
  | string ht => exact written_alone (.phrase rfl (.string ht)) hc
  | number ht => exact written_alone (.phrase rfl (.number ht)) hc
  | truth ht => exact written_alone (.phrase rfl (.truth ht)) hc
  | null ht => exact written_alone (.phrase rfl (.null ht)) hc
  | name ht => exact written_binding (TokenKind.isExportName_of_isBindingName ht) hc
  | array ht h ih =>
    exact written_cons (.phrase rfl (.array ht h)) hc (ih (tail_among hc) trivial)
  | object ht h ih =>
    exact written_cons (.phrase rfl (.object ht h)) hc (ih (tail_among hc) trivial)
  | group ht ht' h ih =>
    exact written_cons (.phrase rfl (.group ht ht' h)) hc
      (ih (left_among (tail_among hc)) trivial)
  | noExprs | noProperties | brace | noStmts => exact nofun
  | lastDeclarator _ ih => exact written_append (ih hc trivial) nofun
  | lastExpr _ _ ih | trailedExpr _ _ _ ih | lastProperty _ _ ih | trailedProperty _ _ _ ih =>
    exact written_append (ih (left_among hc) trivial) nofun
  | moreExprs _ _ _ ih ih' | moreProperties _ _ _ ih ih' | moreDeclarators _ _ _ ih ih' =>
    exact written_append (ih (left_among hc) trivial)
      (ih' (tail_among (right_among hc)) trivial)
  | quotedProperty ht hcolon h ih =>
    exact written_cons (.phrase rfl (.quotedProperty ht hcolon h)) hc
      (ih (tail_among (tail_among hc)) trivial)
  | property ht hcolon h ih =>
    exact written_cons (.phrase rfl (.property ht hcolon h)) hc
      (ih (tail_among (tail_among hc)) trivial)
  | shortProperty ht =>
    exact written_cons (.phrase rfl (.shortProperty ht)) hc
      (written_binding (TokenKind.isExportName_of_isBindingName ht) hc)
  | block ht h ih =>
    exact written_cons (.phrase rfl (.block ht h)) hc (ih (tail_among hc) trivial)
  | blockNothing _ _ ih | nothing _ _ ih => exact ih (tail_among hc) trivial
  | blockStmt _ _ ih ih' | stmts _ _ ih ih' =>
    exact written_append (ih (left_among hc) trivial) (ih' (right_among hc) trivial)
  | declarator ht =>
    exact written_cons (.phrase rfl (.declarator ht)) hc
      (written_binding (TokenKind.isExportName_of_isBindingName ht) hc)
  | declaratorInit ht hassign h ih =>
    exact written_cons (.phrase rfl (.declaratorInit ht hassign h)) hc
      (written_cons (.identifier (TokenKind.isExportName_of_isBindingName ht)) (head_among hc)
        (ih (tail_among (tail_among hc)) trivial))
  | variableDecl ht hfin h ih =>
    exact written_cons (.phrase rfl (.variableDecl ht hfin h)) hc
      (ih (left_among (tail_among hc)) trivial)
  | functionDecl ht hf hparen hids h ih =>
    have hparams := tail_among (tail_among (tail_among hc))
    exact written_cons (.phrase rfl (.functionDecl ht hf hparen hids h)) hc
      (written_cons (.identifier (TokenKind.isExportName_of_isBindingName hf))
        (head_among (tail_among hc))
        (written_append (hids.written_bindings (left_among hparams))
          (ih (right_among hparams) trivial)))
  | importBare ht hsource hfin =>
    exact written_alone (.phrase rfl (.importBare ht hsource hfin)) hc
  | importNames ht hclause hfrom hsource hfin =>
    exact written_cons (.phrase rfl (.importNames ht hclause hfrom hsource hfin)) hc
      (hclause.written (left_among (tail_among hc)))
  | exportLocal ht hbrace hss hfin =>
    exact written_cons (.phrase rfl (.exportLocal ht hbrace hss hfin)) hc
      (hss.written ExportTokens.written (left_among (tail_among (tail_among hc))))
  | exportFrom ht hbrace hss hfrom hsource hfin =>
    exact written_cons (.phrase rfl (.exportFrom ht hbrace hss hfrom hsource hfin)) hc
      (hss.written ExportTokens.written (left_among (tail_among (tail_among hc))))
  | exportAll ht hstar hfrom hsource hfin =>
    exact written_alone (.phrase rfl (.exportAll ht hstar hfrom hsource hfin)) hc
  | exportDecl ht h ih =>
    exact written_cons (.phrase rfl (.exportDecl ht h)) hc (ih (tail_among hc) trivial)
  | exportDefault ht hdefault hfin h ih =>
    exact written_cons (.phrase rfl (.exportDefault ht hdefault hfin h)) hc
      (ih (left_among (tail_among (tail_among hc))) trivial)
  | returnNothing ht hfin => exact written_alone (.phrase rfl (.returnNothing ht hfin)) hc
  | returnValue ht hfin h ih =>
    exact written_cons (.phrase rfl (.returnValue ht hfin h)) hc
      (ih (left_among (tail_among hc)) trivial)
  | ifThen ht hparen hclose h hs ih ihs =>
    have hrest := tail_among (tail_among hc)
    refine written_cons (.phrase rfl (.ifThen ht hparen hclose h hs)) hc
      (written_append (ih (left_among hrest) trivial)
        (ihs (tail_among (right_among hrest)) ?_))
    rintro fin rfl hfin
    exact hts.condition ht hparen h hclose hfin hc
  | @ifElse e s a c cs ca t paren close other ht hparen hclose hother hopen h hs ha ih ihs iha =>
    have hrest := tail_among (tail_among hc)
    have hbranches := tail_among (right_among hrest)
    have hother' := right_among hbranches
    refine written_cons (.phrase rfl (.ifElse ht hparen hclose hother hopen h hs ha)) hc
      (written_append (ih (left_among hrest) trivial)
        (written_append (ihs (left_among hbranches) ?_) (iha (tail_among hother') ?_)))
    · rintro fin rfl hfin
      have hshape : t :: paren :: (c ++ close :: ([fin] ++ other :: ca))
          = (t :: paren :: (c ++ close :: [fin])) ++ other :: ca := by simp
      exact hts.condition ht hparen h hclose hfin (left_among (hshape ▸ hc))
    · rintro fin rfl hfin
      exact hts.otherwise hother hfin hother'
  | exprStatement hfin h ih =>
    exact written_cons (.phrase rfl (.exprStatement hfin h)) hc (ih (left_among hc) trivial)
  | branchNothing ht => exact written_alone (.lone ht (hlone _ rfl ht)) hc

end Written

end MessageBinder
