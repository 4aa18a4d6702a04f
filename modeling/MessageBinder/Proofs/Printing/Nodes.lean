import MessageBinder.Proofs.Printing.Writing

/-!
# The nodes of a tree and its strings

A property of a whole tree is often one of its nodes (`MessageBinder.Expr.nodes`), each looked at
alone. Here it is that no string holds a surrogate: neither a literal, nor a key between quotes, nor
the name of a module. A tree of which this is true, and which can be printed, is printed as a text
of characters (`MessageBinder.Printable.isText_text`), as everything else that the printer writes is
one.
-/

namespace MessageBinder

/-! ### Nodes -/

/-- A node of a tree. -/
inductive Node where
  /-- An expression. -/
  | expr (e : Expr)
  /-- A property of an object. -/
  | property (p : Property)
  /-- A variable of a declaration. -/
  | declarator (d : Declarator)
  /-- A declaration. -/
  | declaration (d : Declaration)
  /-- A statement. -/
  | stmt (s : Stmt)

mutual

/-- The nodes of an expression. -/
def Expr.nodes : Expr → List Node
  | .name id => [.expr (.name id)]
  | .literal v raw o => [.expr (.literal v raw o)]
  | .verbatim text o => [.expr (.verbatim text o)]
  | .array es o => .expr (.array es o) :: Expr.nodesList es
  | .object ps o => .expr (.object ps o) :: Property.nodesList ps
  | .member e p o => .expr (.member e p o) :: e.nodes
  | .index e i o => .expr (.index e i o) :: (e.nodes ++ i.nodes)
  | .call f as o => .expr (.call f as o) :: (f.nodes ++ Expr.nodesList as)
  | .unary op e o => .expr (.unary op e o) :: e.nodes
  | .binary op l r o => .expr (.binary op l r o) :: (l.nodes ++ r.nodes)
  | .conditional t c a o => .expr (.conditional t c a o) :: (t.nodes ++ (c.nodes ++ a.nodes))
  | .assign op t v o => .expr (.assign op t v o) :: (t.nodes ++ v.nodes)
  | .group e o => .expr (.group e o) :: e.nodes
  | .arrow ids e o => .expr (.arrow ids e o) :: e.nodes
  | .arrowBlock ids b o => .expr (.arrowBlock ids b o) :: b.nodes

/-- The nodes of expressions. -/
def Expr.nodesList : List Expr → List Node
  | [] => []
  | e :: es => e.nodes ++ Expr.nodesList es

/-- The nodes of a property. -/
def Property.nodes : Property → List Node
  | ⟨key, value, shorthand, quoted, o⟩ =>
    .property ⟨key, value, shorthand, quoted, o⟩ :: value.nodes

/-- The nodes of properties. -/
def Property.nodesList : List Property → List Node
  | [] => []
  | p :: ps => p.nodes ++ Property.nodesList ps

/-- The nodes of a variable. -/
def Declarator.nodes : Declarator → List Node
  | ⟨id, none, o⟩ => [.declarator ⟨id, none, o⟩]
  | ⟨id, some e, o⟩ => .declarator ⟨id, some e, o⟩ :: e.nodes

/-- The nodes of variables. -/
def Declarator.nodesList : List Declarator → List Node
  | [] => []
  | d :: ds => d.nodes ++ Declarator.nodesList ds

/-- The nodes of a block. -/
def Block.nodes : Block → List Node
  | ⟨body, _⟩ => Stmt.nodesList body

/-- The nodes of a declaration. -/
def Declaration.nodes : Declaration → List Node
  | .variables k ds o => .declaration (.variables k ds o) :: Declarator.nodesList ds
  | .function f ids b o => .declaration (.function f ids b o) :: b.nodes

/-- The nodes of a statement. -/
def Stmt.nodes : Stmt → List Node
  | .importDecl ss s o => [.stmt (.importDecl ss s o)]
  | .exportNamed ss s o => [.stmt (.exportNamed ss s o)]
  | .exportAll s o => [.stmt (.exportAll s o)]
  | .exportDecl d o => .stmt (.exportDecl d o) :: d.nodes
  | .exportDefault e o => .stmt (.exportDefault e o) :: e.nodes
  | .declaration d => .stmt (.declaration d) :: d.nodes
  | .block b => .stmt (.block b) :: b.nodes
  | .returnValue none o => [.stmt (.returnValue none o)]
  | .returnValue (some e) o => .stmt (.returnValue (some e) o) :: e.nodes
  | .ifThen t c none o => .stmt (.ifThen t c none o) :: (t.nodes ++ c.nodes)
  | .ifThen t c (some a) o => .stmt (.ifThen t c (some a) o) :: (t.nodes ++ (c.nodes ++ a.nodes))
  | .expr e o => .stmt (.expr e o) :: e.nodes

/-- The nodes of statements. -/
def Stmt.nodesList : List Stmt → List Node
  | [] => []
  | s :: ss => s.nodes ++ Stmt.nodesList ss

end

/-- The nodes of what a phrase stands for. -/
def Phrase.nodes : Phrase → List Node
  | .expr e | .choice e | .operation _ e | .operand e | .suffixed e | .primary e => e.nodes
  | .property p => p.nodes
  | .block b => b.nodes
  | .declarator d => d.nodes
  | .declaration d => d.nodes
  | .stmt s | .branch s => s.nodes
  | .exprs .. | .someExprs .. | .properties _ | .someProperties _ | .untilBrace _ | .declarators _
  | .body _ => []

/-- The nodes of a module. -/
def Module.nodes (m : Module) : List Node := Stmt.nodesList m.body

theorem Expr.nodesList_eq (es : List Expr) : Expr.nodesList es = es.flatMap Expr.nodes := by
  induction es with
  | nil => rfl
  | cons e es ih => rw [Expr.nodesList, List.flatMap_cons, ih]

theorem Property.nodesList_eq (ps : List Property) :
    Property.nodesList ps = ps.flatMap Property.nodes := by
  induction ps with
  | nil => rfl
  | cons p ps ih => rw [Property.nodesList, List.flatMap_cons, ih]

theorem Declarator.nodesList_eq (ds : List Declarator) :
    Declarator.nodesList ds = ds.flatMap Declarator.nodes := by
  induction ds with
  | nil => rfl
  | cons d ds ih => rw [Declarator.nodesList, List.flatMap_cons, ih]

theorem Stmt.nodesList_eq (ss : List Stmt) : Stmt.nodesList ss = ss.flatMap Stmt.nodes := by
  induction ss with
  | nil => rfl
  | cons s ss ih => rw [Stmt.nodesList, List.flatMap_cons, ih]


/-! ### Strings -/

/-- The strings of a node itself: the text of a literal, a key between quotes, the name of a
module. -/
def Node.strings : Node → List CodeText
  | .expr (.literal (.text s) _ _) => [s]
  | .property p => if p.quoted then [p.key] else []
  | .stmt (.importDecl _ s _) | .stmt (.exportAll s _) => [s]
  | .stmt (.exportNamed _ s _) => s.toList
  | _ => []

/-- Nodes whose strings hold no surrogates. -/
def AreTexts (xs : List Node) : Prop := ∀ x ∈ xs, ∀ s ∈ x.strings, s.IsText

instance (xs : List Node) : Decidable (AreTexts xs) :=
  inferInstanceAs (Decidable (∀ x ∈ xs, ∀ s ∈ x.strings, s.IsText))

namespace AreTexts

variable {x : Node} {xs ys : List Node}

theorem cons : AreTexts (x :: xs) ↔ (∀ s ∈ x.strings, s.IsText) ∧ AreTexts xs :=
  List.forall_mem_cons

theorem append : AreTexts (xs ++ ys) ↔ AreTexts xs ∧ AreTexts ys := List.forall_mem_append

/-- A node with one string. -/
theorem single {s : CodeText} (h : AreTexts (x :: xs)) (hs : s ∈ x.strings) : s.IsText :=
  (cons.1 h).1 s hs

theorem tail (h : AreTexts (x :: xs)) : AreTexts xs := (cons.1 h).2

end AreTexts

/-- **What can be printed and holds no surrogates** can be printed without surrogates. -/
theorem Printable.withTexts {marks texts : Bool} {p : Phrase} (h : Printable marks texts p) :
    AreTexts p.nodes → Printable marks true p := by
  have list : ∀ {α : Type} {f : α → List Node} {xs : List α}, AreTexts (xs.flatMap f) →
      ∀ a ∈ xs, AreTexts (f a) := fun h => List.forall_mem_flatMap.1 h
  induction h with
  | exprChoice _ ih => exact fun hx => .exprChoice (ih hx)
  | arrow hids hbrace _ ih => exact fun hx => .arrow hids hbrace (ih hx.tail)
  | arrowBlock hids _ ih => exact fun hx => .arrowBlock hids (ih hx.tail)
  | assign hk htarget _ _ ih ih' =>
    intro hx
    obtain ⟨hx, hx'⟩ := AreTexts.append.1 hx.tail
    exact .assign hk htarget (ih hx) (ih' hx')
  | choiceOperation _ ih => exact fun hx => .choiceOperation (ih hx)
  | conditional _ _ _ iht ihc iha =>
    intro hx
    obtain ⟨ht, hx⟩ := AreTexts.append.1 hx.tail
    obtain ⟨hc, ha⟩ := AreTexts.append.1 hx
    exact .conditional (iht ht) (ihc hc) (iha ha)
  | operationOperand _ ih => exact fun hx => .operationOperand (ih hx)
  | operationTighter _ ih => exact fun hx => .operationTighter (ih hx)
  | binary hk _ _ ih ih' =>
    intro hx
    obtain ⟨hx, hx'⟩ := AreTexts.append.1 hx.tail
    exact .binary hk (ih hx) (ih' hx')
  | operandSuffixed _ ih => exact fun hx => .operandSuffixed (ih hx)
  | unary hk _ ih => exact fun hx => .unary hk (ih hx.tail)
  | suffixedPrimary _ ih => exact fun hx => .suffixedPrimary (ih hx)
  | member hname _ ih => exact fun hx => .member hname (ih hx.tail)
  | index _ _ ih ih' =>
    intro hx
    obtain ⟨hx, hx'⟩ := AreTexts.append.1 hx.tail
    exact .index (ih hx) (ih' hx')
  | call _ _ ih ih' =>
    intro hx
    obtain ⟨hx, hx'⟩ := AreTexts.append.1 hx.tail
    exact .call (ih hx) fun a ha => ih' a ha (list (Expr.nodesList_eq _ ▸ hx') a ha)
  | string _ => exact fun hx => .string fun _ => hx.single (List.mem_singleton_self _)
  | number h hv => exact fun _ => .number h hv
  | truth => exact fun _ => .truth
  | null => exact fun _ => .null
  | name h => exact fun _ => .name h
  | array _ ih =>
    exact fun hx => .array fun e he => ih e he (list (Expr.nodesList_eq _ ▸ hx.tail) e he)
  | object _ ih =>
    exact fun hx => .object fun p hp => ih p hp (list (Property.nodesList_eq _ ▸ hx.tail) p hp)
  | group _ ih => exact fun hx => .group (ih hx.tail)
  | @property key v shorthand quoted o hkey _ hmark _ ih =>
    refine fun hx => .property hkey (fun _ => ?_) hmark (ih hx.tail)
    cases quoted with
    | true => exact hx.single (List.mem_singleton_self _)
    | false =>
      obtain ⟨name, hname, -⟩ := hkey rfl
      exact ⟨name, hname⟩
  | block _ ih =>
    exact fun hx => .block fun s hs => ih s hs (list (Stmt.nodesList_eq _ ▸ hx) s hs)
  | declarator hid => exact fun _ => .declarator hid
  | declaratorInit hid _ ih => exact fun hx => .declaratorInit hid (ih hx.tail)
  | variableDecl hne _ ih =>
    exact fun hx => .variableDecl hne fun d hd =>
      ih d hd (list (Declarator.nodesList_eq _ ▸ hx.tail) d hd)
  | functionDecl hf hids _ ih => exact fun hx => .functionDecl hf hids (ih hx.tail)
  | importDecl hss _ =>
    exact fun hx => .importDecl hss fun _ => hx.single (List.mem_singleton_self _)
  | exportNamed hss _ =>
    exact fun hx => .exportNamed hss fun _ t ht => hx.single (Option.mem_toList.2 ht)
  | exportAll _ => exact fun hx => .exportAll fun _ => hx.single (List.mem_singleton_self _)
  | exportDecl _ ih => exact fun hx => .exportDecl (ih hx.tail)
  | exportDefault _ ih => exact fun hx => .exportDefault (ih hx.tail)
  | declaration _ ih => exact fun hx => .declaration (ih hx.tail)
  | blockStatement _ ih => exact fun hx => .blockStatement (ih hx.tail)
  | returnNothing => exact fun _ => .returnNothing
  | returnValue _ ih => exact fun hx => .returnValue (ih hx.tail)
  | ifThen _ _ ih ihs =>
    intro hx
    obtain ⟨hx, hs⟩ := AreTexts.append.1 hx.tail
    exact .ifThen (ih hx) (ihs hs)
  | ifElse hopen _ _ _ ih ihs iha =>
    intro hx
    obtain ⟨hx, hx'⟩ := AreTexts.append.1 hx.tail
    obtain ⟨hs, ha⟩ := AreTexts.append.1 hx'
    exact .ifElse hopen (ih hx) (ihs hs) (iha ha)
  | exprStatement hbrace _ ih => exact fun hx => .exprStatement hbrace (ih hx.tail)

theorem AreTexts.printableBody {marks texts : Bool} {ss : List Stmt}
    (h : AreTexts (Stmt.nodesList ss)) (hss : PrintableBody marks texts ss) :
    PrintableBody marks true ss := fun s hs =>
  (hss s hs).withTexts (List.forall_mem_flatMap.1 (Stmt.nodesList_eq ss ▸ h) s hs)

/-! ### Texts of characters -/

theorem isText_commaSeparated {texts : List CodeText} (h : ∀ s ∈ texts, s.IsText) :
    (commaSeparated texts).IsText := CodeText.isText_intercalate (CodeText.isText_ofString _) h

theorem isText_inBraces {texts : List CodeText} (h : ∀ s ∈ texts, s.IsText) :
    (inBraces texts).IsText := by
  rw [inBraces]
  split
  · exact CodeText.isText_ofString _
  · simpa [braced] using isText_commaSeparated h

theorem isText_map_ofString {α : Type} (text : α → String) (xs : List α) :
    ∀ s ∈ xs.map fun x => (text x : CodeText), s.IsText :=
  List.forall_mem_map.2 fun _ _ => CodeText.isText_ofString _

theorem isText_paramsText (ids : List Identifier) : (paramsText ids).IsText :=
  isText_commaSeparated (isText_map_ofString _ ids)

theorem isText_importClause (ss : List ImportSpecifier) : (importClause ss).IsText := by
  refine isText_commaSeparated (List.forall_mem_append.2 ⟨isText_map_ofString _ _, ?_⟩)
  split
  · exact nofun
  · exact List.forall_mem_singleton.2 (isText_inBraces (isText_map_ofString _ _))

/-- A text without blanks at its front has no other code points than before. -/
theorem isText_trimLeft {s : CodeText} (h : s.IsText) : (trimLeft s).IsText :=
  CodeText.isText_iff.2 fun code hcode =>
    CodeText.isText_iff.1 h code ((List.dropWhile_sublist _).subset hcode)

theorem Stmt.isText_branch (stmt : Stmt) {text : CodeText} (h : text.IsText) :
    (stmt.branch text).IsText := by
  cases stmt with
  | block b => exact h
  | _ => exact isText_trimLeft h

/-- **What can be printed without surrogates is printed as a text of characters.** -/
theorem Printable.isText_text {marks : Bool} {p : Phrase} (h : Printable marks true p) :
    ∀ depth, (p.text depth).IsText := by
  induction h with
  | exprChoice _ ih | choiceOperation _ ih | operationOperand _ ih | operationTighter _ ih
  | operandSuffixed _ ih | suffixedPrimary _ ih => exact ih
  | arrow _ _ _ ih | arrowBlock _ _ ih =>
    exact fun depth => by simpa [Expr.text, isText_paramsText] using ih depth
  | assign _ _ _ _ ih ih' | binary _ _ _ ih ih' | index _ _ ih ih' =>
    exact fun depth => by simpa [Expr.text] using ⟨ih depth, ih' depth⟩
  | conditional _ _ _ iht ihc iha =>
    exact fun depth => by simpa [Expr.text] using ⟨⟨iht depth, ihc depth⟩, iha depth⟩
  | unary _ _ ih | member _ _ ih | group _ ih =>
    exact fun depth => by simpa [Expr.text] using ih depth
  | call _ _ ih ih' =>
    intro depth
    have hargs := isText_commaSeparated (List.forall_mem_map.2 fun e he => ih' e he depth)
    simpa [Expr.text, Expr.texts_eq_map] using ⟨ih depth, hargs⟩
  | string hs => exact fun depth => by simpa [Expr.text, quotedString] using hs rfl
  | number h hv => exact fun depth => ⟨_, Expr.text_number hv _ depth⟩
  | truth | null | name => exact fun depth => by simp [Expr.text]
  | array _ ih =>
    intro depth
    have hes := isText_commaSeparated (List.forall_mem_map.2 fun e he => ih e he depth)
    simpa [Expr.text, Expr.texts_eq_map] using hes
  | object _ ih =>
    intro depth
    simp only [Phrase.text, Expr.text_object]
    exact isText_inBraces (List.forall_mem_map.2 fun p hp => ih p hp depth)
  | @property key v shorthand quoted o _ hs _ _ ih =>
    intro depth
    have hkey := hs rfl
    simp only [Phrase.text, Property.text]
    split
    · exact hkey
    · cases quoted <;> simpa [quotedString] using ⟨hkey, ih depth⟩
  | @block ss o _ ih =>
    intro depth
    cases ss with
    | nil => exact ⟨_, by rw [Phrase.text, Block.text]⟩
    | cons stmt ss =>
      have hlines : ∀ s ∈ Stmt.texts (depth + 1) (stmt :: ss), s.IsText := by
        rw [Stmt.texts_eq_map]
        exact List.forall_mem_map.2 fun s hs => by simpa using ih s hs (depth + 1)
      simpa [Block.text] using CodeText.isText_intercalate (CodeText.isText_ofString _) hlines
  | declarator => exact fun depth => by simp [Declarator.text]
  | declaratorInit _ _ ih => exact fun depth => by simpa [Declarator.text] using ih depth
  | variableDecl _ _ ih =>
    intro depth
    have hds := isText_commaSeparated (List.forall_mem_map.2 fun d hd => ih d hd depth)
    simpa [Declaration.text, Declarator.texts_eq_map] using hds
  | functionDecl _ _ _ ih =>
    exact fun depth => by simpa [Declaration.text, isText_paramsText] using ih depth
  | importDecl _ hs =>
    intro depth
    simp only [Phrase.text, Stmt.text, importText]
    split <;> simpa [quotedString, isText_importClause] using hs rfl
  | @exportNamed ss s o _ hs =>
    intro depth
    have hnames := isText_commaSeparated (isText_map_ofString ExportSpecifier.text ss)
    simp only [Phrase.text, Stmt.text, exportText]
    cases s with
    | none => split <;> simp [braced, hnames]
    | some s => split <;> simpa [braced, quotedString, hnames] using hs rfl s rfl
  | exportAll hs => exact fun depth => by simpa [Stmt.text, quotedString] using hs rfl
  | exportDecl _ ih | exportDefault _ ih | declaration _ ih | blockStatement _ ih
  | returnValue _ ih | exprStatement _ _ ih =>
    exact fun depth => by simpa [Stmt.text] using ih depth
  | returnNothing => exact fun depth => by simp [Stmt.text]
  | ifThen _ _ ih ihs =>
    exact fun depth => by
      simpa [Stmt.text] using ⟨ih depth, Stmt.isText_branch _ (ihs depth)⟩
  | ifElse _ _ _ _ ih ihs iha =>
    exact fun depth => by
      simpa [Stmt.text] using ⟨⟨ih depth, Stmt.isText_branch _ (ihs depth)⟩,
        Stmt.isText_branch _ (iha depth)⟩

end MessageBinder
