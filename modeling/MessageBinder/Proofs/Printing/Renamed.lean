import MessageBinder.Proofs.Printing.Printable
import MessageBinder.Proofs.Scope.Replacing
import MessageBinder.Scope.FreshName

/-!
# Printing under other names

A tree that can be printed can be printed under other names, as long as these are names and no words
of the language (`MessageBinder.Printable.mapIds`). Nothing else in a tree is looked at when it is
renamed; what is lost is the mark of a property that was written by its key alone, since its value
may have another name now than its key.

The names that are made up are such names, whatever the seed: an underscore, which no word of the
language starts with, then the letters and digits of the seed, then a number
(`MessageBinder.Scope.isPlainName_freshName`).
-/

namespace MessageBinder

/-! ### Names that are made up -/

theorem IsPlainName.isBindingName {s : String} (h : IsPlainName s) : IsBindingName s :=
  ⟨h.1, by rw [h.2]; rfl⟩

theorem IsPlainName.isExportName {s : String} (h : IsPlainName s) : IsExportName s :=
  ⟨h.1, by rw [h.2]; rfl⟩

theorem IsBindingName.isExportName {s : String} (h : IsBindingName s) : IsExportName s :=
  ⟨h.1, by rw [TokenKind.isExportName, h.2]; rfl⟩

/-- No word of the language starts with an underscore. -/
theorem TokenKind.ofWord_underscore {s : String} (h : s.toList.head? = some '_') :
    ofWord s = .name := by
  by_contra hne
  obtain ⟨hword, hs⟩ := eq_spelling_of_ofWord hne
  rw [hs] at h
  revert hword h
  cases ofWord s <;> decide

namespace FreshName

/-- Only characters of names. -/
def AreNameChars (cs : List Char) : Prop := ∀ c ∈ cs, isNameChar c

/-- Names are written in ASCII. -/
theorem toNat_lt_of_isNameChar {c : Char} (h : isNameChar c) : c.toNat < 128 := by
  simp only [isNameChar, Char.isAlphanum, Char.isDigit, Bool.or_eq_true, Bool.and_eq_true,
    decide_eq_true_eq, UInt32.le_iff_toNat_le, ge_iff_le] at h
  have hval : c.toNat = c.val.toNat := rfl
  have hnine : '9'.val.toNat = 57 := rfl
  rcases h with ((halpha | hdigit) | rfl) | rfl
  · have hrange := Lexer.range_of_isAlpha halpha
    omega
  · omega
  all_goals decide

theorem isNameChar_toUpper {c : Char} (h : isNameChar c) : isNameChar c.toUpper := by
  have hascii : ∀ n < 128, isNameChar (Char.ofNat n) → isNameChar (Char.ofNat n).toUpper := by
    decide
  have hupper := hascii c.toNat (toNat_lt_of_isNameChar h)
  rw [Char.ofNat_toNat] at hupper
  exact hupper h

theorem areNameChars_capitalized {cs : List Char} (h : AreNameChars cs) :
    AreNameChars (capitalized cs) := by
  cases cs with
  | nil => exact h
  | cons c cs =>
    intro d hd
    rcases List.mem_cons.1 hd with rfl | hd
    · exact isNameChar_toUpper (h c List.mem_cons_self)
    · exact h d (List.mem_cons_of_mem _ hd)

/-- What stands between separators has none of them. -/
theorem forall_mem_splitOnP {α : Type} (p : α → Bool) (xs : List α) :
    ∀ ys ∈ xs.splitOnP p, ∀ y ∈ ys, p y = false := by
  induction xs with
  | nil => simp
  | cons x xs ih =>
    rw [List.splitOnP_cons_eq_if_modifyHead]
    split
    · exact List.forall_mem_cons.2 ⟨nofun, ih⟩
    · rename_i hx
      cases hsplit : xs.splitOnP p with
      | nil => exact nofun
      | cons ys yss =>
        rw [hsplit] at ih
        obtain ⟨hys, hyss⟩ := List.forall_mem_cons.1 ih
        exact List.forall_mem_cons.2
          ⟨List.forall_mem_cons.2 ⟨Bool.eq_false_iff.2 hx, hys⟩, hyss⟩

theorem areNameChars_of_mem_words {cs w : List Char} (h : w ∈ words cs) : AreNameChars w := by
  intro c hc
  have hnone := forall_mem_splitOnP (!isNameChar ·) cs w (List.mem_filter.1 h).1 c hc
  simpa using hnone

theorem areNameChars_joined {ws : List (List Char)} (h : ∀ w ∈ ws, AreNameChars w) :
    AreNameChars (joined ws) := by
  cases ws with
  | nil => exact nofun
  | cons w ws =>
    intro c hc
    rcases List.mem_append.1 hc with hc | hc
    · exact h w List.mem_cons_self c hc
    · obtain ⟨w', hw', hc⟩ := List.mem_flatMap.1 hc
      exact areNameChars_capitalized (h w' (List.mem_cons_of_mem _ hw')) c hc

theorem trimmed_subset (cs : List Char) : trimmed cs ⊆ cs := by
  intro c hc
  rw [trimmed, List.mem_reverse] at hc
  have hc := (List.dropWhile_sublist _).subset hc
  exact (List.dropWhile_sublist _).subset (List.mem_reverse.1 hc)

/-- A base has characters of names only. -/
theorem areNameChars_base (seed : String) : AreNameChars (base seed).toList := by
  have hcore : AreNameChars (trimmed (joined (words seed.toList))) := fun c hc =>
    areNameChars_joined (fun w hw => areNameChars_of_mem_words hw) c (trimmed_subset _ hc)
  have href : AreNameChars "ref".toList := List.all_eq_true.1 (by decide)
  unfold base
  simp only [String.toList_ofList]
  split
  · exact href
  split
  · exact fun c hc => (List.mem_append.1 hc).elim (href c) (hcore c)
  · exact hcore

/-- **A candidate is a name** and no word of the language. -/
theorem isPlainName_candidate (seed : String) (count : Nat) :
    IsPlainName (candidate (base seed) count) := by
  have hcount : AreNameChars (if count = 1 then "" else toString count).toList := by
    split
    · exact nofun
    · intro c hc
      rw [Nat.toString_eq_repr, Nat.toList_repr] at hc
      have hdigit := Nat.isDigit_of_mem_toDigits (by decide) (by decide) hc
      rw [isNameChar, Char.isAlphanum, hdigit, Bool.or_true]
      rfl
  have htext : (candidate (base seed) count).toList
      = '_' :: ((base seed).toList ++ (if count = 1 then "" else toString count).toList) := by
    simp [candidate]
  refine ⟨⟨'_', _, htext, rfl, fun c hc => ?_⟩, TokenKind.ofWord_underscore ?_⟩
  · exact (List.mem_append.1 hc).elim (areNameChars_base seed c) (hcount c)
  · rw [htext]
    rfl

end FreshName

/-- **A fresh name is a name**, whatever its seed. -/
theorem Scope.isPlainName_unusedName (s : Scope) (seed : String) :
    IsPlainName (s.unusedName (FreshName.base seed)) := by
  rw [unusedName]
  cases hfind : ((List.range (s.names.length + 1)).map fun n =>
      FreshName.candidate (FreshName.base seed) (n + 1)).find? (!s.hasName ·) with
  | none => exact FreshName.isPlainName_candidate seed 1
  | some name =>
    obtain ⟨n, -, rfl⟩ := List.mem_map.1 (List.mem_of_find?_eq_some hfind)
    exact FreshName.isPlainName_candidate seed (n + 1)

/-! ### Replacements -/

/-- A replacement of identifiers that gives no new name but plain ones. -/
def Identifier.RenamesPlainly (f : Identifier → Identifier) : Prop :=
  ∀ id, (f id).name = id.name ∨ IsPlainName (f id).name

theorem Identifier.renamesPlainly_renamed {name : String} (h : IsPlainName name) (n : Nat) :
    Identifier.RenamesPlainly (Identifier.renamed n name) := by
  intro id
  rw [renamed]
  split
  · exact Or.inr h
  · exact Or.inl rfl

theorem Identifier.renamesPlainly_id : Identifier.RenamesPlainly id := fun _ => Or.inl rfl

/-- The property with its identifiers replaced. -/
def Property.mapIds (f : Identifier → Identifier) (p : Property) : Property :=
  ⟨p.key, p.value.mapIds f, p.shorthand, p.quoted, p.origin⟩

/-- The variable with its identifiers replaced. -/
def Declarator.mapIds (f : Identifier → Identifier) (d : Declarator) : Declarator :=
  ⟨f d.id, d.init.map (Expr.mapIds f), d.origin⟩

/-- The phrase with the identifiers of its tree replaced, as far as it can be printed. -/
def Phrase.mapIds (f : Identifier → Identifier) : Phrase → Phrase
  | .expr e => .expr (e.mapIds f)
  | .choice e => .choice (e.mapIds f)
  | .operation n e => .operation n (e.mapIds f)
  | .operand e => .operand (e.mapIds f)
  | .suffixed e => .suffixed (e.mapIds f)
  | .primary e => .primary (e.mapIds f)
  | .property p => .property (p.mapIds f)
  | .block b => .block (b.mapIds f)
  | .declarator d => .declarator (d.mapIds f)
  | .declaration d => .declaration (d.mapIds f)
  | .stmt s => .stmt (s.mapIds f)
  | p => p

section Shape

variable (f : Identifier → Identifier)

theorem Expr.mapIdsList_eq_map (es : List Expr) :
    Expr.mapIdsList f es = es.map (Expr.mapIds f) := by
  induction es with
  | nil => rfl
  | cons e es ih => rw [Expr.mapIdsList, ih, List.map_cons]

theorem Property.mapIdsList_eq_map (ps : List Property) :
    Property.mapIdsList f ps = ps.map (Property.mapIds f) := by
  induction ps with
  | nil => rfl
  | cons p ps ih =>
    obtain ⟨key, value, shorthand, quoted, o⟩ := p
    rw [Property.mapIdsList, ih, List.map_cons, Property.mapIds]

theorem Expr.isTarget_mapIds (e : Expr) : (e.mapIds f).isTarget = e.isTarget := by
  cases e <;> rfl

/-- An identifier opens no brace. -/
theorem Expr.opensBrace_mapIds : ∀ e : Expr, (e.mapIds f).opensBrace = e.opensBrace
  | .object .. => rfl
  | .member e _ _ | .index e _ _ | .call e _ _ | .binary _ e _ _ | .conditional e _ _ _
  | .assign _ e _ _ => Expr.opensBrace_mapIds e
  | .name _ | .literal .. | .verbatim .. | .array .. | .unary .. | .group .. | .arrow ..
  | .arrowBlock .. => rfl

theorem Stmt.isOpen_mapIds : ∀ s : Stmt, (s.mapIds f).isOpen = s.isOpen
  | .ifThen _ _ none _ => rfl
  | .ifThen _ _ (some a) _ => Stmt.isOpen_mapIds a
  | .importDecl .. | .exportNamed .. | .exportAll .. | .exportDecl .. | .exportDefault ..
  | .declaration _ | .block _ | .returnValue none _ | .returnValue (some _) _ | .expr .. => rfl

end Shape

namespace Identifier.RenamesPlainly

variable {f : Identifier → Identifier} (hf : Identifier.RenamesPlainly f)

include hf

theorem isBindingName {id : Identifier} (h : IsBindingName id.name) :
    IsBindingName (f id).name := by
  rcases hf id with hname | hname
  · rwa [hname]
  · exact hname.isBindingName

theorem isExportName {id : Identifier} (h : IsExportName id.name) : IsExportName (f id).name := by
  rcases hf id with hname | hname
  · rwa [hname]
  · exact hname.isExportName

theorem isPlainName {id : Identifier} (h : IsPlainName id.name) : IsPlainName (f id).name := by
  rcases hf id with hname | hname
  · rwa [hname]
  · exact hname

theorem areBindingNames {ids : List Identifier} (h : AreBindingNames ids) :
    AreBindingNames (ids.map f) := by
  intro id hid
  obtain ⟨id', hid', rfl⟩ := List.mem_map.1 hid
  exact hf.isBindingName (h id' hid')

theorem areImportRest {ss : List ImportSpecifier} (h : AreImportRest ss) :
    AreImportRest (ss.map (ImportSpecifier.mapIds f)) := by
  rcases h with ⟨id, o, rfl, hid⟩ | h
  · exact Or.inl ⟨f id, o, rfl, hf.isPlainName hid⟩
  · refine Or.inr fun s hs => ?_
    obtain ⟨s', hs', rfl⟩ := List.mem_map.1 hs
    have hlisted := h s' hs'
    cases s' with
    | named exported binding o => exact ⟨hlisted.1, hf.isBindingName hlisted.2⟩
    | default | all => exact hlisted.elim

theorem areImports {ss : List ImportSpecifier} (h : AreImports ss) :
    AreImports (ss.map (ImportSpecifier.mapIds f)) := by
  rcases h with h | ⟨id, o, rest, rfl, hid, hrest⟩
  · exact Or.inl (hf.areImportRest h)
  · exact Or.inr ⟨f id, o, _, rfl, hf.isPlainName hid, hf.areImportRest hrest⟩

theorem areExports {isLocal : Bool} {ss : List ExportSpecifier} (h : AreExports isLocal ss) :
    AreExports isLocal (ss.map (ExportSpecifier.mapIds f)) := by
  intro s hs
  obtain ⟨s', hs', rfl⟩ := List.mem_map.1 hs
  obtain ⟨hexported, hsource, hlocal⟩ := h s' hs'
  exact ⟨hexported, hf.isExportName hsource, fun hloc => hf.isBindingName (hlocal hloc)⟩

end Identifier.RenamesPlainly

/-! ### Trees -/

/-- **A tree can be printed under other names.** -/
theorem Printable.mapIds {marks texts : Bool} {p : Phrase} (h : Printable marks texts p)
    {f : Identifier → Identifier} (hf : Identifier.RenamesPlainly f) :
    Printable false texts (p.mapIds f) := by
  have hmap : ∀ {α : Type} {g : α → α} {xs : List α} {P : α → Prop}, (∀ x ∈ xs, P (g x)) →
      ∀ x ∈ xs.map g, P x := by
    intro α g xs P hall x hx
    obtain ⟨x', hx', rfl⟩ := List.mem_map.1 hx
    exact hall x' hx'
  -- renaming keeps shapes, so only what is said of names has to be said anew
  induction h with
  | exprChoice _ ih => exact .exprChoice ih
  | arrow hids hbrace _ ih =>
    exact .arrow (hf.areBindingNames hids) ((Expr.opensBrace_mapIds f _).trans hbrace) ih
  | arrowBlock hids _ ih => exact .arrowBlock (hf.areBindingNames hids) ih
  | assign hk htarget _ _ ih ih' =>
    exact .assign hk (by rwa [Expr.isTarget_mapIds]) ih ih'
  | choiceOperation _ ih => exact .choiceOperation ih
  | conditional _ _ _ iht ihc iha => exact .conditional iht ihc iha
  | operationOperand _ ih => exact .operationOperand ih
  | operationTighter _ ih => exact .operationTighter ih
  | binary hk _ _ ih ih' => exact .binary hk ih ih'
  | operandSuffixed _ ih => exact .operandSuffixed ih
  | unary hk _ ih => exact .unary hk ih
  | suffixedPrimary _ ih => exact .suffixedPrimary ih
  | member hname _ ih => exact .member hname ih
  | index _ _ ih ih' => exact .index ih ih'
  | call _ _ ih ih' =>
    simp only [Phrase.mapIds, Expr.mapIds, Expr.mapIdsList_eq_map]
    exact .call ih (hmap ih')
  | string hs => exact .string hs
  | number h hv => exact .number h hv
  | truth => exact .truth
  | null => exact .null
  | name h => exact .name (hf.isBindingName h)
  | array _ ih =>
    simp only [Phrase.mapIds, Expr.mapIds, Expr.mapIdsList_eq_map]
    exact .array (hmap ih)
  | object _ ih =>
    simp only [Phrase.mapIds, Expr.mapIds, Property.mapIdsList_eq_map]
    exact .object (hmap ih)
  | group _ ih => exact .group ih
  | property hkey hs _ _ ih => exact .property hkey hs nofun ih
  | block _ ih =>
    simp only [Phrase.mapIds, Block.mapIds, Stmt.mapIdsList_eq_map]
    exact .block (hmap ih)
  | declarator hid => exact .declarator (hf.isBindingName hid)
  | declaratorInit hid _ ih => exact .declaratorInit (hf.isBindingName hid) ih
  | variableDecl hne _ ih =>
    simp only [Phrase.mapIds, Declaration.mapIds, Declarator.mapIdsList_eq_map]
    exact .variableDecl (by simpa using hne) (hmap ih)
  | functionDecl hname hids _ ih =>
    exact .functionDecl (hf.isBindingName hname) (hf.areBindingNames hids) ih
  | importDecl hss hs => exact .importDecl (hf.areImports hss) hs
  | exportNamed hss hs => exact .exportNamed (hf.areExports hss) hs
  | exportAll hs => exact .exportAll hs
  | exportDecl _ ih => exact .exportDecl ih
  | exportDefault _ ih => exact .exportDefault ih
  | declaration _ ih => exact .declaration ih
  | blockStatement _ ih => exact .blockStatement ih
  | returnNothing => exact .returnNothing
  | returnValue _ ih => exact .returnValue ih
  | ifThen _ _ ih ihs => exact .ifThen ih ihs
  | ifElse hopen _ _ _ ih ihs iha =>
    exact .ifElse ((Stmt.isOpen_mapIds f _).trans hopen) ih ihs iha
  | exprStatement hbrace _ ih =>
    exact .exprStatement ((Expr.opensBrace_mapIds f _).trans hbrace) ih

theorem PrintableBody.mapIds {marks texts : Bool} {ss : List Stmt}
    (h : PrintableBody marks texts ss)
    {f : Identifier → Identifier} (hf : Identifier.RenamesPlainly f) :
    PrintableBody false texts (Stmt.mapIdsList f ss) := by
  intro s hs
  rw [Stmt.mapIdsList_eq_map] at hs
  obtain ⟨s', hs', rfl⟩ := List.mem_map.1 hs
  exact (h s' hs').mapIds hf

/-- What can be printed with the marks of properties can be printed without a look at them. -/
theorem PrintableBody.unmarked {marks texts : Bool} {ss : List Stmt}
    (h : PrintableBody marks texts ss) :
    PrintableBody false texts ss := by
  have hsame := h.mapIds Identifier.renamesPlainly_id
  rwa [Stmt.mapIdsList_eq_self (f := id) ss fun _ _ => rfl] at hsame

end MessageBinder
