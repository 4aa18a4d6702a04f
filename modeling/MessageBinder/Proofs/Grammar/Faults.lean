import Mathlib.Data.List.Forall2
import MessageBinder.Proofs.Grammar.Reader

/-!
# Faults of what has been read

A text can have the form of a module and be none; its fault is then one of the tree that was read.
No such fault is of the kind that stops reading: an unexpected token, character or end is reported
only when reading stopped there. So the fault of a text tells by itself whether the text has the
form of a module. And it is a fault at a place where a token stands, but for the literals without a
value, which are reported without a place: strings that cannot be read, and integers with too many
digits.

What the ones of a kind do is told by reading the tokens a second time with readable literals in
their stead (`MessageBinder.Token.mended`). Both readings go the same way, for reading does not look
into literals. What they make of the tokens is the same, unless the first reports a literal of the
kind, and the second never does (`MessageBinder.Checked.Mends`). A walk through the tree that finds
such a literal finds no other fault, so this is kept by all that is put together.
-/

namespace MessageBinder

/-- Whether the error is one that is met while the tokens are read. -/
def ModuleError.isUnexpected : ModuleError → Bool
  | .fault f _ _ => f.isUnexpected
  | .unreadableString _ | .longInteger _ => false

/-- The kind of the literal without a value that an error reports. -/
def ModuleError.literal? : ModuleError → Option TokenKind
  | .fault .. => none
  | .unreadableString _ => some .string
  | .longInteger _ => some .number

/-- The fault, if there is one, is one of what has been read. -/
def Checked.Late {α : Type} (x : Checked α) : Prop := ∀ e, x = .error e → e.isUnexpected = false

/-- Whether tokens of a kind are literals that may have no value. -/
def TokenKind.mayFail (k : TokenKind) : Bool := k = .string || k = .number

/-- Whether a token is no literal, or one that has a value. -/
def Token.isReadable [CharacterNames] (t : Token) : Bool :=
  match t.kind with
  | .string => t.stringValue.isOk
  | .number => t.numberValue.isOk
  | _ => true

/-- The token, with an empty string or a zero in the stead of a literal of the kind without a
value. -/
def Token.mended [CharacterNames] (k : TokenKind) (t : Token) : Token :=
  if t.kind = k ∧ t.isReadable = false then
    { t with text := if k = .string then "\"\"" else "0" }
  else t

namespace Token

variable [CharacterNames] {k : TokenKind} {t : Token}

@[simp] theorem kind_mended (k : TokenKind) (t : Token) : (t.mended k).kind = t.kind := by
  unfold mended
  split <;> rfl

@[simp] theorem origin_mended (k : TokenKind) (t : Token) : (t.mended k).origin = t.origin := by
  unfold mended
  split <;> rfl

theorem mended_of_ne (h : t.kind ≠ k) : t.mended k = t := by
  rw [mended, if_neg fun hk => h hk.1]

theorem mended_of_isReadable (h : t.isReadable) : t.mended k = t := by
  rw [mended, if_neg fun hk => by simp [h] at hk]

theorem isReadable_of_mayFail (h : t.kind.mayFail = false) : t.isReadable := by
  unfold isReadable
  split
  · rename_i ht
    rw [ht] at h
    cases h
  · rename_i ht
    rw [ht] at h
    cases h
  · rfl

theorem isReadable_of_test {q : TokenKind → Bool} (h : q t.kind)
    (hq : (q .string || q .number) = false) : t.isReadable := by
  rw [Bool.or_eq_false_iff] at hq
  refine isReadable_of_mayFail ?_
  simp only [TokenKind.mayFail, Bool.or_eq_false_iff, decide_eq_false_iff_not]
  constructor <;> intro ht <;> simp [ht, hq] at h

/-- **What comes of a literal** when those of a kind are mended. -/
inductive Comes {α : Type} (k literal : TokenKind) (f : Token → Checked α) (t : Token) : Prop
  /-- It has a value. -/
  | value {a : α} (ht : t.mended k = t) (h : f t = .ok a)
  /-- It has none, and stays as it is. -/
  | kept {e : ModuleError} (ht : t.mended k = t) (h : f t = .error e)
      (he : e.literal? = some literal) (hk : literal ≠ k)
  /-- It had none. -/
  | mended {e : ModuleError} {a : α} (h : f t = .error e) (he : e.literal? = some k)
      (h' : f (t.mended k) = .ok a)

theorem Comes.map {α β : Type} {literal : TokenKind} {f : Token → Checked α} {g : Token → α → β}
    (h : t.Comes k literal f) : t.Comes k literal fun t => (f t).map (g t) := by
  cases h with
  | @value a ht h => exact .value ht (congrArg (Except.map (g t)) h)
  | @kept e ht h he hk => exact .kept ht (congrArg (Except.map (g t)) h) he hk
  | @mended e a h he h' =>
    exact .mended (congrArg (Except.map (g t)) h) he (congrArg (Except.map (g (t.mended k))) h')

theorem comes_stringValue (k : TokenKind) (ht : t.kind = .string) :
    t.Comes k .string stringValue := by
  have hreadable : t.isReadable = t.stringValue.isOk := by rw [isReadable, ht]
  rw [stringValue] at hreadable
  cases hvalue : StringLiteral.value? t.text with
  | some s =>
    have hs : t.stringValue = .ok s := by rw [stringValue, hvalue]
    exact .value (mended_of_isReadable (by rw [hreadable, hvalue]; rfl)) hs
  | none =>
    have he : t.stringValue = .error (.unreadableString
        (if t.text.toList.contains '\x00' then .nullCharacter else .malformed)) := by
      rw [stringValue, hvalue]
    by_cases hk : k = .string
    · subst hk
      have hempty : StringLiteral.value? "\"\"" = some (("" : String) : CodeText) := by
        have hbody : "\"\"".toList.tail.dropLast = [] := rfl
        rw [StringLiteral.value?, hbody, StringLiteral.codePoints?.eq_def]
        rfl
      refine .mended he rfl (a := ("" : String)) ?_
      rw [mended, if_pos ⟨ht, by rw [hreadable, hvalue]; rfl⟩, if_pos rfl]
      simp only [stringValue, hempty]
    · exact .kept (mended_of_ne (by rw [ht]; exact Ne.symm hk)) he rfl (Ne.symm hk)

theorem comes_numberValue (k : TokenKind) (ht : t.kind = .number) :
    t.Comes k .number numberValue := by
  have hreadable : t.isReadable = t.numberValue.isOk := by rw [isReadable, ht]
  rw [numberValue] at hreadable
  cases hvalue : NumberLiteral.value t.text with
  | ok v =>
    have hv : t.numberValue = .ok v := by rw [numberValue, hvalue]; rfl
    exact .value (mended_of_isReadable (by rw [hreadable, hvalue]; rfl)) hv
  | error n =>
    have he : t.numberValue = .error (.longInteger n) := by rw [numberValue, hvalue]; rfl
    by_cases hk : k = .number
    · subst hk
      refine .mended he rfl (a := .integer 0) ?_
      have hzero : NumberLiteral.value "0" = .ok (.integer 0) := by
        have hnumber : Text.decimalNumber "0".toList = 0 := by decide +kernel
        rw [NumberLiteral.value, if_neg (by decide), if_neg (by decide), hnumber]
      rw [mended, if_pos ⟨ht, by rw [hreadable, hvalue]; rfl⟩, if_neg nofun]
      simp only [numberValue, hzero]
      rfl
    · exact .kept (mended_of_ne (by rw [ht]; exact Ne.symm hk)) he rfl (Ne.symm hk)

end Token

/-- What is mended: literals of a kind, among tokens that stand at places. -/
structure Mending where
  /-- The kind of the literals. -/
  kind : TokenKind
  /-- Whether an origin is one of the places. -/
  place : Origin → Prop

section Mending

variable {mend : Mending}

/-- A fault of what has been read, at one of the places, or a literal of another kind. -/
def ModuleError.IsLate (mend : Mending) (e : ModuleError) : Prop :=
  (∃ f o, e = .faultAt f o ∧ f.isUnexpected = false ∧ mend.place o) ∨
    ∃ k, e.literal? = some k ∧ k ≠ mend.kind

theorem ModuleError.isUnexpected_of_literal? {e : ModuleError} {k : TokenKind}
    (h : e.literal? = some k) : e.isUnexpected = false := by
  cases e with
  | fault => cases h
  | unreadableString | longInteger => rfl

/-- **The second has been mended**: it is the first, unless that reports a literal without a value
of the kind, and reports none itself. -/
structure Checked.Mends (mend : Mending) {α : Type} (x x' : Checked α) : Prop where
  late : ∀ e, x' = .error e → e.IsLate mend
  eq : x' = x ∨ ∃ e, x = .error e ∧ e.literal? = some mend.kind

namespace Checked.Mends

variable {α β : Type} {x x' : Checked α} {f f' : α → Checked β}

theorem toLate (h : Mends mend x x') : Checked.Late x := by
  rintro e rfl
  obtain rfl | ⟨e', he, hkind⟩ := h.eq
  · obtain ⟨f, o, rfl, hf, -⟩ | ⟨k, hk, -⟩ := h.late e rfl
    · exact hf
    · exact e.isUnexpected_of_literal? hk
  · rw [Except.error.inj he]
    exact e'.isUnexpected_of_literal? hkind

theorem ok (a : α) : Mends mend (.ok a) (.ok a) := ⟨nofun, Or.inl rfl⟩

theorem pure (a : α) : Mends mend (Pure.pure a : Checked α) (Pure.pure a) := ok a

theorem fault {f : SyntaxFault} {o : Origin} (hf : f.isUnexpected = false) (ho : mend.place o) :
    Mends mend (.error (.faultAt f o) : Checked α) (.error (.faultAt f o)) := by
  refine ⟨?_, Or.inl rfl⟩
  rintro _ ⟨⟩
  exact Or.inl ⟨f, o, rfl, hf, ho⟩

theorem bind (hx : Mends mend x x') (hf : ∀ a, Mends mend (f a) (f' a)) :
    Mends mend (x >>= f) (x' >>= f') := by
  rcases x' with e | a
  · refine ⟨fun e' he' => hx.late e' ?_, hx.eq.imp ?_ ?_⟩
    · exact congrArg Except.error (Except.error.inj he')
    · rintro rfl
      rfl
    · rintro ⟨e, rfl, hkind⟩
      exact ⟨e, rfl, hkind⟩
  · refine ⟨(hf a).late, ?_⟩
    obtain rfl | ⟨e, rfl, hkind⟩ := hx.eq
    · exact (hf a).eq
    · exact Or.inr ⟨e, rfl, hkind⟩

theorem map {g : α → β} (hx : Mends mend x x') : Mends mend (x.map g) (x'.map g) :=
  hx.bind fun a => ok (g a)

theorem mapM {γ : Type} {R : γ → γ → Prop} {g g' : γ → Checked α} {xs xs' : List γ}
    (hxs : List.Forall₂ R xs xs') (hg : ∀ a a', R a a' → Mends mend (g a) (g' a')) :
    Mends mend (xs.mapM g) (xs'.mapM g') := by
  induction hxs with
  | nil => exact pure []
  | cons ha _ ih =>
    rw [List.mapM_cons, List.mapM_cons]
    exact (hg _ _ ha).bind fun _ => ih.bind fun _ => pure _

/-- What is the same on both sides needs to be looked at once. -/
theorem mapM_same {γ : Type} {g : γ → Checked α} {xs : List γ}
    (hg : ∀ a ∈ xs, Mends mend (g a) (g a)) : Mends mend (xs.mapM g) (xs.mapM g) := by
  induction xs with
  | nil => exact pure []
  | cons a xs ih =>
    rw [List.forall_mem_cons] at hg
    rw [List.mapM_cons]
    exact hg.1.bind fun _ => (ih hg.2).bind fun _ => pure _

/-- What is made of a literal is mended with it. -/
theorem literal [CharacterNames] {k : TokenKind} {f : Token → Checked α} {t : Token}
    (h : t.Comes mend.kind k f) : Mends mend (f t) (f (t.mended mend.kind)) := by
  cases h with
  | @value a ht h =>
    rw [ht, h]
    exact ok a
  | @kept e ht h he hk =>
    rw [ht]
    refine ⟨fun e' he' => Or.inr ⟨k, ?_, hk⟩, Or.inl rfl⟩
    rwa [← Except.error.inj (h.symm.trans he')]
  | @mended e a h he h' =>
    rw [h']
    exact ⟨nofun, Or.inr ⟨e, h, he⟩⟩

end Checked.Mends

/-! ### Readings -/

/-- **The second reading has been mended**: it starts and looks like the first, at places where a
fault can be. -/
structure Reading.Mends (mend : Mending) (r r' : Reading) : Prop where
  origin : r'.origin = r.origin
  shape : r'.shape = r.shape
  atPlace : mend.place r.origin
  items : ∀ items, r.shape = .group items → ∀ p ∈ items, mend.place p.1
  expr : Checked.Mends mend r.expr r'.expr

theorem Shape.mends_params {s : Shape} {params : Checked (List Identifier)}
    (hitems : ∀ items, s = .group items → ∀ p ∈ items, mend.place p.1)
    (h : s.params? = some params) :
    Checked.Mends mend params params := by
  cases s with
  | name id =>
    obtain rfl := Option.some.inj h
    exact .ok _
  | group items =>
    obtain rfl := Option.some.inj h
    refine .mapM_same fun (o, id?) hmem => ?_
    cases id? with
    | none => exact .fault rfl (hitems items rfl _ hmem)
    | some id => exact .ok id
  | other => cases h

namespace Reading.Mends

open Checked (Mends)

variable {r r' l l' c c' : Reading} {o : Origin} {t op : Token} {rs rs' : List Reading}

/-- What looks like nothing to an arrow. -/
theorem other {e e' : Checked Expr} (ho : mend.place o) (he : Checked.Mends mend e e') :
    Reading.Mends mend ⟨o, .other, e⟩ ⟨o, .other, e'⟩ := ⟨rfl, rfl, ho, nofun, he⟩

theorem name (ho : mend.place t.origin) : Reading.Mends mend (.name t) (.name t) :=
  ⟨rfl, rfl, ho, nofun, .ok _⟩

/-- A literal, with all that the tree keeps of it. -/
theorem literal [CharacterNames] {k : TokenKind} {f : Token → Checked LiteralValue}
    (h : t.Comes mend.kind k f) (ho : mend.place t.origin) :
    Reading.Mends mend (.literal t (f t))
      (.literal (t.mended mend.kind) (f (t.mended mend.kind))) :=
  ⟨Token.origin_mended mend.kind t, rfl, ho, nofun,
    .literal (h.map (g := fun t v => Expr.literal v t.text t.origin))⟩

theorem group (ho : mend.place o) (hrs : List.Forall₂ (Reading.Mends mend) rs rs') :
    Reading.Mends mend (.group o rs) (.group o rs') := by
  have hidentifier : ∀ {r r' : Reading}, Reading.Mends mend r r' →
      (r'.origin, r'.identifier?) = (r.origin, r.identifier?) := by
    intro r r' h
    rw [identifier?, identifier?, h.origin, h.shape]
  have hplaces : ∀ r ∈ rs, mend.place r.origin := by
    induction hrs with
    | nil => exact nofun
    | cons h _ ih => exact List.forall_mem_cons.2 ⟨h.atPlace, ih⟩
  refine ⟨rfl, ?_, ho, ?_, ?_⟩
  · refine congrArg Shape.group ?_
    induction hrs with
    | nil => rfl
    | cons h _ ih =>
      rw [List.map_cons, List.map_cons, hidentifier h, ih fun r hr => hplaces r (.tail _ hr)]
  · rintro _ ⟨⟩ p hp
    obtain ⟨r, hr, rfl⟩ := List.mem_map.1 hp
    exact hplaces r hr
  · cases hrs with
    | nil => exact .fault rfl ho
    | cons h hrs =>
      cases hrs with
      | nil => exact h.expr.map
      | cons => exact .fault rfl ho

theorem assign (hl : Reading.Mends mend l l') (hr : Reading.Mends mend r r') :
    Reading.Mends mend (l.assign op r) (l'.assign op r') := by
  refine ⟨hl.origin, rfl, hl.atPlace, nofun, ?_⟩
  unfold Reading.assign
  rw [hl.origin]
  refine hl.expr.bind fun e => ?_
  split
  · exact hr.expr.bind fun _ => .pure _
  · exact hr.expr.bind fun _ => .pure _
  · exact hr.expr.bind fun _ => .pure _
  · exact .fault rfl hl.atPlace

end Reading.Mends

/-! ### Readers -/

/-- **The second reader reads mended tokens as the first reads the tokens.** -/
def Parse.Mends [CharacterNames] (mend : Mending) {α : Type} (x x' : Parse α)
    (R : α → α → Prop) : Prop :=
  ∀ ts a rest, (∀ t ∈ ts, mend.place t.origin) → x ts = .ok (a, rest) →
    ∃ a', x' (ts.map (Token.mended mend.kind)) = .ok (a', rest.map (Token.mended mend.kind)) ∧
      R a a' ∧ rest <:+ ts

namespace Parse.Mends

variable {α β : Type} {x x' : Parse α} {f f' : α → Parse β} {R : α → α → Prop} {S : β → β → Prop}

theorem tooDeep [CharacterNames] : Mends mend (Parse.tooDeep : Parse α) Parse.tooDeep R :=
  fun _ _ _ _ h => absurd h not_tooDeep

theorem pure [CharacterNames] {a a' : α} (ha : R a a') :
    Mends mend (Pure.pure a) (Pure.pure a') R := by
  intro ts b rest _ h
  obtain ⟨rfl, rfl⟩ := pure_eq_ok.1 h
  exact ⟨a', rfl, ha, List.suffix_rfl⟩

theorem bind [CharacterNames] (hx : Mends mend x x' R)
    (hf : ∀ a a', R a a' → Mends mend (f a) (f' a') S) :
    Mends mend (x >>= f) (x' >>= f') S := by
  intro ts b rest hts h
  obtain ⟨a, mid, ha, hb⟩ := bind_eq_ok.1 h
  obtain ⟨a', ha', hR, hmid⟩ := hx _ _ _ hts ha
  obtain ⟨b', hb', hS, hrest⟩ := hf a a' hR _ _ _ (fun t ht => hts t (hmid.mem ht)) hb
  exact ⟨b', bind_eq_ok.2 ⟨a', _, ha', hb'⟩, hS, hrest.trans hmid⟩

/-- A look ahead sees kinds, which are the same. -/
theorem peek [CharacterNames] {f f' : Option TokenKind → Parse β}
    (hf : ∀ k, Mends mend (f k) (f' k) S) :
    Mends mend (Parse.peek >>= f) (Parse.peek >>= f') S := by
  intro ts b rest hts h
  have hhead : (ts.map (Token.mended mend.kind)).head?.map (·.kind) = ts.head?.map (·.kind) := by
    cases ts <;> simp
  rw [peek_bind] at h ⊢
  rw [hhead]
  exact hf _ ts b rest hts h

theorem accept [CharacterNames] {q : TokenKind → Bool} {f f' : Token → Parse β}
    (hf : ∀ t, q t.kind → mend.place t.origin → Mends mend (f t) (f' (t.mended mend.kind)) S) :
    Mends mend (Parse.accept q >>= f) (Parse.accept q >>= f') S := by
  intro ts b rest hts h
  obtain ⟨t, mid, rfl, hk, hb⟩ := accept_bind_eq_ok.1 h
  obtain ⟨ht, hmid⟩ := List.forall_mem_cons.1 hts
  obtain ⟨b', hb', hS, hrest⟩ := hf t hk ht _ _ _ hmid hb
  have hmended : q (t.mended mend.kind).kind := by rwa [Token.kind_mended]
  exact ⟨b', accept_bind_eq_ok.2 ⟨t.mended mend.kind, _, List.map_cons, hmended, hb'⟩, hS,
    hrest.trans (List.suffix_cons t mid)⟩

/-- A token that is no literal is the same. -/
theorem acceptSame [CharacterNames] {q : TokenKind → Bool} {f f' : Token → Parse β}
    (hq : (q .string || q .number) = false)
    (hf : ∀ t, q t.kind → mend.place t.origin → Mends mend (f t) (f' t) S) :
    Mends mend (Parse.accept q >>= f) (Parse.accept q >>= f') S := by
  refine accept fun t hk ht => ?_
  rw [Token.mended_of_isReadable (Token.isReadable_of_test hk hq)]
  exact hf t hk ht

theorem accepted [CharacterNames] {q : TokenKind → Bool} (hq : (q .string || q .number) = false) :
    Mends mend (Parse.accept q) (Parse.accept q) Eq := by
  have hbind : Mends mend (Parse.accept q >>= Pure.pure) (Parse.accept q >>= Pure.pure) Eq :=
    acceptSame hq fun _ _ _ => pure rfl
  rwa [bind_pure] at hbind

theorem expect [CharacterNames] {k : TokenKind} {f f' : Token → Parse β}
    (hk : k.mayFail = false)
    (hf : ∀ t, t.kind = k → mend.place t.origin → Mends mend (f t) (f' t) S) :
    Mends mend (Parse.expect k >>= f) (Parse.expect k >>= f') S := by
  refine acceptSame ?_ fun t ht => hf t (of_decide_eq_true ht)
  simp only [TokenKind.mayFail, Bool.or_eq_false_iff, decide_eq_false_iff_not] at hk ⊢
  exact ⟨Ne.symm hk.1, Ne.symm hk.2⟩

theorem literal [CharacterNames] {k : TokenKind} {f f' : Token → Parse β}
    (hf : ∀ t, t.kind = k → mend.place t.origin → Mends mend (f t) (f' (t.mended mend.kind)) S) :
    Mends mend (Parse.expect k >>= f) (Parse.expect k >>= f') S :=
  accept fun t ht => hf t (of_decide_eq_true ht)

theorem skip? [CharacterNames] {k : TokenKind} {f f' : Bool → Parse β}
    (hk : k.mayFail = false)
    (hf : ∀ b, Mends mend (f b) (f' b) S) :
    Mends mend (Parse.skip? k >>= f) (Parse.skip? k >>= f') S := by
  refine bind (R := Eq) ?_ fun a a' ha => ha ▸ hf a
  rw [Parse.skip?]
  refine peek fun k' => ?_
  split
  · exact expect hk fun _ _ _ => pure rfl
  · exact pure rfl

theorem moreItems [CharacterNames] (hx : Mends mend x x' R) {close : TokenKind} (trailing : Bool)
    (n : Nat) (hclose : close.mayFail = false) :
    Mends mend (moreItems x close trailing n) (Parse.moreItems x' close trailing n)
      (List.Forall₂ R) := by
  induction n with
  | zero => exact tooDeep
  | succ n ih =>
    rw [Parse.moreItems, Parse.moreItems]
    refine hx.bind fun a a' ha => skip? (by decide) fun b => ?_
    split
    · refine peek fun k => ?_
      split
      · exact expect hclose fun _ _ _ => pure (.cons ha .nil)
      · exact ih.bind fun as as' has => pure (.cons ha has)
    · exact expect hclose fun _ _ _ => pure (.cons ha .nil)

theorem items [CharacterNames] (hx : Mends mend x x' R) {close : TokenKind} (trailing : Bool)
    (n : Nat) (hclose : close.mayFail = false) :
    Mends mend (items x close trailing n) (Parse.items x' close trailing n)
      (List.Forall₂ R) := by
  rw [Parse.items, Parse.items]
  refine skip? hclose fun b => ?_
  split
  · exact pure .nil
  · exact hx.moreItems trailing n hclose

end Parse.Mends

open Checked (Mends)

/-! ### Imports and exports -/

/-- The same token, at a place. -/
def Token.Same (mend : Mending) {α : Type} (p p' : Token × α) : Prop :=
  p' = p ∧ mend.place p.1.origin

theorem Token.Same.forall₂ {α : Type} {ps ps' : List (Token × α)}
    (h : List.Forall₂ (Same mend) ps ps') : ps' = ps ∧ ∀ p ∈ ps, mend.place p.1.origin := by
  induction h with
  | nil => exact ⟨rfl, nofun⟩
  | cons hp _ ih => exact ⟨by rw [hp.1, ih.1], List.forall_mem_cons.2 ⟨hp.2, ih.2⟩⟩

theorem mends_readAlias [CharacterNames] {admits : TokenKind → Bool}
    (hadmits : (admits .string || admits .number) = false) :
    Parse.Mends mend (readAlias admits) (readAlias admits) (Token.Same mend) := by
  rw [readAlias]
  refine .acceptSame rfl fun t _ ht => .skip? rfl fun b => ?_
  split
  · exact .acceptSame hadmits fun _ _ _ => .pure ⟨rfl, ht⟩
  · exact .pure ⟨rfl, ht⟩

theorem mends_readImportSpecifier [CharacterNames] :
    Parse.Mends mend readImportSpecifier readImportSpecifier (Mends mend) := by
  rw [readImportSpecifier]
  refine (mends_readAlias rfl).bind ?_
  rintro ⟨t, alias?⟩ _ ⟨rfl, ht⟩
  dsimp only
  split
  · exact .pure (.fault rfl ht)
  · exact .pure (.ok _)

theorem mends_readImportRest [CharacterNames] (n : Nat) :
    Parse.Mends mend (readImportRest n) (readImportRest n) (Mends mend) := by
  rw [readImportRest]
  refine .skip? rfl fun b => ?_
  split
  · exact .expect rfl fun _ _ _ => .expect rfl fun _ _ _ => .pure (.ok _)
  · exact .expect rfl fun _ _ _ =>
      (mends_readImportSpecifier.items _ n rfl).bind fun ss ss' hss =>
      .pure (.mapM hss fun _ _ h => h)

theorem mends_readImportClause [CharacterNames] (n : Nat) :
    Parse.Mends mend (readImportClause n) (readImportClause n) (Mends mend) := by
  rw [readImportClause]
  refine .peek fun k => ?_
  split
  · refine .expect rfl fun t _ _ => .skip? rfl fun b => ?_
    split
    · exact (mends_readImportRest n).bind fun ss ss' hss => .pure (hss.bind fun _ => .pure _)
    · exact .pure (.ok _)
  · exact mends_readImportRest n

theorem mends_readSource [CharacterNames] : Parse.Mends mend readSource readSource fun t t' =>
    Mends mend t.stringValue t'.stringValue := by
  rw [readSource]
  exact .literal fun t ht _ => .expect rfl fun _ _ _ =>
    .pure (.literal (Token.comes_stringValue _ ht))

theorem mends_readImport [CharacterNames] (o : Origin) (n : Nat) :
    Parse.Mends mend (readImport o n) (readImport o n) (Mends mend) := by
  rw [readImport]
  refine .peek fun k => ?_
  split
  · exact mends_readSource.bind fun t t' ht => .pure (ht.bind fun _ => .pure _)
  · exact (mends_readImportClause n).bind fun ss ss' hss => .expect rfl fun _ _ _ =>
      mends_readSource.bind fun t t' ht => .pure (ht.bind fun _ => hss.bind fun _ => .pure _)

theorem mends_localExport {p : Token × ExportSpecifier} (hp : mend.place p.1.origin) :
    Mends mend (localExport p) (localExport p) := by
  obtain ⟨t, s⟩ := p
  rw [localExport]
  split
  · exact .fault rfl hp
  · exact .ok s

theorem mends_readExportSpecifier [CharacterNames] :
    Parse.Mends mend readExportSpecifier readExportSpecifier (Token.Same mend) := by
  rw [readExportSpecifier]
  refine (mends_readAlias rfl).bind ?_
  rintro ⟨t, alias?⟩ _ ⟨rfl, ht⟩
  exact .pure ⟨rfl, ht⟩

theorem mends_readExportList [CharacterNames] (o : Origin) (n : Nat) :
    Parse.Mends mend (readExportList o n) (readExportList o n) (Mends mend) := by
  rw [readExportList]
  refine (mends_readExportSpecifier.items _ n rfl).bind fun ss ss' hss => ?_
  obtain ⟨rfl, hplace⟩ := Token.Same.forall₂ hss
  refine .skip? rfl fun b => ?_
  split
  · exact mends_readSource.bind fun t t' ht => .pure (ht.bind fun _ => .pure _)
  · refine .expect rfl fun _ _ _ => .pure ?_
    exact Checked.Mends.bind (.mapM_same fun p hp => mends_localExport (hplace p hp))
      fun _ => .pure _

theorem mends_readExportAll [CharacterNames] (o : Origin) :
    Parse.Mends mend (readExportAll o) (readExportAll o) (Mends mend) := by
  rw [readExportAll]
  exact .expect rfl fun _ _ _ =>
    mends_readSource.bind fun t t' ht => .pure (ht.bind fun _ => .pure _)

/-! ### The descent -/

namespace ReadStmt

/-- The second statement has been mended. -/
def Mends (mend : Mending) : ReadStmt → ReadStmt → Prop
  | nothing o, nothing o' => o' = o
  | stmt s, stmt s' => Checked.Mends mend s s'
  | _, _ => False

theorem Mends.branch {r r' : ReadStmt} (h : r.Mends mend r') :
    Checked.Mends mend r.branch r'.branch := by
  cases r <;> cases r'
  · obtain rfl := h
    exact .ok _
  · cases h
  · cases h
  · exact h

theorem mends_body {rs rs' : List ReadStmt} (h : List.Forall₂ (Mends mend) rs rs') :
    Checked.Mends mend (body rs) (body rs') := by
  unfold body
  have hstmts : List.Forall₂ (Checked.Mends mend) (rs.filterMap stmt?) (rs'.filterMap stmt?) := by
    induction h with
    | nil => exact .nil
    | @cons r r' _ _ hr _ ih =>
      cases r <;> cases r'
      · exact ih
      · cases hr
      · cases hr
      · exact .cons hr ih
  exact .mapM hstmts fun _ _ hs => hs

end ReadStmt

theorem mends_readChoice {o : Origin} {test test' : Reading} {c c' : ReadStmt}
    {a a' : Option ReadStmt} (htest : test.Mends mend test') (hc : c.Mends mend c')
    (ha : Option.Rel (ReadStmt.Mends mend) a a') :
    Mends mend (readChoice o test c a) (readChoice o test' c' a') := by
  rw [readChoice, readChoice]
  refine htest.expr.bind fun _ => hc.branch.bind fun _ => ?_
  cases ha with
  | none => exact .pure _
  | some ha => exact ha.branch.bind fun _ => .pure _

/-- What the body of an arrow is mended to. -/
def MendsBody (mend : Mending) : Checked Expr ⊕ Checked Block → Checked Expr ⊕ Checked Block →
    Prop :=
  Sum.LiftRel (Mends mend) (Mends mend)

theorem Reading.mends_arrow {o : Origin} {params : Checked (List Identifier)}
    {body body' : Checked Expr ⊕ Checked Block} (ho : mend.place o)
    (hparams : Checked.Mends mend params params)
    (hbody : MendsBody mend body body') :
    Reading.Mends mend (.arrow o params body) (.arrow o params body') := by
  refine .other ho (hparams.bind fun ids => ?_)
  cases hbody with
  | inl h => exact Checked.Mends.bind h fun _ => .pure _
  | inr h => exact Checked.Mends.bind h fun _ => .pure _

/-- At this bound on the depth the readers read mended tokens as they read the tokens. -/
structure MendsAll [CharacterNames] (mend : Mending) (n : Nat) : Prop where
  expr : Parse.Mends mend (readExpr n) (readExpr n) (Reading.Mends mend)
  arrowBody : Parse.Mends mend (readArrowBody n) (readArrowBody n) (MendsBody mend)
  conditional : Parse.Mends mend (readConditional n) (readConditional n) (Reading.Mends mend)
  binary (l : Nat) : Parse.Mends mend (readBinary n l) (readBinary n l) (Reading.Mends mend)
  operators (l : Nat) {left left' : Reading} (hleft : left.Mends mend left') :
    Parse.Mends mend (readOperators n l left) (readOperators n l left') (Reading.Mends mend)
  unary : Parse.Mends mend (readUnary n) (readUnary n) (Reading.Mends mend)
  suffixes {left left' : Reading} (hleft : left.Mends mend left') :
    Parse.Mends mend (readSuffixes n left) (readSuffixes n left') (Reading.Mends mend)
  primary : Parse.Mends mend (readPrimary n) (readPrimary n) (Reading.Mends mend)
  property : Parse.Mends mend (readProperty n) (readProperty n) (Mends mend)
  block : Parse.Mends mend (readBlock n) (readBlock n) (Mends mend)
  untilBrace : Parse.Mends mend (readUntilBrace n) (readUntilBrace n)
    (List.Forall₂ (ReadStmt.Mends mend))
  declarator : Parse.Mends mend (readDeclarator n) (readDeclarator n) (Mends mend)
  declarators : Parse.Mends mend (readDeclarators n) (readDeclarators n)
    (List.Forall₂ (Mends mend))
  variableDecl : Parse.Mends mend (readVariables n) (readVariables n) (Mends mend)
  functionDecl : Parse.Mends mend (readFunction n) (readFunction n) (Mends mend)
  exported (o : Origin) : Parse.Mends mend (readExport n o) (readExport n o) (Mends mend)
  alternate : Parse.Mends mend (readElse n) (readElse n) (Option.Rel (ReadStmt.Mends mend))
  stmt : Parse.Mends mend (readStmt n) (readStmt n) (ReadStmt.Mends mend)

namespace MendsAll

variable {n : Nat}

theorem readExpr_succ [CharacterNames] (h : MendsAll mend n) :
    Parse.Mends mend (readExpr (n + 1)) (readExpr (n + 1)) (Reading.Mends mend) := by
  rw [readExpr]
  refine h.conditional.bind fun left left' hleft => .peek fun k => ?_
  rw [hleft.shape, hleft.origin]
  split
  · split
    · rename_i params hparams
      exact .expect rfl fun _ _ _ => h.arrowBody.bind fun body body' hbody =>
        .pure (Reading.mends_arrow hleft.atPlace (Shape.mends_params hleft.items hparams) hbody)
    · exact .pure hleft
  · split
    · exact .acceptSame rfl fun op _ _ => h.expr.bind fun value value' hvalue =>
        .pure (hleft.assign hvalue)
    · exact .pure hleft
  · exact .pure hleft

theorem readArrowBody_succ [CharacterNames] (h : MendsAll mend n) :
    Parse.Mends mend (readArrowBody (n + 1)) (readArrowBody (n + 1)) (MendsBody mend) := by
  rw [readArrowBody]
  refine .peek fun k => ?_
  split
  · exact h.block.bind fun b b' hb => .pure (.inr hb)
  · exact h.expr.bind fun e e' he => .pure (.inl he.expr)

theorem readConditional_succ [CharacterNames] (h : MendsAll mend n) :
    Parse.Mends mend (readConditional (n + 1)) (readConditional (n + 1)) (Reading.Mends mend) := by
  rw [readConditional]
  refine (h.binary _).bind fun test test' htest => .skip? rfl fun b => ?_
  split
  · refine h.expr.bind fun c c' hc => .expect rfl fun _ _ _ => h.expr.bind fun a a' ha => .pure ?_
    rw [Reading.conditional, Reading.conditional, htest.origin]
    exact .other htest.atPlace
      (htest.expr.bind fun _ => hc.expr.bind fun _ => ha.expr.bind fun _ => .pure _)
  · exact .pure htest

theorem readBinary_succ [CharacterNames] (h : MendsAll mend n) (l : Nat) :
    Parse.Mends mend (readBinary (n + 1) l) (readBinary (n + 1) l) (Reading.Mends mend) := by
  cases l with
  | zero =>
    rw [readBinary]
    exact h.unary
  | succ l =>
    rw [readBinary]
    exact (h.binary l).bind fun left left' hleft => h.operators l hleft

theorem readOperators_succ [CharacterNames] (h : MendsAll mend n) (l : Nat) {left left' : Reading}
    (hleft : left.Mends mend left') :
    Parse.Mends mend (readOperators (n + 1) l left) (readOperators (n + 1) l left')
      (Reading.Mends mend) := by
  rw [readOperators, readOperators]
  refine .peek fun k => ?_
  split
  · refine .acceptSame rfl fun op _ _ => (h.binary l).bind fun right right' hright =>
      h.operators l ?_
    rw [Reading.binary, Reading.binary, hleft.origin]
    exact .other hleft.atPlace (hleft.expr.bind fun _ => hright.expr.bind fun _ => .pure _)
  · exact .pure hleft

theorem readUnary_succ [CharacterNames] (h : MendsAll mend n) :
    Parse.Mends mend (readUnary (n + 1)) (readUnary (n + 1)) (Reading.Mends mend) := by
  rw [readUnary]
  refine .peek fun k => ?_
  split
  · exact .acceptSame rfl fun op _ hop => h.unary.bind fun r r' hr =>
      .pure (.other hop (hr.expr.bind fun _ => .pure _))
  · exact h.primary.bind fun left left' hleft => h.suffixes hleft

theorem readSuffixes_succ [CharacterNames] (h : MendsAll mend n) {left left' : Reading}
    (hleft : left.Mends mend left') :
    Parse.Mends mend (readSuffixes (n + 1) left) (readSuffixes (n + 1) left')
      (Reading.Mends mend) := by
  rw [readSuffixes, readSuffixes]
  refine .peek fun k => ?_
  split
  · refine .expect rfl fun _ _ _ => .expect rfl fun t _ _ => h.suffixes ?_
    rw [Reading.member, Reading.member, hleft.origin]
    exact .other hleft.atPlace (hleft.expr.bind fun _ => .pure _)
  · refine .expect rfl fun _ _ _ =>
      h.expr.bind fun i i' hi => .expect rfl fun _ _ _ => h.suffixes ?_
    rw [Reading.index, Reading.index, hleft.origin]
    exact .other hleft.atPlace (hleft.expr.bind fun _ => hi.expr.bind fun _ => .pure _)
  · refine .expect rfl fun _ _ _ =>
      (h.expr.items _ n rfl).bind fun args args' hargs => h.suffixes ?_
    rw [Reading.call, Reading.call, hleft.origin]
    exact .other hleft.atPlace
      (hleft.expr.bind fun _ => (Mends.mapM hargs fun _ _ ha => ha.expr).bind fun _ => .pure _)
  · exact .pure hleft

theorem readPrimary_succ [CharacterNames] (h : MendsAll mend n) :
    Parse.Mends mend (readPrimary (n + 1)) (readPrimary (n + 1)) (Reading.Mends mend) := by
  rw [readPrimary]
  refine .peek fun k => ?_
  split
  · refine .literal fun t ht ho => .pure ?_
    exact .literal ((Token.comes_stringValue _ ht).map (g := fun _ => .text)) ho
  · exact .literal fun t ht ho => .pure (.literal (Token.comes_numberValue _ ht) ho)
  · exact .expect rfl fun t _ ho => .pure (.other ho (.ok _))
  · exact .expect rfl fun t _ ho => .pure (.other ho (.ok _))
  · exact .expect rfl fun t _ ho => .pure (.other ho (.ok _))
  · exact .expect rfl fun t _ ho => (h.expr.items _ n rfl).bind fun rs rs' hrs => .pure
      (.other ho ((Mends.mapM hrs fun _ _ hr => hr.expr).bind fun _ => .pure _))
  · exact .expect rfl fun t _ ho => (h.property.items _ n rfl).bind fun ps ps' hps => .pure
      (.other ho ((Mends.mapM hps fun _ _ hp => hp).bind fun _ => .pure _))
  · exact .expect rfl fun t _ ho =>
      (h.expr.items _ n rfl).bind fun rs rs' hrs => .pure (.group ho hrs)
  · exact .acceptSame rfl fun t _ ho => .pure (.name ho)

theorem readProperty_succ [CharacterNames] (h : MendsAll mend n) :
    Parse.Mends mend (readProperty (n + 1)) (readProperty (n + 1)) (Mends mend) := by
  rw [readProperty]
  refine .peek fun k => ?_
  split
  · refine .literal fun t ht _ => .expect rfl fun _ _ _ =>
      h.expr.bind fun value value' hvalue => .pure ?_
    rw [Token.origin_mended]
    exact hvalue.expr.bind fun _ => (Mends.literal (Token.comes_stringValue _ ht)).bind fun _ =>
      .pure _
  · refine .acceptSame rfl fun t _ _ => .skip? rfl fun b => ?_
    split
    · exact h.expr.bind fun value value' hvalue => .pure (hvalue.expr.bind fun _ => .pure _)
    · exact .pure (.ok _)

theorem readBlock_succ [CharacterNames] (h : MendsAll mend n) :
    Parse.Mends mend (readBlock (n + 1)) (readBlock (n + 1)) (Mends mend) := by
  rw [readBlock]
  exact .expect rfl fun t _ _ => h.untilBrace.bind fun rs rs' hrs =>
    .pure ((ReadStmt.mends_body hrs).bind fun _ => .pure _)

theorem readUntilBrace_succ [CharacterNames] (h : MendsAll mend n) :
    Parse.Mends mend (readUntilBrace (n + 1)) (readUntilBrace (n + 1))
      (List.Forall₂ (ReadStmt.Mends mend)) := by
  rw [readUntilBrace]
  refine .skip? rfl fun b => ?_
  split
  · exact .pure .nil
  · exact h.stmt.bind fun r r' hr => h.untilBrace.bind fun rs rs' hrs => .pure (.cons hr hrs)

theorem readDeclarator_succ [CharacterNames] (h : MendsAll mend n) :
    Parse.Mends mend (readDeclarator (n + 1)) (readDeclarator (n + 1)) (Mends mend) := by
  rw [readDeclarator]
  refine .acceptSame rfl fun t _ _ => .skip? rfl fun b => ?_
  split
  · exact h.expr.bind fun value value' hvalue => .pure (hvalue.expr.bind fun _ => .pure _)
  · exact .pure (.ok _)

theorem readDeclarators_succ [CharacterNames] (h : MendsAll mend n) :
    Parse.Mends mend (readDeclarators (n + 1)) (readDeclarators (n + 1))
      (List.Forall₂ (Mends mend)) := by
  rw [readDeclarators]
  refine h.declarator.bind fun d d' hd => .skip? rfl fun b => ?_
  split
  · exact h.declarators.bind fun ds ds' hds => .pure (.cons hd hds)
  · exact .pure (.cons hd .nil)

theorem readVariables_succ [CharacterNames] (h : MendsAll mend n) :
    Parse.Mends mend (readVariables (n + 1)) (readVariables (n + 1)) (Mends mend) := by
  rw [readVariables]
  exact .acceptSame rfl fun t _ _ => h.declarators.bind fun ds ds' hds => .expect rfl fun _ _ _ =>
    .pure ((Mends.mapM hds fun _ _ hd => hd).bind fun _ => .pure _)

theorem readFunction_succ [CharacterNames] (h : MendsAll mend n) :
    Parse.Mends mend (readFunction (n + 1)) (readFunction (n + 1)) (Mends mend) := by
  rw [readFunction]
  refine .expect rfl fun t _ _ => .acceptSame rfl fun name _ _ => .expect rfl fun _ _ _ => ?_
  refine ((Parse.Mends.accepted rfl).items _ n rfl).bind fun params params' hparams => ?_
  rw [List.forall₂_eq_eq_eq] at hparams
  rw [← hparams]
  exact h.block.bind fun b b' hb => .pure (hb.bind fun _ => .pure _)

theorem readExport_succ [CharacterNames] (h : MendsAll mend n) (o : Origin) :
    Parse.Mends mend (readExport (n + 1) o) (readExport (n + 1) o) (Mends mend) := by
  rw [readExport]
  refine .peek fun k => ?_
  split
  · exact .expect rfl fun _ _ _ => mends_readExportList o n
  · exact .expect rfl fun _ _ _ => mends_readExportAll o
  · exact h.functionDecl.bind fun d d' hd => .pure (hd.bind fun _ => .pure _)
  · exact .expect rfl fun _ _ _ => h.expr.bind fun value value' hvalue => .expect rfl fun _ _ _ =>
      .pure (hvalue.expr.bind fun _ => .pure _)
  · exact h.variableDecl.bind fun d d' hd => .pure (hd.bind fun _ => .pure _)

theorem readElse_succ [CharacterNames] (h : MendsAll mend n) :
    Parse.Mends mend (readElse (n + 1)) (readElse (n + 1)) (Option.Rel (ReadStmt.Mends mend)) := by
  rw [readElse]
  refine .skip? rfl fun b => ?_
  split
  · exact h.stmt.bind fun r r' hr => .pure (.some hr)
  · exact .pure .none

theorem readStmt_succ [CharacterNames] (h : MendsAll mend n) :
    Parse.Mends mend (readStmt (n + 1)) (readStmt (n + 1)) (ReadStmt.Mends mend) := by
  rw [readStmt]
  refine .peek fun k => ?_
  split
  · exact .expect rfl fun _ _ _ => .pure rfl
  · exact .expect rfl fun t _ _ => (mends_readImport _ n).bind fun s s' hs => .pure hs
  · exact .expect rfl fun t _ _ => (h.exported _).bind fun s s' hs => .pure hs
  · exact h.functionDecl.bind fun d d' hd => .pure (Checked.Mends.map hd)
  · exact h.variableDecl.bind fun d d' hd => .pure (Checked.Mends.map hd)
  · exact h.variableDecl.bind fun d d' hd => .pure (Checked.Mends.map hd)
  · exact h.variableDecl.bind fun d d' hd => .pure (Checked.Mends.map hd)
  · exact h.block.bind fun b b' hb => .pure (Checked.Mends.map hb)
  · refine .expect rfl fun t _ _ => .skip? rfl fun b => ?_
    split
    · exact .pure (Checked.Mends.ok _)
    · exact h.expr.bind fun value value' hvalue => .expect rfl fun _ _ _ =>
        .pure (Checked.Mends.map hvalue.expr)
  · exact .expect rfl fun t _ _ => .expect rfl fun _ _ _ => h.expr.bind fun test test' htest =>
      .expect rfl fun _ _ _ => h.stmt.bind fun c c' hc => h.alternate.bind fun a a' ha =>
        .pure (mends_readChoice htest hc ha)
  · refine h.expr.bind fun value value' hvalue => .expect rfl fun _ _ _ => .pure ?_
    rw [hvalue.origin]
    exact Checked.Mends.map hvalue.expr

end MendsAll

/-- At every bound the readers read mended tokens as they read the tokens. -/
theorem mendsAll [CharacterNames] (mend : Mending) (n : Nat) : MendsAll mend n := by
  induction n with
  | zero =>
    constructor
    case binary => exact fun l => .tooDeep
    case operators => exact fun l _ _ _ => .tooDeep
    case suffixes => exact fun _ => .tooDeep
    case exported => exact fun o => .tooDeep
    all_goals exact .tooDeep
  | succ n h =>
    exact
      { expr := h.readExpr_succ
        arrowBody := h.readArrowBody_succ
        conditional := h.readConditional_succ
        binary := h.readBinary_succ
        operators := h.readOperators_succ
        unary := h.readUnary_succ
        suffixes := h.readSuffixes_succ
        primary := h.readPrimary_succ
        property := h.readProperty_succ
        block := h.readBlock_succ
        untilBrace := h.readUntilBrace_succ
        declarator := h.readDeclarator_succ
        declarators := h.readDeclarators_succ
        variableDecl := h.readVariables_succ
        functionDecl := h.readFunction_succ
        exported := h.readExport_succ
        alternate := h.readElse_succ
        stmt := h.readStmt_succ }

/-- **Mended tokens are read as the tokens are**, but for the faults of strings. -/
theorem mends_readStatements [CharacterNames] (mend : Mending) (n : Nat) :
    Parse.Mends mend (readStatements n) (readStatements n) fun rs rs' =>
      Mends mend (ReadStmt.body rs) (ReadStmt.body rs') := by
  have hall : ∀ n, Parse.Mends mend (readStatements n) (readStatements n)
      (List.Forall₂ (ReadStmt.Mends mend)) := by
    intro n
    induction n with
    | zero => exact .tooDeep
    | succ n ih =>
      rw [readStatements]
      refine .peek fun k => ?_
      split
      · exact .pure .nil
      · exact (mendsAll mend n).stmt.bind fun r r' hr => ih.bind fun rs rs' hrs =>
          .pure (.cons hr hrs)
  intro ts rs rest hts h
  obtain ⟨rs', hrs', hmends, hrest⟩ := hall n ts rs rest hts h
  exact ⟨rs', hrs', ReadStmt.mends_body hmends, hrest⟩

end Mending

end MessageBinder
