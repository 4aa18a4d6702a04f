import Mathlib.Data.List.Chain
import MessageBinder.Proofs.Token.Cutting

/-!
# Tokens that are glued

ECMAScript reads two equal signs with nothing between them as one token, an increment or a
decrement, and a dot behind an integer as the point of a number. The lexer here knows no such
tokens, so a text that holds them is read without a complaint, as something else. Two tokens that
are read so are
*glued* (`MessageBinder.Token.glues`).

Whether tokens are glued is told piece by piece along a text. All that a piece has to know of what
is in front of it is the *edge* there (`MessageBinder.Edge`): a sign, an integer, or nothing that
matters, as behind a blank. `MessageBinder.Abuts` says of a piece when nothing in it is glued and
which edge it leaves.
-/

namespace MessageBinder

/-! ### Glued tokens -/

/-- Whether a token is an integer: a number without a point and an exponent. -/
def Token.isInteger (t : Token) : Bool :=
  t.kind = .number && !t.text.toList.any NumberLiteral.isFloatMark

/-- **Whether a token is glued to the next one**: nothing stands between them, and they are two
equal signs, or an integer and a dot. -/
def Token.glues (t u : Token) : Bool :=
  u.origin.id = t.origin.id + t.text.length &&
    ((t.kind = .plus || t.kind = .minus) && u.kind = t.kind || t.isInteger && u.kind = .dot)

/-- No token is glued to the next one. -/
def AreUnglued (ts : List Token) : Prop := ts.IsChain fun t u => t.glues u = false

instance (ts : List Token) : Decidable (AreUnglued ts) :=
  inferInstanceAs (Decidable (ts.IsChain fun t u => t.glues u = false))

/-! ### Edges -/

/-- What stands directly in front of a place, as far as a token there can be glued to it. -/
inductive Edge where
  /-- Nothing that a token can be glued to. -/
  | clear
  /-- A plus. -/
  | plus
  /-- A minus. -/
  | minus
  /-- An integer. -/
  | integer

namespace Edge

/-- The edge behind a lexeme. -/
def behind (w : List Char) : TokenKind → Edge
  | .plus => .plus
  | .minus => .minus
  | .number => if w.any NumberLiteral.isFloatMark then .clear else .integer
  | _ => .clear

/-- Whether a token of this kind is glued to what stands directly in front of it. -/
def meets : Edge → TokenKind → Bool
  | .plus, .plus | .minus, .minus | .integer, .dot => true
  | _, _ => false

/-- A kind of token that is glued to nothing in front of it. -/
theorem meets_eq_false {k : TokenKind} (h : k ≠ .plus ∧ k ≠ .minus ∧ k ≠ .dot) (e : Edge) :
    e.meets k = false := by
  unfold meets
  split
  · exact absurd rfl h.1
  · exact absurd rfl h.2.1
  · exact absurd rfl h.2.2
  · rfl

theorem meets_ofWord (e : Edge) (s : String) : e.meets (.ofWord s) = false := by
  refine meets_eq_false ?_ e
  have hword := TokenKind.isWord_ofWord s
  refine ⟨?_, ?_, ?_⟩ <;> intro hk <;> rw [hk] at hword <;> exact hword.elim nofun nofun

theorem behind_of_isWord {k : TokenKind} (h : k.isWord) (w : List Char) : behind w k = .clear := by
  cases k <;> first | rfl | cases h

theorem behind_ofWord (w : List Char) (s : String) : behind w (.ofWord s) = .clear := by
  rcases TokenKind.isWord_ofWord s with h | h
  · exact behind_of_isWord h w
  · rw [h]
    rfl

end Edge

theorem Token.glues_eq (t u : Token) : t.glues u
    = (decide (u.origin.id = t.origin.id + t.text.length) &&
        (Edge.behind t.text.toList t.kind).meets u.kind) := by
  unfold glues isInteger
  congr 1
  cases hk : t.kind
  case number =>
    cases hmark : t.text.toList.any NumberLiteral.isFloatMark <;>
      cases u.kind <;> simp [Edge.behind, Edge.meets, hmark]
  all_goals cases u.kind <;> rfl

/-- No token is glued to the next one, nor the first to an edge at a place. -/
def AreUngluedFrom (e : Edge) (i : Nat) (ts : List Token) : Prop :=
  (∀ t ∈ ts.head?, t.origin.id = i → e.meets t.kind = false) ∧ AreUnglued ts

section UngluedFrom

variable {e e' : Edge} {i j : Nat} {t : Token} {ts : List Token}

@[simp] theorem areUngluedFrom_nil : AreUngluedFrom e i [] := ⟨nofun, .nil⟩

theorem areUngluedFrom_cons : AreUngluedFrom e i (t :: ts) ↔
    (t.origin.id = i → e.meets t.kind = false) ∧
      AreUngluedFrom (.behind t.text.toList t.kind) (t.origin.id + t.text.length) ts := by
  simp only [AreUngluedFrom, AreUnglued, List.isChain_cons, Token.glues_eq, List.head?_cons,
    Option.mem_some_iff, forall_eq', Bool.and_eq_false_imp, decide_eq_true_eq]

theorem areUngluedFrom_clear : AreUngluedFrom .clear i ts ↔ AreUnglued ts :=
  ⟨And.right, fun h => ⟨fun _ _ _ => rfl, h⟩⟩

/-- What meets no first token does not matter. -/
theorem areUngluedFrom_of_head? (h : ∀ t ∈ ts.head?, t.origin.id = i → e.meets t.kind = false) :
    AreUngluedFrom e i ts ↔ AreUnglued ts := ⟨And.right, fun hts => ⟨h, hts⟩⟩

end UngluedFrom

/-! ### Reading behind an edge -/

namespace Lexer

/-- No token of a text is glued to the next one, nor the first to what is in front. -/
def Unglued (e : Edge) (o : Origin) (cs : List Char) : Prop :=
  AreUngluedFrom e o.id (scan o cs).tokens

variable {e : Edge} {o : Origin} {cs rest w : List Char} {k : TokenKind}

theorem unglued_front (h : Front k w rest) : Unglued e o (w ++ rest) ↔
    e.meets k = false ∧ Unglued (.behind w k) (o.advance w) rest := by
  rw [Unglued, scan_front h, Tokens.behind, List.singleton_append, areUngluedFrom_cons]
  simp only [forall_const, String.toList_ofList, String.length_ofList, Unglued, Origin.advance_id]

/-- Behind a blank nothing in front matters. -/
theorem unglued_blank {c : Char} (hc : isBlank c) :
    Unglued e o (c :: cs) ↔ Unglued .clear (o.next c) cs := by
  have hid : (o.next c).id = o.id + 1 := Origin.advance_id o [c]
  rw [Unglued, Unglued, areUngluedFrom_clear, scan_blank hc]
  refine areUngluedFrom_of_head? fun t ht hplace => ?_
  have hnumber := ((scan_numbers (o.next c) cs).2 t (List.mem_of_mem_head? ht)).1
  omega

/-- A dot at the place where reading starts is the first character. -/
theorem head?_of_scan_dot {t : Token} (ht : t ∈ (scan o cs).tokens.head?)
    (hplace : t.origin.id = o.id) (hk : t.kind = .dot) : cs.head? = some '.' := by
  cases cs with
  | nil => simp [scan] at ht
  | cons c cs =>
    rw [scan] at ht
    split at ht
    · rename_i n hgap
      have hnumber := ((scan_numbers _ _).2 t (List.mem_of_mem_head? ht)).1
      rw [Origin.advance_id, List.length_cons] at hnumber
      omega
    · split at ht
      · rename_i k n htoken
        obtain rfl : _ = t := Option.some.inj ht
        obtain rfl : k = .dot := hk
        exact congrArg some (List.cons.inj (token?_writes htoken)).1
      · cases ht

/-- An integer does not matter where no dot is. -/
theorem unglued_integer (h : cs.head? ≠ some '.') :
    Unglued .integer o cs ↔ Unglued .clear o cs := by
  rw [Unglued, Unglued, areUngluedFrom_clear]
  refine areUngluedFrom_of_head? fun t ht hplace => ?_
  by_cases hk : t.kind = .dot
  · exact absurd (head?_of_scan_dot ht hplace hk) h
  · cases hkind : t.kind <;> first | rfl | exact absurd hkind hk

end Lexer

/-! ### Pieces of a text -/

/-- **What a piece of a text adds**: with `e` in front of it and `rest` behind it, nothing is glued
exactly if `P` holds and nothing is glued in the rest with `e'` in front. -/
def Abuts (e : Edge) (cs rest : List Char) (e' : Edge) (P : Prop) : Prop :=
  ∀ o, Lexer.Unglued e o (cs ++ rest) ↔ P ∧ Lexer.Unglued e' (o.advance cs) rest

namespace Abuts

variable {e e' e'' : Edge} {cs cs' rest w : List Char} {k k' : TokenKind} {P Q : Prop}

theorem nil : Abuts e [] rest e True := fun _ => (Iff.of_eq (true_and _)).symm

theorem iff (h : Abuts e cs rest e' P) (hPQ : P ↔ Q) : Abuts e cs rest e' Q :=
  fun o => (h o).trans (and_congr_left' hPQ)

/-- One piece behind another. -/
theorem append (h : Abuts e cs (cs' ++ rest) e' P) (h' : Abuts e' cs' rest e'' Q) :
    Abuts e (cs ++ cs') rest e'' (P ∧ Q) := by
  intro o
  rw [List.append_assoc, h o, h' _, Origin.advance, Origin.advance, Origin.advance,
    List.foldl_append, and_assoc]

/-- A piece behind one in which nothing can be glued. -/
theorem follow (h : Abuts e cs (cs' ++ rest) e' True) (h' : Abuts e' cs' rest e'' Q) :
    Abuts e (cs ++ cs') rest e'' Q := (h.append h').iff (Iff.of_eq (true_and Q))

/-- A piece in front of one in which nothing can be glued. -/
theorem lead (h : Abuts e cs (cs' ++ rest) e' P) (h' : Abuts e' cs' rest e'' True) :
    Abuts e (cs ++ cs') rest e'' P := (h.append h').iff (Iff.of_eq (and_true P))

theorem blank (h : Abuts .clear cs rest e' P) : Abuts e (' ' :: cs) rest e' P :=
  fun _ => (Lexer.unglued_blank rfl).trans (h _)

theorem blanks (n : Nat) (h : Abuts .clear cs rest e' P) :
    Abuts .clear (List.replicate n ' ' ++ cs) rest e' P := by
  induction n with
  | zero => exact h
  | succ n ih => exact ih.blank

/-- What an integer leaves does not matter where no dot is. -/
theorem clear (h : Abuts e cs rest .integer P) (hdot : rest.head? ≠ some '.') :
    Abuts e cs rest .clear P :=
  fun o => (h o).trans (and_congr_right fun _ => Lexer.unglued_integer hdot)

theorem lexeme (h : Lexer.Front k w rest) : Abuts e w rest (.behind w k) (e.meets k = false) :=
  fun _ => Lexer.unglued_front h

/-- A lexeme that is glued to nothing in front of it. -/
theorem plain (h : Lexer.Front k w rest) (hk : e.meets k = false) :
    Abuts e w rest (.behind w k) True := (lexeme h).iff (iff_true_intro hk)

theorem name (h : IsName w) (hrest : Lexer.Apart rest) : Abuts e w rest .clear True := by
  have habuts := plain (e := e) (Lexer.front_of_isName h hrest) (e.meets_ofWord _)
  rwa [Edge.behind_ofWord] at habuts

theorem word (h : k.isWord) (hrest : Lexer.Apart rest) :
    Abuts e k.spelling.toList rest .clear True := name (Lexer.isName_spelling h) hrest

theorem quoted (s : CodeText) : Abuts e (Text.quoted .unicode s).written rest .clear True :=
  plain (Lexer.front_quoted s rest) (e.meets_eq_false (by decide))

/-- A symbol that is a lexeme before anything. -/
theorem closed (hk : k.isClosed) (hdot : k ≠ .dot) :
    Abuts e k.spelling.toList rest .clear True := by
  have hkind : k ≠ .plus ∧ k ≠ .minus ∧ (∀ w, Edge.behind w k = .clear) := by
    cases k <;> first | exact ⟨nofun, nofun, fun _ => rfl⟩ | cases hk
  have habuts := plain (e := e) (Lexer.front_closed hk rest)
    (e.meets_eq_false ⟨hkind.1, hkind.2.1, hdot⟩)
  rwa [hkind.2.2] at habuts

/-- A symbol before a blank, and what follows. -/
theorem symbol (hk : k.isSymbol) (h : Abuts .clear cs rest e' P) :
    Abuts .clear (k.spelling.toList ++ ' ' :: cs) rest e' P :=
  follow (plain (Lexer.front_symbol_blank hk _) rfl) h.blank

theorem newline (h : Abuts .clear cs rest e' P) : Abuts .clear ('\n' :: cs) rest e' P := by
  have hfront : Lexer.Front .newline ['\n'] (cs ++ rest) := ⟨'\n', [], rfl, rfl, rfl⟩
  have hend : Abuts .clear ['\n'] (cs ++ rest) .clear True := plain hfront rfl
  exact hend.follow h

theorem semicolon : Abuts e [';'] rest .clear True := closed (k := .semicolon) rfl nofun

/-- What stands in brackets. -/
theorem enclosed (hk : k.closing? = some k')
    (h : Abuts .clear cs (k'.spelling.toList ++ rest) .clear P) :
    Abuts e (k.spelling.toList ++ (cs ++ k'.spelling.toList)) rest .clear P := by
  have hkind : k.isClosed ∧ k'.isClosed ∧ k ≠ .dot ∧ k' ≠ .dot := by
    cases k <;> cases hk <;> exact ⟨rfl, rfl, nofun, nofun⟩
  exact (closed hkind.1 hkind.2.2.1).follow (h.lead (closed hkind.2.1 hkind.2.2.2))

end Abuts

end MessageBinder
