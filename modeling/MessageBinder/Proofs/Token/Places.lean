import Mathlib.Data.List.DropRight
import Mathlib.Data.List.Forall2
import MessageBinder.Proofs.Token.Conservation

/-!
# Lines and columns

The lexer steps from one place to the next and never looks back; line and column are the trace that
the steps leave. Here they are told by the text alone (`MessageBinder.Origin.advance_start`): the
line counts the line feeds in front, the column the characters since the last of them. So a place in
front of another has fewer characters before it, and the numbers of places, which only count
characters, tell the order of lines and columns too (`MessageBinder.Origin.before_of_id_lt`).

What is read at a place stands there in the text (`MessageBinder.Lexer.scan_stands`). Settling the
ends of the statements reads some tokens as ones of another kind, and those keep text and place
(`MessageBinder.Tokens.retyped_ofText`).
-/

namespace MessageBinder

namespace Origin

/-- The line and the column of a place. -/
def position (o : Origin) : Nat × Nat := (o.line, o.column)

/-- Whether a place comes before another, by line and column. -/
def Before (o o' : Origin) : Prop := o.line < o'.line ∨ o.line = o'.line ∧ o.column < o'.column

theorem Before.trans {o o' o'' : Origin} (h : o.Before o') (h' : o'.Before o'') : o.Before o'' := by
  unfold Before at *
  omega

theorem Before.position_ne {o o' : Origin} (h : o.Before o') : o.position ≠ o'.position := by
  intro heq
  obtain ⟨hline, hcolumn⟩ := Prod.mk.inj heq
  unfold Before at h
  omega

theorem before_next (o : Origin) (c : Char) : o.Before (o.next c) := by
  unfold Before next
  split
  · exact Or.inl (Nat.lt_succ_self _)
  · exact Or.inr ⟨rfl, Nat.lt_succ_self _⟩

theorem advance_concat (o : Origin) (front : List Char) (c : Char) :
    o.advance (front ++ [c]) = (o.advance front).next c := by
  rw [advance, advance, List.foldl_append]
  rfl

theorem before_advance (o : Origin) {more : List Char} (h : more ≠ []) :
    o.Before (o.advance more) := by
  induction more using List.reverseRecOn with
  | nil => exact absurd rfl h
  | append_singleton more c ih =>
    rw [advance_concat]
    by_cases hmore : more = []
    · rw [hmore]
      exact before_next o c
    · exact (ih hmore).trans (before_next _ c)

/-- **Line and column are told by the text in front**: by its line feeds, and by what stands behind
the last of them. -/
theorem advance_start (base : Nat) (front : List Char) :
    (⟨base, 1, 1⟩ : Origin).advance front =
      ⟨base + front.length, front.count '\n' + 1,
        (front.rtakeWhile (· ≠ '\n')).length + 1⟩ := by
  induction front using List.reverseRecOn with
  | nil => rfl
  | append_singleton front c ih =>
    rw [advance_concat, ih, next]
    by_cases hc : c = '\n'
    · simp [hc, Nat.add_assoc]
    · simp [hc, Nat.add_assoc]

/-- Of two places in one text the one with the smaller number comes before the other. -/
theorem before_of_id_lt {o : Origin} {text front front' : List Char} (h : front <+: text)
    (h' : front' <+: text) (hlt : (o.advance front).id < (o.advance front').id) :
    (o.advance front).Before (o.advance front') := by
  rw [advance_id, advance_id, Nat.add_lt_add_iff_left] at hlt
  obtain ⟨more, rfl⟩ := List.prefix_of_prefix_length_le h h' (Nat.le_of_lt hlt)
  have hmore : more ≠ [] := by
    rintro rfl
    simp at hlt
  have hadvance : o.advance (front ++ more) = (o.advance front).advance more := List.foldl_append
  rw [hadvance]
  exact before_advance _ hmore

/-- A word stands at a place of a text: in front of it are the line feeds that the line counts, and
since the last of them the characters that the column counts. -/
def Marks (o : Origin) (text word : String) : Prop :=
  ∃ front back, text.toList = front ++ (word.toList ++ back) ∧
    o.line = front.count '\n' + 1 ∧ o.column = (front.rtakeWhile (· ≠ '\n')).length + 1

end Origin

/-! ### What is read at a place -/

/-- **A token stands at its place**, with the text that it was read from. -/
theorem Lexer.scan_stands (o : Origin) (cs : List Char) : ∀ t ∈ (scan o cs).tokens,
    ∃ front back, cs = front ++ (t.text.toList ++ back) ∧ t.origin = o.advance front := by
  have hbehind : ∀ {o : Origin} {read rest : List Char} {t : Token},
      (∃ front back, rest = front ++ (t.text.toList ++ back) ∧
        t.origin = (o.advance read).advance front) →
      ∃ front back, read ++ rest = front ++ (t.text.toList ++ back) ∧
        t.origin = o.advance front := by
    rintro o read _ t ⟨front, back, rfl, horigin⟩
    exact ⟨read ++ front, back, (List.append_assoc ..).symm,
      horigin.trans List.foldl_append.symm⟩
  fun_induction scan o cs with
  | case1 =>
    intro t ht
    cases ht
  | case2 o c cs n hgap ih =>
    intro t ht
    have hcut : c :: cs = (c :: cs.take n) ++ cs.drop n := by simp
    rw [hcut]
    exact hbehind (ih t ht)
  | case3 o c cs hgap kind n htoken text rest ih =>
    intro t ht
    have hcut : c :: cs = text ++ cs.drop n := by simp [text]
    rw [hcut]
    rcases List.mem_cons.1 ht with rfl | ht
    · exact ⟨[], cs.drop n, by simp, rfl⟩
    · exact hbehind (ih t ht)
  | case4 =>
    intro t ht
    cases ht

/-- The text of a token stands at its line and column. -/
theorem Tokens.marks_ofText {text : String} {base : Nat} {t : Token}
    (ht : t ∈ (ofText text base).tokens) : t.origin.Marks text t.text := by
  obtain ⟨front, back, htext, horigin⟩ := Lexer.scan_stands _ _ t ht
  rw [Origin.advance_start] at horigin
  exact ⟨front, back, htext, by rw [horigin], by rw [horigin]⟩

/-- Of two tokens the one with the smaller number comes before the other. -/
theorem Tokens.before_ofText {text : String} {base : Nat} {t t' : Token}
    (ht : t ∈ (ofText text base).tokens) (ht' : t' ∈ (ofText text base).tokens)
    (hlt : t.origin.id < t'.origin.id) : t.origin.Before t'.origin := by
  obtain ⟨front, back, htext, horigin⟩ := Lexer.scan_stands _ _ t ht
  obtain ⟨front', back', htext', horigin'⟩ := Lexer.scan_stands _ _ t' ht'
  rw [horigin, horigin'] at hlt ⊢
  exact Origin.before_of_id_lt ⟨_, htext.symm⟩ ⟨_, htext'.symm⟩ hlt

/-! ### Tokens that are read anew -/

/-- **A token is read as it is or anew**: a word of the language as a name, or a brace as that of a
block. -/
inductive Token.Retyped : Token → Token → Prop
  /-- As it is. -/
  | same (t : Token) : Retyped t t
  /-- A word of the language behind a dot. -/
  | member {t : Token} (ht : t.kind.isWord) : Retyped t (t.as .name)
  /-- A brace in the place of a statement. -/
  | block {t : Token} (ht : t.kind = .leftBrace) : Retyped t (t.as .blockBrace)

/-- What is read anew keeps its text and its place. -/
theorem Token.Retyped.keeps {t t' : Token} (h : t.Retyped t') :
    t'.text = t.text ∧ t'.origin = t.origin := by
  cases h <;> exact ⟨rfl, rfl⟩

theorem Token.retyped_restored (t : Token) (previous : Option TokenKind) :
    (t.restored previous).Retyped t := by
  have has : ∀ {k k' : TokenKind}, t.kind = k → (t.as k').as k = t := by
    rintro _ k' rfl
    rfl
  unfold restored
  split
  · rename_i hk
    have hblock := Retyped.block (t := t.as .leftBrace) rfl
    rwa [has hk] at hblock
  · rename_i hk
    split
    · rcases TokenKind.isWord_ofWord t.text with hword | hname
      · have hmember := Retyped.member (t := t.as (.ofWord t.text)) hword
        rwa [has hk] at hmember
      · have hsame : t.as .name = t := has hk
        rw [hname, hsame]
        exact .same t
    · exact .same t
  · exact .same t

theorem Token.retyped_restoredList (previous : Option TokenKind) (ts : List Token) :
    List.Forall₂ Retyped ((restoredList previous ts).filter (·.kind ≠ .terminator))
      (ts.filter (·.kind ≠ .terminator)) := by
  induction ts generalizing previous with
  | nil => exact .nil
  | cons t ts ih =>
    rw [restoredList]
    by_cases hk : t.kind = .terminator
    · simpa [restored_terminator hk, hk] using ih (some .terminator)
    · have hrestored := kind_restored_ne_terminator hk previous
      rw [List.filter_cons_of_pos (by simpa using hrestored),
        List.filter_cons_of_pos (by simpa using hk)]
      exact .cons (t.retyped_restored previous) (ih _)

/-- **All that does more than separate is kept with its text at its place**, in its order, when the
ends of the statements are settled; some of it is read anew. -/
theorem Tokens.retyped_ofText (text : String) (base : Nat) :
    List.Forall₂ Token.Retyped ((ofText text base).tokens.filter (!·.kind.isBreak))
      ((ofText text base).terminate.tokens.filter (·.kind ≠ .terminator)) := by
  rw [← (conserved_ofText text base).kept]
  exact Token.retyped_restoredList none _

/-- A token that is no terminator is one that was read. -/
theorem Tokens.exists_retyped {text : String} {base : Nat} {t : Token}
    (ht : t ∈ (ofText text base).terminate.tokens) (hk : t.kind ≠ .terminator) :
    ∃ r ∈ (ofText text base).tokens, r.Retyped t := by
  have hmem : t ∈ (ofText text base).terminate.tokens.filter (·.kind ≠ .terminator) :=
    List.mem_filter.2 ⟨ht, by simpa using hk⟩
  have hretyped := retyped_ofText text base
  obtain ⟨⟨i, hi⟩, rfl⟩ := List.mem_iff_get.1 hmem
  have hi' := hretyped.length_eq.symm ▸ hi
  exact ⟨_, List.mem_of_mem_filter (List.get_mem _ ⟨i, hi'⟩), hretyped.get hi' hi⟩

end MessageBinder
