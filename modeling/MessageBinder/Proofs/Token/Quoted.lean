import MessageBinder.Proofs.Token.Cutting
import MessageBinder.Proofs.Token.Escapes

/-!
# A quoted text in a text

A text can be written as a literal in many ways, and `MessageBinder.Text.quoted` chooses one. Three
readers have to agree about it: the lexer about where it ends, the line about whether it stays on
it, and the escapes about what it says. They do so for every text and in front of whatever follows
(`MessageBinder.Lexer.reads_quoted`), as the last quote is the first one that no backslash protects.

Nothing in front of that quote depends on what follows it. So quoted texts are a prefix code
(`MessageBinder.Text.quoted_append_inj`): where one is put in front of something, both can be told
from the result.
-/

namespace MessageBinder

namespace Text

variable {v : CodeText}

/-- A quoted text stays on its line. -/
theorem newline_not_mem_quoted : '\n' ∉ (quoted .unicode v).written := by
  have hextent := Lexer.stringExtent_noLine (Lexer.stringExtent_quotedBody v.codes [])
  rw [List.take_of_length_le (by simp)] at hextent
  rw [written_quoted, List.mem_cons]
  rintro (h | h)
  · cases h
  · exact hextent h

end Text

namespace Lexer

/-- A quoted text is read as one token, and reading goes on right behind it. -/
theorem scan_quoted (v : CodeText) (o : Origin) (rest : List Char) :
    scan o ((Text.quoted .unicode v).written ++ rest)
      = (scan (o.advance (Text.quoted .unicode v).written) rest).behind
          [⟨.string, String.ofList (Text.quoted .unicode v).written, o⟩] := by
  rw [scan_front (front_quoted v rest)]

/-- **A quoted text is read back**, whatever follows it: it is one string of the text, on one line,
and its value is the text that was quoted. -/
theorem reads_quoted [CharacterNames] (v : String) (o : Origin) (rest : List Char) :
    ∃ t : Token, t.kind = .string ∧ Text.quoted .unicode v = (t.text : CodeText) ∧ t.origin = o ∧
      scan o (t.text.toList ++ rest) = (scan (o.advance t.text.toList) rest).behind [t] ∧
      '\n' ∉ t.text.toList ∧ t.stringValue = .ok (v : CodeText) := by
  obtain ⟨w, hw⟩ := Text.isText_quoted.2 (CodeText.isText_ofString v)
  have hwritten : (Text.quoted .unicode v).written = w.toList := by
    rw [hw, CodeText.written_ofString]
  have hscan := scan_quoted v o rest
  have hnewline := Text.newline_not_mem_quoted (v := v)
  have hvalue := StringLiteral.value?_quoted v
  rw [hwritten, String.ofList_toList] at hvalue hscan
  rw [hwritten] at hnewline
  exact ⟨⟨.string, w, o⟩, rfl, hw, rfl, hscan, hnewline, Token.stringValue_eq_ok_iff.2 hvalue⟩

end Lexer

/-- **Quoted texts are a prefix code.** -/
theorem Text.quoted_append_inj {v v' : CodeText} {rest rest' : List Char} :
    (quoted .unicode v).written ++ rest = (quoted .unicode v').written ++ rest' ↔
      v = v' ∧ rest = rest' := by
  refine ⟨fun h => ?_, fun ⟨hv, hrest⟩ => by rw [hv, hrest]⟩
  -- the first token of both is the same one, and it tells the quoted text
  have hscan := congrArg (fun cs => (Lexer.scan ⟨0, 1, 1⟩ cs).tokens.head?) h
  simp only [Lexer.scan_quoted, Tokens.behind, List.cons_append, List.head?_cons, Option.some.injEq,
    Token.mk.injEq, true_and, and_true] at hscan
  let _ := CharacterNames.nameless
  have hvalue : some v = some v' := by
    rw [← StringLiteral.value?_quoted, hscan, StringLiteral.value?_quoted]
  obtain rfl := Option.some.inj hvalue
  exact ⟨rfl, List.append_cancel_left h⟩

end MessageBinder
