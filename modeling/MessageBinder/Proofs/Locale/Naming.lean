import MessageBinder.Proofs.Record.Lookup

/-!
# Names that are read in one way

The name of a catalogue is its base name, its locale and its extension, with points in between
(`MessageBinder.Locale.Names`). The base name and the extension may hold points of their own, and
anything else, but a locale holds none. So for one extension a name tells the other two parts
(`MessageBinder.Locale.Names.unique`): the extension is taken off its end, and the locale reaches
back to the last point that is left.

What the pattern admits beyond such names is one line break at their end. The names on which it is
not exact are those, and no others (`MessageBinder.Locale.exact_ofFileName?`). It stays unambiguous
all the same, because no text ends both in an extension and in that extension with a line break
behind it, each with a point in front (`MessageBinder.Locale.append_point_ne_append_break`).
-/

namespace MessageBinder.Locale

variable {base base' extension extension' locale locale' name : String}

/-- A name from its end: the extension, the locale and the base name, each written backwards. -/
theorem Names.reverse_toList (h : Names base extension locale name) :
    name.toList.reverse = extension.toList.reverse ++
      '.' :: (locale.toList.reverse ++ '.' :: base.toList.reverse) := by
  rw [h.name_eq]
  simp

/-- A text and a point cannot be the same text behind a line break and a point, whatever follows. -/
theorem append_point_ne_append_break (cs ds ds' : List Char) :
    cs ++ '.' :: ds ≠ '\n' :: (cs ++ '.' :: ds') := by
  -- Each character would have to be the line break in front of it, and in the end the point.
  induction cs with
  | nil => exact fun h => absurd (List.cons.inj h).1 (by decide)
  | cons c cs ih =>
    intro h
    obtain ⟨rfl, h⟩ := List.cons.inj h
    exact ih h

/-- **A name tells its base name and its locale**, given the extension. -/
theorem Names.unique (h : Names base extension locale name)
    (h' : Names base' extension locale' name) : base' = base ∧ locale' = locale := by
  have hname := h'.reverse_toList.symm.trans h.reverse_toList
  have hrest := (List.cons.inj (List.append_cancel_left hname)).2
  have hpoint : isLocaleChar '.' = false := by decide
  have hchars : ∀ c ∈ locale.toList.reverse, isLocaleChar c := fun c hc =>
    h.chars c (List.mem_reverse.1 hc)
  have hchars' : ∀ c ∈ locale'.toList.reverse, isLocaleChar c := fun c hc =>
    h'.chars c (List.mem_reverse.1 hc)
  obtain ⟨htake, hdrop⟩ := takeWhile_append_cons hchars hpoint base.toList.reverse
  obtain ⟨htake', hdrop'⟩ := takeWhile_append_cons hchars' hpoint base'.toList.reverse
  rw [hrest] at htake' hdrop'
  have hlocale := List.reverse_injective (htake'.symm.trans htake)
  have hbase := List.reverse_injective (List.cons.inj (hdrop'.symm.trans hdrop)).2
  exact ⟨String.toList_injective hbase, String.toList_injective hlocale⟩

/-- No name ends both in an extension and in the extension with a line break. -/
theorem Names.not_names_break (h : Names base extension locale name) :
    ¬ Names base' (extension ++ "\n") locale' name := by
  intro h'
  have hname := h.reverse_toList.symm.trans h'.reverse_toList
  rw [String.toList_append, List.reverse_append] at hname
  exact append_point_ne_append_break _ _ _ hname

/-- **The pattern of a source is exact** for all names but those that are named after the source and
have a line break behind them, and for one extension **no name matches under two base names**, nor
with two locales. -/
theorem exact_ofFileName? (base extension name : String) :
    ((∀ locale, ofFileName? base extension name = some locale ↔
          Names base extension locale name) ↔
        ∀ locale, ¬ Names base (extension ++ "\n") locale name) ∧
      ∀ base' locale locale', ofFileName? base extension name = some locale →
        ofFileName? base' extension name = some locale' → base' = base ∧ locale' = locale := by
  simp only [ofFileName?_eq_some]
  refine ⟨⟨fun hexact locale hbreak => ?_, fun hnone locale => or_iff_left (hnone locale)⟩, ?_⟩
  · exact ((hexact locale).1 (Or.inr hbreak)).not_names_break hbreak
  · rintro base' locale locale' (h | h) (h' | h')
    · exact h.unique h'
    · exact absurd h' h.not_names_break
    · exact absurd h h'.not_names_break
    · exact h.unique h'

/-- A base name may look like one with a locale: `A.fr.en.p` is a catalogue of `A.fr`, and of no
other source. -/
theorem exact_ofFileName?_nested :
    (∀ locale, ofFileName? "A.fr" "p" "A.fr.en.p" = some locale ↔
        Names "A.fr" "p" locale "A.fr.en.p") ∧
      ofFileName? "A.fr" "p" "A.fr.en.p" = some "en" ∧
      ∀ base locale, ofFileName? base "p" "A.fr.en.p" = some locale → base = "A.fr" := by
  obtain ⟨hexact, hunique⟩ := exact_ofFileName? "A.fr" "p" "A.fr.en.p"
  have hmatches : ofFileName? "A.fr" "p" "A.fr.en.p" = some "en" := by decide
  refine ⟨hexact.2 fun locale h => ?_, hmatches, fun base locale h => (hunique _ _ _ hmatches h).1⟩
  have hbreak : '\n' ∈ "A.fr.en.p".toList := by
    rw [h.name_eq]
    simp
  exact absurd hbreak (by decide)

/-- **The pattern is not exact**: a line break behind the extension is let pass. -/
theorem ofFileName?_lineBreak :
    ofFileName? "Greeting" "properties" "Greeting.en.properties\n" = some "en" ∧
      ¬ Names "Greeting" "properties" "en" "Greeting.en.properties\n" := by
  refine ⟨by decide, fun h => ?_⟩
  have hlast := congrArg (·.toList.getLast?) h.name_eq
  exact absurd hlast (by decide)

end MessageBinder.Locale
