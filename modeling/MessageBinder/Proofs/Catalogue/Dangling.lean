import Mathlib.Data.List.Induction
import MessageBinder.Proofs.Catalogue.Characters
import MessageBinder.Proofs.Token.Escapes

/-!
# No backslash is left over

A backslash of properties text protects the character behind it, and where a key or a value ends in
a backslash that protects nothing, reading its escapes drops it. No text makes that happen. A line
is `MessageBinder.Properties.Complete` if each backslash that opens an escape has its character;
read from the front this is a matter of pairs, and read from the back a matter of parity
(`MessageBinder.Properties.complete_iff`). Three passes keep it so:

| pass | why what it makes is complete |
|---|---|
| joining lines | a line that goes on loses the one backslash that is left over |
| the end of the key | an escape is passed as a whole |
| the separator | it and the blanks around it are no backslashes |

So whatever the reader of escapes would do with a backslash that is left over, keys and values come
out the same (`MessageBinder.Properties.complete_of_mem_logicalLines`).
-/

namespace MessageBinder

namespace Properties

variable {c : Char} {cs ds : List Char}

/-! ### Complete texts -/

/-- **No backslash is left over**: each one that opens an escape has a character behind it. -/
inductive Complete : List Char → Prop
  | nil : Complete []
  | plain {c : Char} {cs : List Char} (hc : c ≠ '\\') (h : Complete cs) : Complete (c :: cs)
  | escape {c : Char} {cs : List Char} (h : Complete cs) : Complete ('\\' :: c :: cs)

namespace Complete

theorem append (h : Complete cs) (h' : Complete ds) : Complete (cs ++ ds) := by
  induction h with
  | nil => exact h'
  | plain hc _ ih => exact .plain hc ih
  | escape _ ih => exact .escape ih

theorem of_cons (hc : c ≠ '\\') (h : Complete (c :: cs)) : Complete cs := by
  cases h with
  | plain _ h => exact h
  | escape h => exact absurd rfl hc

/-- What stands behind no backslashes is complete by itself. -/
theorem of_append (hcs : ∀ c ∈ cs, c ≠ '\\') (h : Complete (cs ++ ds)) : Complete ds := by
  induction cs with
  | nil => exact h
  | cons c cs ih =>
    obtain ⟨hc, hcs⟩ := List.forall_mem_cons.1 hcs
    exact ih hcs (of_cons hc h)

/-- What is complete keeps the parity of the backslashes in front of it even. -/
theorem continues_append (h : Complete ds) (hcs : continues cs = false) :
    continues (cs ++ ds) = false := by
  induction h generalizing cs with
  | nil => rwa [List.append_nil]
  | @plain c ds hc _ ih =>
    rw [List.append_cons]
    exact ih (continues_concat_of_ne hc cs)
  | @escape c ds _ ih =>
    rw [List.append_cons, List.append_cons]
    exact ih (by rw [continues_concat, continues_concat, hcs]; simp)

end Complete

/-- **Parity tells what is complete**: a text is, or it is so up to the one backslash at its end. -/
theorem complete_of_continues (cs : List Char) :
    if continues cs then ∃ ds, Complete ds ∧ cs = ds ++ ['\\'] else Complete cs := by
  have hchar : ∀ {c}, c ≠ '\\' → Complete [c] := fun hc => .plain hc .nil
  -- From the front to the back, as each character turns the parity or clears it.
  induction cs using List.reverseRecOn with
  | nil => exact .nil
  | append_singleton cs c ih =>
    rw [continues_concat]
    cases hcs : continues cs with
    | false =>
      rw [hcs] at ih
      by_cases hc : c = '\\'
      · subst hc
        exact ⟨cs, ih, rfl⟩
      · simpa [hc] using Complete.append ih (hchar hc)
    | true =>
      rw [hcs] at ih
      obtain ⟨ds, hds, rfl⟩ := ih
      simpa using hds.append (.escape (c := c) .nil)

/-- **A text is complete** if and only if it ends in an even number of backslashes. -/
theorem complete_iff : Complete cs ↔ continues cs = false := by
  refine ⟨fun h => Complete.continues_append h (show continues [] = false from rfl), fun h => ?_⟩
  simpa [h] using complete_of_continues cs

/-! ### Joining lines -/

/-- A line that goes on is complete without its last backslash. -/
theorem complete_dropLast (h : continues cs) : Complete cs.dropLast := by
  have hcs := complete_of_continues cs
  rw [if_pos h] at hcs
  obtain ⟨ds, hds, rfl⟩ := hcs
  rwa [List.dropLast_concat]

/-- **Joining lines leaves no backslash over**, in whatever way the line begun was complete. -/
theorem complete_of_pending {l : LogicalLine} {lines : List (List Char)}
    {pending : Option LogicalLine} {number : Nat} (hpending : ∀ p ∈ pending, Complete p.text)
    (h : l ∈ logicalLines pending number lines) : Complete l.text := by
  induction lines generalizing pending number with
  | nil => exact hpending l (by simpa [logicalLines] using h)
  | cons raw lines ih =>
    have hbegun : Complete (pending.getD ⟨number, []⟩).text := by
      cases pending with
      | none => exact .nil
      | some p => exact hpending p rfl
    rw [logicalLines] at h
    dsimp only at h
    split at h
    · exact ih (by simp) h
    · split at h
      · rename_i hgoes
        refine ih ?_ h
        rintro _ ⟨⟩
        exact hbegun.append (complete_dropLast hgoes)
      · rename_i hends
        rcases List.mem_cons.1 h with rfl | h
        · exact hbegun.append (complete_iff.2 (by simpa using hends))
        · exact ih (by simp) h

/-! ### Cutting a line -/

/-- **The end of the key cuts no escape.** -/
theorem complete_keyExtent (h : Complete cs) :
    Complete (cs.take (keyExtent cs)) ∧ Complete (cs.drop (keyExtent cs)) := by
  induction h with
  | nil => exact ⟨.nil, .nil⟩
  | @plain c cs hc h ih =>
    rw [keyExtent_cons hc]
    split
    · exact ⟨.nil, .plain hc h⟩
    · exact ⟨.plain hc ih.1, ih.2⟩
  | @escape c cs _ ih =>
    rw [keyExtent_escape]
    exact ⟨.escape ih.1, ih.2⟩

/-- In front of a value stand blanks and at most one separator. -/
theorem exists_withoutSeparator (cs : List Char) :
    ∃ between, (∀ c ∈ between, c ≠ '\\') ∧ cs = between ++ withoutSeparator cs := by
  have hblank : ∀ cs : List Char, ∀ c ∈ cs.takeWhile isBlank, c ≠ '\\' := by
    rintro cs _ hc rfl
    exact absurd (List.mem_takeWhile_imp hc) (by decide)
  have htrim : ∀ cs : List Char, cs = cs.takeWhile isBlank ++ trimLeft cs := fun cs =>
    List.takeWhile_append_dropWhile.symm
  unfold withoutSeparator
  split
  · rename_i c rest heq
    split
    · rename_i hc
      refine ⟨cs.takeWhile isBlank ++ c :: rest.takeWhile isBlank, ?_, ?_⟩
      · refine List.forall_mem_append.2 ⟨hblank cs, List.forall_mem_cons.2 ⟨?_, hblank rest⟩⟩
        rintro rfl
        exact absurd hc (by decide)
      · rw [List.append_assoc, List.cons_append, ← htrim rest, ← heq]
        exact htrim cs
    · exact ⟨_, hblank cs, heq ▸ htrim cs⟩
  · rename_i heq
    exact ⟨_, hblank cs, heq ▸ htrim cs⟩

/-! ### Reading escapes -/

/-- The code points that a key or a value writes, with a result of one's own where a backslash is
left over at the end. -/
def codePointsOr (lone : Option (List Nat)) : List Char → Option (List Nat)
  | [] => some []
  | ['\\'] => lone
  | '\\' :: 'u' :: cs =>
    if (cs.take 4).length < 4 then none
    else do
      let n ← Text.hexNumber? (cs.take 4)
      return n :: (← codePointsOr lone (cs.drop 4))
  | '\\' :: c :: cs => (codePointsOr lone cs).map ((escaped c).toNat :: ·)
  | c :: cs => (codePointsOr lone cs).map (c.toNat :: ·)
termination_by cs => cs.length
decreasing_by all_goals simp only [List.length_drop, List.length_cons]; omega

/-- Properties text drops a backslash that is left over. -/
theorem codePointsOr_some_nil (cs : List Char) : codePointsOr (some []) cs = codePoints? cs := by
  induction cs using codePoints?.induct <;> simp_all [codePointsOr, codePoints?]

/-- **In a complete text nothing is made of a backslash that is left over**, as there is none. -/
theorem Complete.codePointsOr_eq (h : Complete cs) (lone : Option (List Nat)) :
    codePointsOr lone cs = codePoints? cs := by
  induction cs using codePoints?.induct with
  | case1 => rw [codePointsOr, codePoints?]
  | case2 =>
    rw [complete_iff] at h
    exact absurd h (by decide)
  | case3 cs hlength => rw [codePointsOr, codePoints?, if_pos hlength, if_pos hlength]
  | case4 cs hlength ih =>
    rw [codePointsOr, codePoints?, if_neg hlength, if_neg hlength]
    cases hdigits : Text.hexNumber? (cs.take 4) with
    | none => rfl
    | some n =>
      -- four digits are no backslashes, so what stands behind them is complete
      have hcs : Complete (cs.take 4 ++ cs.drop 4) := by
        rw [List.take_append_drop]
        cases h with
        | plain hc _ => exact absurd rfl hc
        | escape h => exact h
      have hne := fun d hd => (StringLiteral.ne_of_hexNumber? hdigits d hd).1
      rw [ih (hcs.of_append hne)]
  | case5 c cs hc ih =>
    cases h with
    | plain hne _ => exact absurd rfl hne
    | escape h => rw [codePointsOr, codePoints?, ih h] <;> exact hc
  | case6 c cs hlone hunit hescape ih =>
    have hc : c ≠ '\\' := by
      rintro rfl
      cases cs with
      | nil => exact hlone rfl rfl
      | cons d cs => exact hescape d cs rfl rfl
    rw [codePointsOr, codePoints?, ih (h.of_cons hc)]
    all_goals assumption

/-- Elsewhere it can be told what is made of it. -/
example : codePointsOr none ['a', '\\'] = none ∧ codePoints? ['a', '\\'] = some [97] := by
  decide +kernel

/-! ### Every line of a text -/

/-- **No backslash is left over in any entry of a text.** A line ends in an even number of
backslashes; it is cut into a key and a value without cutting an escape; both are complete, and
neither depends on what would be made of a backslash that is left over. -/
theorem complete_of_mem_logicalLines {text : String} {l : LogicalLine}
    (h : l ∈ logicalLines none 1 (Text.splitLines text.toList)) :
    continues l.text = false ∧
      (∃ between, (∀ c ∈ between, c ≠ '\\') ∧
        l.text = (splitEntry l.text).1 ++ (between ++ (splitEntry l.text).2)) ∧
      ∀ written, written = (splitEntry l.text).1 ∨ written = (splitEntry l.text).2 →
        Complete written ∧ ∀ lone, codePointsOr lone written = codePoints? written := by
  have hline := complete_of_pending (by simp) h
  obtain ⟨hkey, hrest⟩ := complete_keyExtent hline
  obtain ⟨between, hbetween, hvalue⟩ := exists_withoutSeparator (l.text.drop (keyExtent l.text))
  refine ⟨complete_iff.1 hline, ⟨between, hbetween, ?_⟩, ?_⟩
  · rw [splitEntry, ← hvalue, List.take_append_drop]
  · rintro _ (rfl | rfl)
    · exact ⟨hkey, hkey.codePointsOr_eq⟩
    · rw [hvalue] at hrest
      exact ⟨hrest.of_append hbetween, (hrest.of_append hbetween).codePointsOr_eq⟩

/-- A text that ends in a backslash, behind an escape at the end of a key. -/
theorem complete_of_mem_logicalLines_end :
    (⟨1, "k\\==\\\\".toList⟩ : LogicalLine) ∈
        logicalLines none 1 (Text.splitLines "k\\=\\\n\t=\\\\\\".toList) ∧
      Complete "k\\=".toList ∧ Complete "\\\\".toList := by
  have h : (⟨1, "k\\==\\\\".toList⟩ : LogicalLine) ∈
      logicalLines none 1 (Text.splitLines "k\\=\\\n\t=\\\\\\".toList) := by decide +kernel
  obtain ⟨-, -, hwritten⟩ := complete_of_mem_logicalLines h
  have hsplit : splitEntry "k\\==\\\\".toList = ("k\\=".toList, "\\\\".toList) := by
    decide +kernel
  rw [hsplit] at hwritten
  exact ⟨h, (hwritten _ (.inl rfl)).1, (hwritten _ (.inr rfl)).1⟩

end Properties

end MessageBinder
