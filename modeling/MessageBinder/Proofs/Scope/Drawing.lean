import Mathlib.Order.Bounds.Basic
import MessageBinder.Proofs.Printing.Renamed
import MessageBinder.Proofs.Scope.Names
import MessageBinder.Proofs.Token.Cutting

/-!
# Drawing names

The search for a fresh name tries the candidates of a base one after the other and has no bound of
its own (`MessageBinder.Scope.Searches`). That it ends is due to the taken names being finitely
many, and what it ends with is the candidate with the least count that is free
(`MessageBinder.Scope.searches_iff`).

What a single call does to a scope is `MessageBinder.Scope.Draws`; calls in a row are
`MessageBinder.Scope.DrawsAll`, and by induction on them no name is drawn twice. Two bases have no
candidate in common, since a base ends in no digit: the digits at the end of a candidate are those
of its count, and what stands before them is the base (`MessageBinder.FreshName.stem_candidate`). So
what is drawn for the seeds of one base does not depend on the seeds of the others
(`MessageBinder.Scope.freshNames_filter`).
-/

namespace MessageBinder

namespace FreshName

/-! ### Where a candidate is cut -/

theorem isDigit_getLast?_trimmed {cs : List Char} {c : Char} (h : c ∈ (trimmed cs).getLast?) :
    c.isDigit = false := by
  rw [trimmed, List.getLast?_reverse] at h
  have hhead := List.head?_dropWhile_not Char.isDigit (cs.dropWhile (· = '_')).reverse
  rw [Option.mem_def.1 h] at hhead
  simpa using hhead

/-- **A base ends in something that is no digit**; in particular it is not empty. -/
theorem exists_getLast?_base (seed : String) :
    ∃ c, (base seed).toList.getLast? = some c ∧ c.isDigit = false := by
  unfold base
  simp only [String.toList_ofList]
  split
  · exact ⟨'f', rfl, rfl⟩
  · rename_i hcore
    obtain ⟨c, hc⟩ := Option.isSome_iff_exists.1 (List.getLast?_isSome.2
      (mt List.isEmpty_iff.2 hcore))
    refine ⟨c, ?_, isDigit_getLast?_trimmed hc⟩
    split
    · rw [List.getLast?_append, hc, Option.some_or]
    · exact hc

/-- **The base can be read off a candidate**: it is left when the digits at the end are dropped. -/
theorem stem_candidate (seed : String) (count : Nat) :
    ((candidate (base seed) count).toList.reverse.dropWhile Char.isDigit).reverse
      = '_' :: (base seed).toList := by
  obtain ⟨c, hlast, hc⟩ := exists_getLast?_base seed
  have hcount : ∀ d ∈ (if count = 1 then "" else toString count).toList.reverse, d.isDigit := by
    intro d hd
    rw [List.mem_reverse] at hd
    split at hd
    · cases hd
    · rw [Nat.toString_eq_repr, Nat.toList_repr] at hd
      exact Nat.isDigit_of_mem_toDigits (by decide) (by decide) hd
  have hbase : (base seed).toList.reverse = c :: (base seed).toList.dropLast.reverse := by
    obtain ⟨cs, hcs⟩ := List.getLast?_eq_some_iff.1 hlast
    rw [hcs]
    simp
  have htext : (candidate (base seed) count).toList.reverse
      = (if count = 1 then "" else toString count).toList.reverse
        ++ ((base seed).toList.reverse ++ ['_']) := by
    simp [candidate]
  rw [htext, List.dropWhile_append_of_pos hcount, hbase, List.cons_append,
    List.dropWhile_cons_of_neg (by simp [hc]), ← List.cons_append, ← hbase, List.reverse_append,
    List.reverse_reverse]
  rfl

/-- **Different bases have no candidate in common.** -/
theorem base_eq_of_candidate_eq {seed seed' : String} {count count' : Nat}
    (h : candidate (base seed) count = candidate (base seed') count') : base seed = base seed' := by
  have hstem := stem_candidate seed count
  rw [h, stem_candidate] at hstem
  exact (String.toList_inj.1 (List.cons.inj hstem).2).symm

end FreshName

/-! ### A name as a token -/

/-- A text is read as one name wherever nothing behind it belongs to it. -/
def Lexer.IsNameToken (name : String) : Prop :=
  ∀ o rest, Apart rest →
    scan o (name.toList ++ rest) = (scan (o.advance name.toList) rest).behind [⟨.name, name, o⟩]

theorem IsPlainName.isNameToken {name : String} (h : IsPlainName name) :
    Lexer.IsNameToken name := by
  intro o rest hrest
  have hfront := Lexer.front_of_isName h.1 hrest
  rw [String.ofList_toList, h.2] at hfront
  rw [Lexer.scan_front hfront, String.ofList_toList]

/-- By itself such a text is a single token. -/
theorem Lexer.IsNameToken.ofText {name : String} (h : Lexer.IsNameToken name) (base : Nat) :
    Tokens.ofText name base = ⟨[⟨.name, name, ⟨base, 1, 1⟩⟩], none⟩ := by
  have hscan := h ⟨base, 1, 1⟩ [] nofun
  rw [List.append_nil] at hscan
  rw [Tokens.ofText, hscan, Lexer.scan]
  rfl

theorem IsPlainName.not_mem_words {name : String} (h : IsPlainName name) :
    name ∉ TokenKind.words.map Prod.fst := by
  intro hmem
  obtain ⟨⟨word, kind⟩, hword, rfl⟩ := List.mem_map.1 hmem
  have hnone : ∀ w ∈ TokenKind.words, TokenKind.ofWord w.1 ≠ .name := by decide
  exact hnone _ hword h.2

namespace Scope

/-! ### The search -/

/-- The search for a free candidate of a base from a count on: it ends with the candidate if that is
free, and goes on with the next count if it is taken. -/
inductive Searches (s : Scope) (base : String) : Nat → String → Prop where
  /-- The candidate is free. -/
  | free {n : Nat} : s.hasName (FreshName.candidate base n) = false →
      Searches s base n (FreshName.candidate base n)
  /-- The candidate is taken. -/
  | taken {n : Nat} {name : String} : s.hasName (FreshName.candidate base n) →
      Searches s base (n + 1) name → Searches s base n name

/-- The counts from `n` on whose candidates are free. -/
def freeCounts (s : Scope) (base : String) (n : Nat) : Set Nat :=
  {k | n ≤ k ∧ s.hasName (FreshName.candidate base k) = false}

variable {s t : Scope} {base name : String} {n count : Nat}

/-- A count whose candidate is taken can be left out. -/
theorem freeCounts_succ (h : s.hasName (FreshName.candidate base n)) :
    s.freeCounts base (n + 1) = s.freeCounts base n := by
  ext k
  constructor
  · rintro ⟨hk, hfree⟩
    exact ⟨by omega, hfree⟩
  · rintro ⟨hk, hfree⟩
    have hne : n ≠ k := by
      rintro rfl
      rw [h] at hfree
      cases hfree
    exact ⟨by omega, hfree⟩

theorem isLeast_freeCounts_self (h : s.hasName (FreshName.candidate base n) = false) :
    IsLeast (s.freeCounts base n) n :=
  ⟨⟨le_rfl, h⟩, fun _ hk => hk.1⟩

theorem Searches.exists_isLeast (h : s.Searches base n name) :
    ∃ count, IsLeast (s.freeCounts base n) count ∧ name = FreshName.candidate base count := by
  induction h with
  | free hfree => exact ⟨_, isLeast_freeCounts_self hfree, rfl⟩
  | taken htaken _ ih => rwa [freeCounts_succ htaken] at ih

/-- Where some candidate is free, the search ends. The induction is on the number of candidates
before the first one that is free. -/
theorem searches_of_isLeast (h : IsLeast (s.freeCounts base n) count) :
    s.Searches base n (FreshName.candidate base count) := by
  obtain ⟨k, rfl⟩ := Nat.exists_eq_add_of_le h.1.1
  induction k generalizing n with
  | zero => exact .free h.1.2
  | succ k ih =>
    have htaken : s.hasName (FreshName.candidate base n) := by
      by_contra hfree
      have hle := h.2 ⟨le_rfl, Bool.eq_false_iff.2 hfree⟩
      omega
    rw [← freeCounts_succ htaken, show n + (k + 1) = n + 1 + k by omega] at h
    rw [show n + (k + 1) = n + 1 + k by omega]
    exact .taken htaken (ih h)

/-- **What the search ends with**: the candidate with the least count that is free. -/
theorem searches_iff : s.Searches base n name
    ↔ ∃ count, IsLeast (s.freeCounts base n) count ∧ name = FreshName.candidate base count := by
  constructor
  · exact Searches.exists_isLeast
  · rintro ⟨count, hleast, rfl⟩
    exact searches_of_isLeast hleast

/-- **The name that is found** among the candidates up to the number of taken names is the one that
the search without a bound ends with. -/
theorem searches_unusedName (s : Scope) (base : String) :
    s.Searches base 1 (s.unusedName base) := by
  have hfree := s.hasName_unusedName base
  rw [unusedName, List.find?_map] at hfree ⊢
  cases hfind : (List.range (s.names.length + 1)).find?
      ((!s.hasName ·) ∘ fun n => FreshName.candidate base (n + 1)) with
  | none =>
    rw [hfind] at hfree
    exact .free hfree
  | some k =>
    obtain ⟨hk, -, hbefore⟩ := List.find?_range_eq_some.1 hfind
    refine searches_of_isLeast ⟨⟨by omega, by simpa using hk⟩, ?_⟩
    rintro j ⟨hj, hjfree⟩
    by_contra hlt
    have htaken := hbefore (j - 1) (by omega)
    rw [Function.comp_apply, Nat.sub_add_cancel hj, hjfree] at htaken
    cases htaken

/-- What is found depends on the candidates that are taken only. -/
theorem unusedName_congr
    (h : ∀ n, s.hasName (FreshName.candidate base n) = t.hasName (FreshName.candidate base n)) :
    s.unusedName base = t.unusedName base := by
  obtain ⟨i, hi, hs⟩ := searches_iff.1 (s.searches_unusedName base)
  obtain ⟨j, hj, ht⟩ := searches_iff.1 (t.searches_unusedName base)
  have hcounts : s.freeCounts base 1 = t.freeCounts base 1 := by
    ext k
    simp only [freeCounts, Set.mem_ofPred_eq, h k]
  rw [hcounts] at hi
  rw [hs, ht, hi.unique hj]

/-! ### One call -/

/-- What a call for a fresh name does: a name is drawn for a seed, and the scope becomes `s'`. -/
structure Draws (s : Scope) (seed name : String) (s' : Scope) : Prop where
  /-- The search ends with the name. -/
  searched : s.Searches (FreshName.base seed) 1 name
  /-- The name is an underscore and the base if that is free; else a count follows, the least one
  from two on with which the name is free. -/
  spelled : (s.hasName ("_" ++ FreshName.base seed) = false ∧ name = "_" ++ FreshName.base seed) ∨
    s.hasName ("_" ++ FreshName.base seed) ∧
      ∃ count, name = "_" ++ FreshName.base seed ++ toString count ∧
        IsLeast {n | 2 ≤ n ∧ s.hasName ("_" ++ FreshName.base seed ++ toString n) = false} count
  /-- The name by itself is a single token. -/
  alone : ∀ base, Tokens.ofText name base = ⟨[⟨.name, name, ⟨base, 1, 1⟩⟩], none⟩
  /-- The name is a token of its own in front of other text. -/
  token : Lexer.IsNameToken name
  /-- The name is no word of the language. -/
  plain : name ∉ TokenKind.words.map Prod.fst
  /-- The name was not taken. -/
  free : s.hasName name = false
  /-- Now it is taken, and for every other name nothing has changed. -/
  taken : ∀ other, s'.hasName other = (s.hasName other || other = name)

theorem Searches.spelled (h : s.Searches base 1 name) :
    (s.hasName ("_" ++ base) = false ∧ name = "_" ++ base) ∨
      s.hasName ("_" ++ base) ∧ ∃ count, name = "_" ++ base ++ toString count ∧
        IsLeast {n | 2 ≤ n ∧ s.hasName ("_" ++ base ++ toString n) = false} count := by
  have hone : FreshName.candidate base 1 = "_" ++ base := by simp [FreshName.candidate]
  have hmore : ∀ n, 2 ≤ n → FreshName.candidate base n = "_" ++ base ++ toString n := by
    intro n hn
    rw [FreshName.candidate, if_neg (by omega)]
  have hcounts : s.freeCounts base 2
      = {n | 2 ≤ n ∧ s.hasName ("_" ++ base ++ toString n) = false} := by
    ext n
    exact and_congr_right fun hn => by rw [hmore n hn]
  cases h with
  | free hfree =>
    rw [hone] at hfree
    exact Or.inl ⟨hfree, hone⟩
  | taken htaken hrest =>
    obtain ⟨count, hleast, rfl⟩ := searches_iff.1 hrest
    rw [hone] at htaken
    exact Or.inr ⟨htaken, count, hmore count hleast.1.1, hcounts ▸ hleast⟩

theorem draws_freshName (s : Scope) (seed : String) :
    s.Draws seed (s.freshName seed).1 (s.freshName seed).2 where
  searched := s.searches_unusedName _
  spelled := (s.searches_unusedName _).spelled
  alone := (s.isPlainName_unusedName seed).isNameToken.ofText
  token := (s.isPlainName_unusedName seed).isNameToken
  plain := (s.isPlainName_unusedName seed).not_mem_words
  free := s.hasName_unusedName _
  taken := fun other => s.hasName_reserve _ other

/-! ### Calls in a row -/

/-- The names drawn for seeds in order, and the scope afterwards. -/
def freshNames (s : Scope) : List String → List String × Scope
  | [] => ([], s)
  | seed :: seeds =>
    let drawn := s.freshName seed
    let rest := drawn.2.freshNames seeds
    (drawn.1 :: rest.1, rest.2)

/-- Names are drawn for seeds in order, each in the scope that the one before has left. -/
inductive DrawsAll : Scope → List String → List String → Scope → Prop where
  /-- Nothing is drawn. -/
  | nil (s : Scope) : DrawsAll s [] [] s
  /-- One name is drawn, then the others. -/
  | cons {s s' s'' : Scope} {seed name : String} {seeds names : List String} :
      s.Draws seed name s' → DrawsAll s' seeds names s'' →
      DrawsAll s (seed :: seeds) (name :: names) s''

theorem drawsAll_freshNames (s : Scope) (seeds : List String) :
    s.DrawsAll seeds (s.freshNames seeds).1 (s.freshNames seeds).2 := by
  induction seeds generalizing s with
  | nil => exact .nil s
  | cons seed seeds ih => exact .cons (s.draws_freshName seed) (ih _)

namespace DrawsAll

variable {s' : Scope} {seeds names : List String}

/-- The names that are taken afterwards: those before, and those drawn. -/
theorem hasName (h : s.DrawsAll seeds names s') (other : String) :
    s'.hasName other = (s.hasName other || other ∈ names) := by
  induction h with
  | nil => simp
  | cons hdraws _ ih => simp [ih, hdraws.taken, Bool.or_assoc]

/-- **No name is drawn twice**: what is drawn later is free in a scope in which everything that was
drawn before is taken. -/
theorem nodup (h : s.DrawsAll seeds names s') :
    names.Nodup ∧ ∀ name ∈ names, s.hasName name = false := by
  induction h with
  | nil => exact ⟨List.nodup_nil, nofun⟩
  | cons hdraws _ ih =>
    simp only [hdraws.taken, Bool.or_eq_false_iff, decide_eq_false_iff_not] at ih
    refine ⟨List.nodup_cons.2 ⟨fun hmem => ?_, ih.1⟩, List.forall_mem_cons.2 ⟨hdraws.free, ?_⟩⟩
    · exact (ih.2 _ hmem).2 rfl
    · exact fun other hother => (ih.2 other hother).1

end DrawsAll

/-- **Bases do not interfere**: where two scopes have the same candidates of a base, what is drawn
for the seeds of the base is the same, whether seeds of other bases come in between or not. -/
theorem freshNames_filter (own : String) (seeds : List String)
    (h : ∀ n, s.hasName (FreshName.candidate (FreshName.base own) n)
      = t.hasName (FreshName.candidate (FreshName.base own) n)) :
    (t.freshNames (seeds.filter (FreshName.base · = FreshName.base own))).1
      = ((seeds.zip (s.freshNames seeds).1).filter
          (FreshName.base ·.1 = FreshName.base own)).map Prod.snd := by
  induction seeds generalizing s t with
  | nil => rfl
  | cons seed seeds ih =>
    have hs : ∀ other, (s.freshName seed).2.hasName other = _ := (s.draws_freshName seed).taken
    have ht : ∀ other, (t.freshName seed).2.hasName other = _ := (t.draws_freshName seed).taken
    by_cases hseed : FreshName.base seed = FreshName.base own
    · have hname : (t.freshName seed).1 = (s.freshName seed).1 := by
        rw [freshName, freshName, hseed]
        exact (unusedName_congr h).symm
      rw [List.filter_cons_of_pos (by simpa using hseed), freshNames, freshNames,
        List.zip_cons_cons, List.filter_cons_of_pos (by simpa using hseed), List.map_cons, hname,
        ih fun n => by rw [hs, ht, hname, h n]]
    · -- what is drawn for another base is no candidate of this one
      have hkeep : ∀ n, (s.freshName seed).2.hasName (FreshName.candidate (FreshName.base own) n)
          = t.hasName (FreshName.candidate (FreshName.base own) n) := by
        intro n
        obtain ⟨count, -, hname⟩ := searches_iff.1 (s.draws_freshName seed).searched
        have hother : FreshName.candidate (FreshName.base own) n ≠ (s.freshName seed).1 := by
          rw [hname]
          exact fun heq => hseed (FreshName.base_eq_of_candidate_eq heq).symm
        rw [hs, decide_eq_false hother, Bool.or_false, h n]
      rw [List.filter_cons_of_neg (by simpa using hseed), freshNames, List.zip_cons_cons,
        List.filter_cons_of_neg (by simpa using hseed), ih hkeep]

/-- **Fresh names are well-formed, least and never repeated.** Whatever names a scope has taken and
whatever the seeds are, each call does what `MessageBinder.Scope.Draws` says; the names drawn are
pairwise different, were free before, and together with the names taken before are those taken
afterwards; no base ends in a digit, different bases have no candidate in common, and so the names
drawn for the seeds of one base are those that would be drawn if there were no other seeds. -/
theorem wellFormed_freshNames (s : Scope) (seeds : List String) :
    s.DrawsAll seeds (s.freshNames seeds).1 (s.freshNames seeds).2 ∧
    (s.freshNames seeds).1.Nodup ∧
    (∀ name ∈ (s.freshNames seeds).1, s.hasName name = false) ∧
    (∀ other, (s.freshNames seeds).2.hasName other
      = (s.hasName other || other ∈ (s.freshNames seeds).1)) ∧
    (∀ seed, ∃ c, (FreshName.base seed).toList.getLast? = some c ∧ c.isDigit = false) ∧
    (∀ seed seed' count count', FreshName.candidate (FreshName.base seed) count
      = FreshName.candidate (FreshName.base seed') count' →
        FreshName.base seed = FreshName.base seed') ∧
    ∀ seed, (s.freshNames (seeds.filter (FreshName.base · = FreshName.base seed))).1
      = ((seeds.zip (s.freshNames seeds).1).filter
          (FreshName.base ·.1 = FreshName.base seed)).map Prod.snd := by
  have hdrawn := s.drawsAll_freshNames seeds
  refine ⟨hdrawn, hdrawn.nodup.1, hdrawn.nodup.2, hdrawn.hasName, FreshName.exists_getLast?_base,
    ?_, ?_⟩
  · intro seed seed' count count'
    exact FreshName.base_eq_of_candidate_eq
  · intro seed
    exact freshNames_filter seed seeds fun _ => rfl

/-- Underscores at the front and digits at the end do not count, and neither does what separates
words; what is left of nothing is `ref`. -/
example : (({} : Scope).freshNames ["get-messages", "_get messages7", "42", ""]).1
    = ["_getMessages", "_getMessages2", "_ref", "_ref2"] := by
  decide

end Scope

end MessageBinder
