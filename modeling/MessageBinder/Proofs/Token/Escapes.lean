import Mathlib.Data.List.Count
import MessageBinder.Proofs.Token.Lexeme
import MessageBinder.Tree.Parser

/-!
# What a string literal denotes

The value of a string is read with the escapes of `MessageBinder.StringLiteral`. ECMAScript has
escapes of its own, and `MessageBinder.EcmaScript.Denotes` is its grammar of string literals in
strict code: what the characters between the quotes denote. The two have most escapes in common
(`MessageBinder.StringLiteral.sharesEscapes`), but not all. A backslash before a character that
needs none is dropped in ECMAScript and stays here; `\a` and `\U` are escapes here only, and the
braces of
`\u` there only; the name of a character behind `\N` stands for the character here and for itself
there; and some ends of lines continue a literal there only.

Where all escapes of a literal are shared, its value is what it denotes, and elsewhere it is not
(`MessageBinder.Token.stringValue_eq_iff`): differences do not cancel. This is a matter of two
numbers. Escapes that differ leave more backslashes or fewer characters in the value than in what is
denoted (`MessageBinder.StringLiteral.Exceeds`), except for `\a`, which moves nothing.
-/

namespace MessageBinder

/-! ### Hexadecimal digits -/

namespace Text

theorem hexValue?_spec {c : Char} {n : Nat} (h : hexValue? c = some n) :
    n < 16 ∧ c ≠ '\\' ∧ c ≠ '\x00' ∧ c ≠ '\x7b' := by
  refine ⟨?_, ?_, ?_, ?_⟩
  · unfold hexValue? at h
    split at h
    · rename_i hc
      have hle : c.toNat ≤ '9'.toNat := hc.2
      obtain rfl := Option.some.inj h
      exact Nat.lt_of_le_of_lt (Nat.sub_le_sub_right hle _) (by decide)
    split at h
    · rename_i hc
      have hle : c.toNat ≤ 'f'.toNat := hc.2
      obtain rfl := Option.some.inj h
      exact Nat.lt_of_le_of_lt (Nat.add_le_add_right (Nat.sub_le_sub_right hle _) _) (by decide)
    split at h
    · rename_i hc
      have hle : c.toNat ≤ 'F'.toNat := hc.2
      obtain rfl := Option.some.inj h
      exact Nat.lt_of_le_of_lt (Nat.add_le_add_right (Nat.sub_le_sub_right hle _) _) (by decide)
    · cases h
  all_goals
    rintro rfl
    cases h

/-- The number behind the number of the digits in front. -/
theorem hexNumber?_from {cs : List Char} {m n : Nat}
    (h : cs.foldlM (fun n c => (hexValue? c).map (16 * n + ·)) m = some n) :
    n < (m + 1) * 16 ^ cs.length ∧ ∀ c ∈ cs, (hexValue? c).isSome := by
  induction cs generalizing m with
  | nil =>
    obtain rfl : m = n := Option.some.inj h
    simp
  | cons c cs ih =>
    rw [List.foldlM_cons, Option.bind_eq_bind, Option.bind_eq_some_iff] at h
    obtain ⟨k, hk, h⟩ := h
    obtain ⟨v, hv, rfl⟩ := Option.map_eq_some_iff.1 hk
    obtain ⟨hlt, hdigits⟩ := ih h
    refine ⟨Nat.lt_of_lt_of_le hlt ?_, List.forall_mem_cons.2 ⟨by rw [hv]; rfl, hdigits⟩⟩
    have hv := (hexValue?_spec hv).1
    calc (16 * m + v + 1) * 16 ^ cs.length
        ≤ ((m + 1) * 16) * 16 ^ cs.length := Nat.mul_le_mul_right _ (by omega)
      _ = (m + 1) * 16 ^ (c :: cs).length := by
        rw [List.length_cons, Nat.pow_succ', Nat.mul_assoc]

/-- Digits write a number that is not too great for them. -/
theorem hexNumber?_spec {cs : List Char} {n : Nat} (h : hexNumber? cs = some n) :
    n < 16 ^ cs.length ∧ ∀ c ∈ cs, (hexValue? c).isSome := by
  simpa using hexNumber?_from h

end Text

namespace EcmaScript

/-! ### The grammar of string literals -/

/-- Whether a character ends a line. -/
def isLineTerminator (c : Char) : Bool :=
  c = '\n' || c = '\r' || c = '\u2028' || c = '\u2029'

theorem isLineTerminator_iff {c : Char} :
    isLineTerminator c ↔ c = '\n' ∨ c = '\r' ∨ c = '\u2028' ∨ c = '\u2029' := by
  simp [isLineTerminator, or_assoc]

/-- The code point that one of nine characters stands for behind a backslash. -/
def singleEscape? : Char → Option Nat
  | '\'' => some 0x27
  | '"' => some 0x22
  | '\\' => some 0x5C
  | 'b' => some 0x08
  | 'f' => some 0x0C
  | 'n' => some 0x0A
  | 'r' => some 0x0D
  | 't' => some 0x09
  | 'v' => some 0x0B
  | _ => none

/-- Whether a character stands for itself behind a backslash. -/
def isNonEscape (c : Char) : Bool :=
  (singleEscape? c).isNone && !c.isDigit && c ≠ 'x' && c ≠ 'u' && !isLineTerminator c

/-- **An escape**: the characters behind a backslash, the code points that they denote, and what is
left of the characters. -/
inductive Escape : List Char → List Nat → List Char → Prop
  | single {c : Char} {cs : List Char} {n : Nat} (h : singleEscape? c = some n) :
      Escape (c :: cs) [n] cs
  | identity {c : Char} {cs : List Char} (h : isNonEscape c) : Escape (c :: cs) [c.toNat] cs
  | null {cs : List Char} (h : cs.head?.all (!·.isDigit)) : Escape ('0' :: cs) [0] cs
  | hex {ds cs : List Char} {n : Nat} (hlength : ds.length = 2) (h : Text.hexNumber? ds = some n) :
      Escape ('x' :: (ds ++ cs)) [n] cs
  | unicode {ds cs : List Char} {n : Nat} (hlength : ds.length = 4)
      (h : Text.hexNumber? ds = some n) : Escape ('u' :: (ds ++ cs)) [n] cs
  | braced {ds cs : List Char} {n : Nat} (hne : ds ≠ []) (h : Text.hexNumber? ds = some n)
      (hle : n ≤ 0x10FFFF) : Escape ('u' :: '\x7b' :: (ds ++ '\x7d' :: cs)) [n] cs
  /-- The end of a line continues the literal. -/
  | lineTerminator {c : Char} {cs : List Char} (h : isLineTerminator c)
      (hpair : c = '\r' → cs.head? ≠ some '\n') : Escape (c :: cs) [] cs
  | lineTerminators {cs : List Char} : Escape ('\r' :: '\n' :: cs) [] cs

/-- **What the characters between two quotes denote**, by their code points. -/
inductive Denotes (quote : Char) : List Char → List Nat → Prop
  | nil : Denotes quote [] []
  | plain {c : Char} {cs : List Char} {ns : List Nat} (hquote : c ≠ quote) (hbackslash : c ≠ '\\')
      (hline : c ≠ '\n' ∧ c ≠ '\r') (h : Denotes quote cs ns) :
      Denotes quote (c :: cs) (c.toNat :: ns)
  | escape {cs cs' : List Char} {ns ns' : List Nat} (hescape : Escape cs ns cs')
      (h : Denotes quote cs' ns') : Denotes quote ('\\' :: cs) (ns ++ ns')

/-- **A string literal** with the code points that it denotes. -/
def IsLiteral (w : String) (ns : List Nat) : Prop :=
  ∃ quote body, (quote = '"' ∨ quote = '\'') ∧ w.toList = quote :: (body ++ [quote]) ∧
    Denotes quote body ns

theorem Escape.length_lt {cs cs' : List Char} {ns : List Nat} (h : Escape cs ns cs') :
    cs'.length < cs.length := by
  cases h <;> simp +arith

end EcmaScript

namespace StringLiteral

open EcmaScript Text

/-! ### Shared escapes -/

/-- What may stand behind a backslash in an escape that means the same. -/
def sharedEscapes : List Char :=
  ['\'', '"', '\\', 'b', 'f', 'n', 'r', 't', 'v', '0', 'x', 'u', '\r']

/-- Whether the escape that starts with these characters means the same. -/
def isShared (d : Char) (ds : List Char) : Bool :=
  sharedEscapes.contains d && !(d = 'u' && ds.head? = some '\x7b')

/-- **Whether all escapes mean the same**; a null character cannot be read at all. -/
def sharesEscapes : List Char → Bool
  | [] => true
  | [c] => c ≠ '\x00' && c ≠ '\\'
  | c :: d :: ds =>
    if c = '\\' then isShared d ds && sharesEscapes ds else c ≠ '\x00' && sharesEscapes (d :: ds)

theorem sharesEscapes_cons_of_ne {c : Char} (h : c ≠ '\\') (cs : List Char) :
    sharesEscapes (c :: cs) = (decide (c ≠ '\x00') && sharesEscapes cs) := by
  cases cs with
  | nil => exact congrArg (_ && ·) (decide_eq_true h)
  | cons d ds => exact if_neg h

theorem sharesEscapes_escape (d : Char) (ds : List Char) :
    sharesEscapes ('\\' :: d :: ds) = (isShared d ds && sharesEscapes ds) := rfl

/-- Characters that are no backslashes are passed over. -/
theorem sharesEscapes_append {ds : List Char} (h : ∀ d ∈ ds, d ≠ '\\' ∧ d ≠ '\x00')
    (cs : List Char) : sharesEscapes (ds ++ cs) = sharesEscapes cs := by
  induction ds with
  | nil => rfl
  | cons d ds ih =>
    obtain ⟨hd, hds⟩ := List.forall_mem_cons.1 h
    rw [List.cons_append, sharesEscapes_cons_of_ne hd.1, ih hds, decide_eq_true hd.2, Bool.true_and]

theorem isOctal_of_not_isDigit {c : Char} (h : c.isDigit = false) : isOctal c = false := by
  rw [Bool.eq_false_iff] at h ⊢
  intro hc
  simp only [isOctal, Bool.and_eq_true, decide_eq_true_eq] at hc
  have hle : c ≤ '9' := Char.le_trans hc.2 (by decide)
  exact h (by simpa [Char.isDigit] using ⟨hc.1, hle⟩)

theorem hexEscape?_append {ds : List Char} (cs : List Char) {width n : Nat}
    (hlength : ds.length = width) (h : hexNumber? ds = some n) (hn : n < 0x110000) :
    hexEscape? width (ds ++ cs) = some n := by
  rw [hexEscape?, List.take_left' hlength, if_neg (by omega), h, Option.filter_some,
    decide_eq_true hn, if_pos rfl]

/-- No digit means anything to a string. -/
theorem ne_of_hexNumber? {ds : List Char} {n : Nat} (h : hexNumber? ds = some n) :
    ∀ d ∈ ds, d ≠ '\\' ∧ d ≠ '\x00' := by
  intro d hd
  obtain ⟨v, hv⟩ := Option.isSome_iff_exists.1 ((hexNumber?_spec h).2 d hd)
  obtain ⟨-, hbackslash, hnull, -⟩ := hexValue?_spec hv
  exact ⟨hbackslash, hnull⟩

theorem isShared_u (ds : List Char) : isShared 'u' ds = !decide (ds.head? = some '\x7b') := rfl

/-- Four digits are no brace. -/
theorem isShared_unicode {ds cs : List Char} {n : Nat} (hlength : ds.length = 4)
    (h : hexNumber? ds = some n) : isShared 'u' (ds ++ cs) := by
  cases ds with
  | nil => cases hlength
  | cons d ds =>
    obtain ⟨v, hv⟩ := Option.isSome_iff_exists.1 ((hexNumber?_spec h).2 d (List.mem_cons_self ..))
    simp [isShared_u, (hexValue?_spec hv).2.2.2]

theorem of_singleEscape? [CharacterNames] {c : Char} {n : Nat} (h : singleEscape? c = some n)
    (ds : List Char) : escape? c ds = some ([n], 1) ∧ isShared c ds := by
  unfold singleEscape? at h
  split at h
  all_goals first
    | (obtain rfl := Option.some.inj h
       exact ⟨rfl, rfl⟩)
    | cases h

/-- A shared escape is read as it is meant. -/
theorem escape?_of_shared [CharacterNames] {d : Char} {ds rest : List Char} {ns : List Nat}
    (h : Escape (d :: ds) ns rest) (hd : isShared d ds) (hline : '\n' ∉ ds) :
    ∃ n, escape? d ds = some (ns, n) ∧ ds.drop (n - 1) = rest ∧
      sharesEscapes ds = sharesEscapes rest ∧ '\n' ∉ rest := by
  obtain ⟨hd, hbrace⟩ := Bool.and_eq_true_iff.1 hd
  cases h with
  | single h =>
    exact ⟨1, (of_singleEscape? h ds).1, rfl, rfl, hline⟩
  | identity h =>
    -- the characters of shared escapes have a meaning, so none stands for itself
    simp only [sharedEscapes, List.contains_cons, List.contains_nil, Bool.or_eq_true,
      beq_iff_eq, Bool.false_eq_true, or_false] at hd
    rcases hd with rfl | rfl | rfl | rfl | rfl | rfl | rfl | rfl | rfl | rfl | rfl | rfl | rfl <;>
      cases h
  | null h =>
    refine ⟨1, ?_, rfl, rfl, hline⟩
    -- no digit follows, so the octal number is the zero alone
    have hdigits : (('0' :: ds).take 3).takeWhile isOctal = ['0'] := by
      cases ds with
      | nil => rfl
      | cons c cs =>
        have hc : isOctal c = false := by
          rw [List.head?_cons, Option.all_some, Bool.not_eq_true'] at h
          exact isOctal_of_not_isDigit h
        rw [List.take_succ_cons, List.take_succ_cons, List.takeWhile_cons_of_pos rfl,
          List.takeWhile_cons_of_neg (by simp [hc])]
    rw [escape?, if_neg (by decide), if_pos (by decide)]
    simp only [hdigits]
    rfl
  | hex hlength h =>
    have hn := hexEscape?_append rest hlength h
      (Nat.lt_trans (hexNumber?_spec h).1 (by rw [hlength]; decide))
    refine ⟨3, ?_, List.drop_left' hlength, ?_, fun hmem => hline (List.mem_append_right _ hmem)⟩
    · rw [escape?, if_neg (by decide), if_neg (by decide)]
      simp only [hexWidth?, hn, Option.map_some]
    · exact sharesEscapes_append (ne_of_hexNumber? h) rest
  | unicode hlength h =>
    have hn := hexEscape?_append rest hlength h
      (Nat.lt_trans (hexNumber?_spec h).1 (by rw [hlength]; decide))
    refine ⟨5, ?_, List.drop_left' hlength, ?_, fun hmem => hline (List.mem_append_right _ hmem)⟩
    · rw [escape?, if_neg (by decide), if_neg (by decide)]
      simp only [hexWidth?, hn, Option.map_some]
    · exact sharesEscapes_append (ne_of_hexNumber? h) rest
  | braced => cases hbrace
  | lineTerminator h =>
    refine ⟨1, ?_, rfl, rfl, hline⟩
    have hreturn : d = '\r' := by
      simp only [sharedEscapes, List.contains_cons, List.contains_nil, Bool.or_eq_true,
        beq_iff_eq, Bool.false_eq_true, or_false] at hd
      rcases hd with rfl | rfl | rfl | rfl | rfl | rfl | rfl | rfl | rfl | rfl | rfl | rfl | rfl <;>
        first | rfl | cases h
    rw [escape?, if_pos hreturn]
  | lineTerminators => exact absurd (List.mem_cons_self ..) hline

theorem codePoints?_cons_of_ne [CharacterNames] {c : Char} (h : c ≠ '\\') (cs : List Char) :
    codePoints? (c :: cs)
      = if c = '\r' ∨ c = '\x00' then none else (codePoints? cs).map (c.toNat :: ·) := by
  rw [codePoints?.eq_def]
  simp only [if_neg h]

/-- **Where all escapes are shared, the value is what is denoted.** -/
theorem codePoints?_of_sharesEscapes [CharacterNames] {quote : Char} {body : List Char}
    {ns : List Nat} (h : Denotes quote body ns) (hshares : sharesEscapes body)
    (hline : '\n' ∉ body) :
    codePoints? body = some ns := by
  induction h with
  | nil => rw [codePoints?.eq_def]
  | @plain c cs ns hquote hbackslash hreturn h ih =>
    rw [sharesEscapes_cons_of_ne hbackslash, Bool.and_eq_true, decide_eq_true_eq] at hshares
    rw [codePoints?_cons_of_ne hbackslash, if_neg (by simp [hreturn.2, hshares.1]),
      ih hshares.2 fun hmem => hline (List.mem_cons_of_mem _ hmem)]
    rfl
  | @escape cs cs' ns ns' hescape h ih =>
    cases cs with
    | nil => cases hescape
    | cons d ds =>
      rw [sharesEscapes_escape, Bool.and_eq_true] at hshares
      obtain ⟨hd, hshares⟩ := hshares
      obtain ⟨n, hn, rfl, hrest, hline'⟩ := escape?_of_shared hescape hd fun hmem =>
        hline (List.mem_cons_of_mem _ (List.mem_cons_of_mem _ hmem))
      rw [codePoints?_escape hn, ih (hrest ▸ hshares) hline']
      rfl

/-! ### Other escapes -/

/-- **How a value stands to what is denoted.** It has no fewer backslashes, and no more characters
but for two with each of its backslashes that is not denoted. So it is what is denoted only if all
is in its place. -/
structure Exceeds (ms ns : List Nat) (shares : Bool) : Prop where
  backslashes : ns.count 0x5C ≤ ms.count 0x5C
  length : ms.length + 2 * ns.count 0x5C ≤ ns.length + 2 * ms.count 0x5C
  aligned : ms = ns → shares

namespace Exceeds

variable {ms ns : List Nat} {shares : Bool}

theorem nil : Exceeds [] [] true := ⟨Nat.le_refl _, Nat.le_refl _, fun _ => rfl⟩

/-- Characters that are read as they are meant. -/
theorem same (ls : List Nat) (h : Exceeds ms ns shares) : Exceeds (ls ++ ms) (ls ++ ns) shares := by
  have hbackslashes := h.backslashes
  have hlength := h.length
  refine ⟨?_, ?_, fun heq => h.aligned (List.append_cancel_left heq)⟩
  · simp only [List.count_append]
    omega
  · simp only [List.count_append, List.length_append]
    omega

/-- A character whose backslash stays. -/
theorem kept (h : Exceeds ms ns shares) (n : Nat) (shares' : Bool) :
    Exceeds (0x5C :: n :: ms) (n :: ns) shares' := by
  have hbackslashes := h.backslashes
  have hlength := h.length
  have hcount : (0x5C :: n :: ms).count 0x5C = (n :: ms).count 0x5C + 1 := by simp
  have hcounts : (n :: ns).count 0x5C ≤ (n :: ms).count 0x5C := by
    simp only [List.count_cons]
    omega
  refine ⟨by omega, ?_, fun heq => ?_⟩
  · simp only [List.count_cons, List.length_cons, beq_self_eq_true, if_true]
    omega
  · rw [heq] at hcount
    omega

/-- A character that denotes nothing and stays with its backslash. -/
theorem undenoted (h : Exceeds ms ns shares) {n : Nat} (hn : n ≠ 0x5C) (shares' : Bool) :
    Exceeds (0x5C :: n :: ms) ns shares' := by
  have hbackslashes := h.backslashes
  have hlength := h.length
  have hcount : (0x5C :: n :: ms).count 0x5C = ms.count 0x5C + 1 := by
    simp [hn]
  refine ⟨by omega, ?_, fun heq => ?_⟩
  · rw [hcount]
    simp only [List.length_cons]
    omega
  · rw [heq] at hcount
    omega

/-- The character of the bell, where a letter is meant. -/
theorem bell (h : Exceeds ms ns shares) (shares' : Bool) :
    Exceeds (0x07 :: ms) (0x61 :: ns) shares' := by
  have hbackslashes := h.backslashes
  have hlength := h.length
  have hms : (0x07 :: ms).count 0x5C = ms.count 0x5C := by simp
  have hns : (0x61 :: ns).count 0x5C = ns.count 0x5C := by simp
  refine ⟨by omega, ?_, nofun⟩
  rw [hms, hns]
  simp only [List.length_cons]
  omega

/-- A character where several are meant. -/
theorem folded (h : Exceeds ms ns shares) (m : Nat) {ns' : List Nat} (hns' : 0x5C ∉ ns')
    (hmany : 1 < ns'.length) (shares' : Bool) : Exceeds (m :: ms) (ns' ++ ns) shares' := by
  have hbackslashes := h.backslashes
  have hlength := h.length
  have hns : (ns' ++ ns).count 0x5C = ns.count 0x5C := by
    rw [List.count_append, List.count_eq_zero_of_not_mem hns', Nat.zero_add]
  refine ⟨?_, ?_, fun heq => ?_⟩
  · rw [hns, List.count_cons]
    omega
  · rw [hns, List.count_cons, List.length_cons, List.length_append]
    omega
  · have hcounts := congrArg (List.count 0x5C) heq
    have hlengths := congrArg List.length heq
    rw [hns, List.count_cons] at hcounts
    rw [List.length_cons, List.length_append] at hlengths
    omega

end Exceeds

/-- The escape of a character that needs none. -/
theorem escape?_of_isNonEscape [CharacterNames] {d : Char} (h : isNonEscape d) (hbell : d ≠ 'a')
    (hlong : d ≠ 'U') (hname : d ≠ 'N') {ds : List Char} {ns : List Nat} {n : Nat}
    (hd : escape? d ds = some (ns, n)) : ns = [0x5C, d.toNat] ∧ n = 1 := by
  obtain ⟨h, hline⟩ := Bool.and_eq_true_iff.1 h
  simp only [Bool.and_eq_true, Bool.not_eq_true', decide_eq_true_eq,
    Option.isNone_iff_eq_none] at h
  obtain ⟨⟨⟨hsingle, hdigit⟩, hx⟩, hu⟩ := h
  have hreturn : d ≠ '\r' := by
    rintro rfl
    cases hline
  have hwidth : hexWidth? d = none := by
    unfold hexWidth?
    split <;> first | rfl | contradiction
  have hvalue : escapeValue? d = none := by
    unfold escapeValue?
    split <;> first | rfl | contradiction
  rw [escape?, if_neg hreturn, if_neg (by simp [isOctal_of_not_isDigit hdigit])] at hd
  simp only [hwidth, hvalue, if_neg hname] at hd
  split at hd
  · cases hd
  · obtain ⟨rfl, rfl⟩ := Prod.mk.inj (Option.some.inj hd)
    exact ⟨rfl, rfl⟩

theorem escape?_of_separator [CharacterNames] {d : Char} (h : d = '\u2028' ∨ d = '\u2029')
    (ds : List Char) : escape? d ds = some ([0x5C, d.toNat], 1) := by
  rcases h with rfl | rfl <;> rfl

/-- Hexadecimal digits in front, if there are enough of them. -/
theorem hexEscape?_spec {width n : Nat} {cs : List Char} (h : hexEscape? width cs = some n) :
    (cs.take width).length = width ∧ hexNumber? (cs.take width) = some n := by
  unfold hexEscape? at h
  split at h
  · cases h
  · rename_i hle
    refine ⟨?_, (Option.filter_eq_some_iff.1 h).1⟩
    rw [List.length_take] at hle ⊢
    omega

/-- A name stands between braces, and no backslash is in it. -/
theorem namedEscape?_spec [CharacterNames] {cs : List Char} {c : Char} {width : Nat}
    (h : namedEscape? cs = some (c, width)) : ∃ chunk rest, cs = chunk ++ rest ∧
      chunk.length = width ∧ chunk ≠ [] ∧ ∀ d ∈ chunk, d ≠ '\\' := by
  unfold namedEscape? at h
  split at h
  · rename_i cs
    simp only at h
    split at h
    · rename_i hclosed
      obtain ⟨d, -, hd⟩ := Option.map_eq_some_iff.1 h
      obtain ⟨-, rfl⟩ := Prod.mk.inj hd
      obtain ⟨rest, hrest⟩ :=
        List.head?_eq_some_iff.1 (of_decide_eq_true (Bool.and_eq_true_iff.1 hclosed).1)
      refine ⟨'\x7b' :: (cs.takeWhile isNameChar ++ ['\x7d']), rest, ?_, by simp, by simp, ?_⟩
      · rw [List.cons_append, List.append_assoc, List.singleton_append, ← hrest,
          List.prefix_iff_eq_append.1 (List.takeWhile_prefix isNameChar)]
      · rintro d hd rfl
        simp only [List.mem_cons, List.mem_append, List.not_mem_nil, or_false] at hd
        rcases hd with hd | hd | hd
        · cases hd
        · exact absurd (List.all_eq_true.1 List.all_takeWhile _ hd) (by decide)
        · cases hd
    · cases h
  · cases h

/-- No brace starts a number. -/
theorem escape?_brace [CharacterNames] (ds : List Char) : escape? 'u' ('\x7b' :: ds) = none := by
  have hnone : hexEscape? 4 ('\x7b' :: ds) = none := by
    cases h : hexEscape? 4 ('\x7b' :: ds) with
    | none => rfl
    | some n =>
      obtain ⟨v, hv⟩ := Option.isSome_iff_exists.1
        ((hexNumber?_spec (hexEscape?_spec h).2).2 '\x7b' (List.mem_cons_self ..))
      exact absurd rfl (hexValue?_spec hv).2.2.2
  rw [escape?, if_neg (by decide), if_neg (by decide)]
  simp only [hexWidth?, hnone, Option.map_none]

theorem codePoints?_escape_eq_some [CharacterNames] {d : Char} {ds : List Char} {ms : List Nat}
    (h : codePoints? ('\\' :: d :: ds) = some ms) : ∃ ns n ms', escape? d ds = some (ns, n) ∧
      codePoints? (ds.drop (n - 1)) = some ms' ∧ ms = ns ++ ms' := by
  cases hescape : escape? d ds with
  | none =>
    rw [codePoints?, if_pos rfl] at h
    simp only [hescape] at h
    cases h
  | some r =>
    obtain ⟨ns, n⟩ := r
    rw [codePoints?_escape hescape] at h
    obtain ⟨ms', hms', rfl⟩ := Option.map_eq_some_iff.1 h
    exact ⟨ns, n, ms', rfl, hms', rfl⟩

/-- Plain characters denote themselves. -/
theorem denotes_append {quote : Char} {ds cs : List Char} {ns : List Nat}
    (hds : ∀ d ∈ ds, d ≠ '\\') (h : Denotes quote (ds ++ cs) ns) :
    ∃ ns', ns = ds.map Char.toNat ++ ns' ∧ Denotes quote cs ns' := by
  induction ds generalizing ns with
  | nil => exact ⟨ns, rfl, h⟩
  | cons d ds ih =>
    obtain ⟨hd, hds⟩ := List.forall_mem_cons.1 hds
    cases h with
    | plain _ _ _ hrest =>
      obtain ⟨ns', rfl, hcs⟩ := ih hds hrest
      exact ⟨ns', rfl, hcs⟩
    | escape => exact absurd rfl hd

section Exceeding

variable {quote : Char} {bound : Nat}

/-- What is known of shorter bodies. -/
def ExceedsWithin [CharacterNames] (quote : Char) (bound : Nat) : Prop :=
  ∀ ⦃body : List Char⦄ ⦃ms ns : List Nat⦄, body.length < bound → Denotes quote body ns →
    '\n' ∉ body → codePoints? body = some ms → Exceeds ms ns (sharesEscapes body)

/-- Characters that are read as one and mean themselves. -/
theorem exceeds_of_chunk [CharacterNames] (ih : ExceedsWithin quote bound) {d : Char}
    {chunk rest : List Char} {ms ns : List Nat} (m : Nat)
    (hchunk : ∀ c ∈ d :: chunk, c ≠ '\\') (hne : chunk ≠ [])
    (hbound : (chunk ++ rest).length < bound) (h : Denotes quote (chunk ++ rest) ns)
    (hline : '\n' ∉ chunk ++ rest) (hms : codePoints? rest = some ms) :
    Exceeds (m :: ms) (d.toNat :: ns) false := by
  have hplain : 0x5C ∉ (d :: chunk).map Char.toNat := by
    rw [List.mem_map]
    rintro ⟨c, hc, hcode⟩
    exact hchunk c hc (Char.toNat_inj.1 hcode)
  obtain ⟨ns, rfl, hdenotes⟩ := denotes_append (List.forall_mem_cons.1 hchunk).2 h
  have hrest := ih (Nat.lt_of_le_of_lt (by rw [List.length_append]; omega) hbound) hdenotes
    (fun hmem => hline (List.mem_append_right _ hmem)) hms
  have hlength := List.length_pos_iff.2 hne
  exact hrest.folded m hplain (by rw [List.length_map, List.length_cons]; omega) false

/-- Eight digits are read as one character. -/
theorem exceeds_of_long [CharacterNames] (ih : ExceedsWithin quote bound) {ds : List Char}
    {ls ms ns : List Nat} {n : Nat} (hbound : ds.length < bound) (h : Denotes quote ds ns)
    (hline : '\n' ∉ ds) (hd : escape? 'U' ds = some (ls, n))
    (hms : codePoints? (ds.drop (n - 1)) = some ms) :
    Exceeds (ls ++ ms) ('U'.toNat :: ns) false := by
  rw [escape?, if_neg (by decide), if_neg (by decide)] at hd
  obtain ⟨m, hm, hd⟩ := Option.map_eq_some_iff.1 hd
  obtain ⟨rfl, rfl⟩ := Prod.mk.inj hd
  obtain ⟨hlength, hnumber⟩ := hexEscape?_spec hm
  rw [← List.take_append_drop 8 ds] at h hline hbound
  exact exceeds_of_chunk ih m
    (List.forall_mem_cons.2 ⟨by decide, fun d hd => (ne_of_hexNumber? hnumber d hd).1⟩)
    (List.ne_nil_of_length_eq_add_one hlength) hbound h hline hms

/-- A name is read as the character that goes by it. -/
theorem exceeds_of_named [CharacterNames] (ih : ExceedsWithin quote bound) {ds : List Char}
    {ls ms ns : List Nat} {n : Nat} (hbound : ds.length < bound) (h : Denotes quote ds ns)
    (hline : '\n' ∉ ds) (hd : escape? 'N' ds = some (ls, n))
    (hms : codePoints? (ds.drop (n - 1)) = some ms) :
    Exceeds (ls ++ ms) ('N'.toNat :: ns) false := by
  rw [escape?, if_neg (by decide), if_neg (by decide)] at hd
  obtain ⟨⟨c, width⟩, hc, hd⟩ := Option.map_eq_some_iff.1 hd
  obtain ⟨rfl, rfl⟩ := Prod.mk.inj hd
  obtain ⟨chunk, rest, rfl, rfl, hne, hchunk⟩ := namedEscape?_spec hc
  rw [Nat.add_sub_cancel, List.drop_left] at hms
  exact exceeds_of_chunk ih c.toNat (List.forall_mem_cons.2 ⟨by decide, hchunk⟩) hne hbound h
    hline hms

/-- An escape that means something else. -/
theorem exceeds_of_not_isShared [CharacterNames] (ih : ExceedsWithin quote bound) {d : Char}
    {ds rest : List Char} {ls ms ns ns' : List Nat} {n : Nat} (hbound : ds.length < bound)
    (hescape : Escape (d :: ds) ns rest) (h : Denotes quote rest ns') (hline : '\n' ∉ d :: ds)
    (hd : escape? d ds = some (ls, n)) (hms : codePoints? (ds.drop (n - 1)) = some ms)
    (hshared : isShared d ds = false) :
    Exceeds (ls ++ ms) (ns ++ ns') false := by
  have hds : '\n' ∉ ds := fun hmem => hline (List.mem_cons_of_mem _ hmem)
  cases hescape with
  | single hsingle =>
    exact absurd hshared (by simp [(of_singleEscape? hsingle ds).2])
  | identity hidentity =>
    by_cases hbell : d = 'a'
    · subst hbell
      obtain ⟨rfl, rfl⟩ := Prod.mk.inj (Option.some.inj hd)
      exact (ih hbound h hds hms).bell false
    by_cases hlong : d = 'U'
    · subst hlong
      exact exceeds_of_long ih hbound h hds hd hms
    by_cases hname : d = 'N'
    · subst hname
      exact exceeds_of_named ih hbound h hds hd hms
    · obtain ⟨rfl, rfl⟩ := escape?_of_isNonEscape hidentity hbell hlong hname hd
      exact (ih hbound h hds hms).kept d.toNat false
  | null => cases hshared
  | hex => cases hshared
  | unicode hlength hnumber =>
    rw [isShared_unicode hlength hnumber] at hshared
    cases hshared
  | braced =>
    rw [escape?_brace] at hd
    cases hd
  | lineTerminator hterminator =>
    obtain rfl | rfl | hseparator := isLineTerminator_iff.1 hterminator
    · exact absurd (List.mem_cons_self ..) hline
    · cases hshared
    · obtain ⟨rfl, rfl⟩ := Prod.mk.inj (Option.some.inj
        (hd.symm.trans (escape?_of_separator hseparator ds)))
      have hne : d.toNat ≠ 0x5C := by rcases hseparator with rfl | rfl <;> decide
      exact (ih hbound h hds hms).undenoted hne false
  | lineTerminators => cases hshared

end Exceeding

/-- **Escapes that differ cannot cancel each other.** -/
theorem exceeds_of_denotes [CharacterNames] {quote : Char} {body : List Char} {ms ns : List Nat}
    (h : Denotes quote body ns) (hline : '\n' ∉ body) (hms : codePoints? body = some ms) :
    Exceeds ms ns (sharesEscapes body) := by
  have ih : ExceedsWithin quote body.length := by
    intro body' ms ns hlt h hline hms
    exact exceeds_of_denotes h hline hms
  cases h with
  | nil =>
    rw [codePoints?.eq_def] at hms
    obtain rfl := Option.some.inj hms
    exact .nil
  | @plain c cs ns hquote hbackslash hreturn h =>
    rw [codePoints?_cons_of_ne hbackslash] at hms
    split at hms
    · cases hms
    · rename_i hreadable
      obtain ⟨ms, hrest, rfl⟩ := Option.map_eq_some_iff.1 hms
      have hnull : c ≠ '\x00' := fun hc => hreadable (Or.inr hc)
      rw [sharesEscapes_cons_of_ne hbackslash, decide_eq_true hnull, Bool.true_and]
      exact (ih (Nat.lt_succ_self _) h (fun hmem => hline (List.mem_cons_of_mem _ hmem))
        hrest).same [c.toNat]
  | @escape cs rest ns ns' hescape h =>
    cases cs with
    | nil => cases hescape
    | cons d ds =>
      obtain ⟨ls, n, ms, hd, hrest, rfl⟩ := codePoints?_escape_eq_some hms
      have hcs : '\n' ∉ d :: ds := fun hmem => hline (List.mem_cons_of_mem _ hmem)
      rw [sharesEscapes_escape]
      cases hshared : isShared d ds with
      | true =>
        -- a shared escape denotes what is read, and the rest goes on as before
        have hlt := hescape.length_lt
        obtain ⟨n', hd', rfl, hshares, hline'⟩ := escape?_of_shared hescape hshared fun hmem =>
          hcs (List.mem_cons_of_mem _ hmem)
        obtain ⟨rfl, rfl⟩ := Prod.mk.inj (Option.some.inj (hd.symm.trans hd'))
        rw [Bool.true_and, hshares]
        exact (ih (Nat.lt_succ_of_lt hlt) h hline' hrest).same ls
      | false =>
        -- what any other escape adds the rest cannot take back
        rw [Bool.false_and]
        exact exceeds_of_not_isShared ih (by rw [List.length_cons, List.length_cons]; omega) hescape
          h hcs hd hrest hshared
termination_by body.length

end StringLiteral

/-! ### The tokens of strings -/

namespace Lexer

/-- A string ends before the line does. -/
theorem stringExtent_noLine {quote : Char} {cs : List Char} {n : Nat}
    (h : stringExtent quote cs = some n) : '\n' ∉ cs.take n := by
  fun_induction stringExtent quote cs generalizing n with
  | case1 | case2 | case4 | case5 => cases h
  | case3 cs hline =>
    obtain rfl := Option.some.inj h
    simpa using Ne.symm hline
  | case6 d ds hd hline hquote ih =>
    obtain ⟨m, hm, rfl⟩ := Option.map_eq_some_iff.1 h
    have hrest := ih hm
    simp [hrest, Ne.symm hd]
  | case7 c cs hline hquote hbackslash ih =>
    obtain ⟨m, hm, rfl⟩ := Option.map_eq_some_iff.1 h
    have hrest := ih hm
    simp [hrest, Ne.symm hline]

theorem token?_string_noLine {c : Char} {cs : List Char} {n : Nat}
    (h : token? c cs = some (.string, n)) : '\n' ∉ c :: cs.take n := by
  unfold token? at h
  split at h
  · cases (Prod.mk.inj (Option.some.inj h)).1
  split at h
  · have hkind := (Prod.mk.inj (Option.some.inj h)).1
    have hword := TokenKind.isWord_ofWord (String.ofList (c :: cs.take (run isNameChar cs)))
    rw [hkind] at hword
    exact absurd hword (by decide)
  split at h
  · cases (Prod.mk.inj (Option.some.inj h)).1
  split at h
  · rename_i hline _ _ hquote
    obtain ⟨m, hm, heq⟩ := Option.map_eq_some_iff.1 h
    obtain rfl := (Prod.mk.inj heq).2
    rw [List.mem_cons, not_or]
    exact ⟨Ne.symm hline, stringExtent_noLine hm⟩
  · cases (operator?_spec h).1

theorem scan_string_noLine (o : Origin) (cs : List Char) :
    ∀ t ∈ (scan o cs).tokens, t.kind = .string → '\n' ∉ t.text.toList := by
  fun_induction scan o cs with
  | case1 => exact nofun
  | case2 o c cs n hgap ih => exact ih
  | case3 o c cs hgap kind n htoken text rest ih =>
    intro t ht hk
    rcases List.mem_cons.1 ht with rfl | ht
    · obtain rfl : kind = .string := hk
      rw [String.toList_ofList]
      exact token?_string_noLine htoken
    · exact ih t ht hk
  | case4 => exact nofun

end Lexer

/-! ### Values and what they denote -/

namespace EcmaScript

/-- The literal denotes a text. -/
def LiteralOf (w s : String) : Prop := IsLiteral w (s.toList.map Char.toNat)

theorem singleEscape?_of_escapeLetter? {c d : Char} (h : Text.escapeLetter? c = some d) :
    singleEscape? d = some c.toNat ∧ ∀ ds, StringLiteral.isShared d ds := by
  unfold Text.escapeLetter? at h
  split at h
  all_goals first
    | (obtain rfl := Option.some.inj h
       exact ⟨rfl, fun _ => rfl⟩)
    | cases h

/-- A character between quotes denotes itself, by an escape that is shared if by one. -/
theorem denotes_quotedChar {c : Char} {cs : List Char} {ns : List Nat} (h : Denotes '"' cs ns) :
    Denotes '"' (Text.quotedChar .unicode c ++ cs) (c.toNat :: ns) ∧
      StringLiteral.sharesEscapes (Text.quotedChar .unicode c ++ cs)
        = StringLiteral.sharesEscapes cs := by
  unfold Text.quotedChar
  split
  · rename_i d hd
    obtain ⟨hsingle, hshared⟩ := singleEscape?_of_escapeLetter? hd
    refine ⟨.escape (.single hsingle) h, ?_⟩
    rw [List.cons_append, List.cons_append, List.nil_append, StringLiteral.sharesEscapes_escape,
      hshared, Bool.true_and]
  · rename_i hnone
    obtain ⟨hquote, hbackslash, hline, hreturn⟩ := Text.ne_of_escapeLetter?_eq_none hnone
    split
    · rename_i hlt
      have hnumber : Text.hexNumber? (Text.hexPadded 4 c.toNat) = some c.toNat := by
        rw [Text.hexNumber?_hexPadded, Nat.mod_eq_of_lt (by omega)]
      refine ⟨.escape (.unicode (Text.length_hexPadded 4 c.toNat) hnumber) h, ?_⟩
      rw [Text.unitEscape, List.cons_append, List.cons_append, StringLiteral.sharesEscapes_escape,
        StringLiteral.sharesEscapes_append (StringLiteral.ne_of_hexNumber? hnumber),
        StringLiteral.isShared_unicode (Text.length_hexPadded 4 c.toNat) hnumber, Bool.true_and]
    · rename_i hle
      have hnull : c ≠ '\x00' := by
        rintro rfl
        exact hle (by decide)
      rw [if_pos (by simp), List.singleton_append,
        StringLiteral.sharesEscapes_cons_of_ne hbackslash, decide_eq_true hnull, Bool.true_and]
      exact ⟨.plain hquote hbackslash ⟨hline, hreturn⟩ h, rfl⟩

/-- **A text between quotes denotes the text**, by escapes that are shared. -/
theorem denotes_quotedBody (cs : List Char) :
    Denotes '"' (Text.quotedBody .unicode (cs.map .char)) (cs.map Char.toNat) ∧
      StringLiteral.sharesEscapes (Text.quotedBody .unicode (cs.map .char)) := by
  induction cs with
  | nil => exact ⟨.nil, rfl⟩
  | cons c cs ih =>
    obtain ⟨hdenotes, hshares⟩ := ih
    obtain ⟨hdenotes, hcs⟩ := denotes_quotedChar (c := c) hdenotes
    exact ⟨hdenotes, hcs.trans hshares⟩

/-- Between quotes stands no literal of any other text. -/
theorem literalOf_quoted_iff {s s' w : String} (hw : Text.quoted .unicode s = w) :
    LiteralOf w s' ↔ s = s' := by
  have hlist : w.toList = '"' :: (Text.quotedBody .unicode (s.toList.map .char) ++ ['"']) := by
    rw [← CodeText.written_ofString w, ← hw, Text.written_quoted, CodeText.codes_ofString]
  obtain ⟨hdenotes, hshares⟩ := denotes_quotedBody s.toList
  refine ⟨fun h => ?_, ?_⟩
  · obtain ⟨quote, body, hquote, hbody, h⟩ := h
    rw [hlist] at hbody
    obtain ⟨rfl, hbody⟩ := List.cons.inj hbody
    obtain rfl := List.append_cancel_right hbody
    let _ := CharacterNames.nameless
    have hline : '\n' ∉ Text.quotedBody .unicode (s.toList.map .char) := by
      have hextent := Lexer.stringExtent_noLine
        (Lexer.stringExtent_quotedBody (s.toList.map .char) [])
      rw [List.take_of_length_le (by simp)] at hextent
      exact fun hmem => hextent (List.mem_append_left _ hmem)
    have hvalue := StringLiteral.codePoints?_of_sharesEscapes h hshares hline
    rw [StringLiteral.codePoints?_quotedBody, List.map_map] at hvalue
    exact String.toList_inj.1
      ((List.map_inj_right fun _ _ => Char.toNat_inj.1).1 (Option.some.inj hvalue))
  · rintro rfl
    exact ⟨'"', _, Or.inl rfl, hlist, hdenotes⟩

/-- A text is printed as a literal of itself, and of no other text. -/
theorem exists_literalOf_iff {v : CodeText} {s : String} :
    (∃ w : String, Text.quoted .unicode v = w ∧ LiteralOf w s) ↔ v = s := by
  constructor
  · rintro ⟨w, hw, h⟩
    obtain ⟨t, rfl⟩ := Text.isText_quoted.1 ⟨w, hw⟩
    exact congrArg _ ((literalOf_quoted_iff hw).1 h)
  · rintro rfl
    obtain ⟨w, hw⟩ := Text.isText_quoted.2 (CodeText.isText_ofString s)
    exact ⟨w, hw, (literalOf_quoted_iff hw).2 rfl⟩

end EcmaScript

namespace Token

variable {text : String} {base : Nat} {t : Token} {s : String}

theorem stringValue_eq_ok_iff [CharacterNames] {v : CodeText} :
    t.stringValue = .ok v ↔ StringLiteral.value? t.text = some v := by
  unfold stringValue
  cases StringLiteral.value? t.text <;> simp

open EcmaScript in
/-- **The value of a string is the text that it denotes** if and only if all its escapes are shared;
and then only, what is printed for its value denotes that text. -/
theorem stringValue_eq_iff [CharacterNames] (ht : t ∈ (Tokens.ofText text base).tokens)
    (hkind : t.kind = .string) (h : LiteralOf t.text s) :
    (t.stringValue = .ok (s : CodeText) ↔
        StringLiteral.sharesEscapes t.text.toList.tail.dropLast) ∧
      ((∃ v : CodeText, ∃ w : String, t.stringValue = .ok v ∧ Text.quoted .unicode v = w ∧
          LiteralOf w s) ↔
        StringLiteral.sharesEscapes t.text.toList.tail.dropLast) := by
  have hvalue : t.stringValue = .ok (s : CodeText) ↔
      StringLiteral.sharesEscapes t.text.toList.tail.dropLast := by
    obtain ⟨quote, body, -, htext, h⟩ := h
    have hline := Lexer.scan_string_noLine _ _ t ht hkind
    have hbody : t.text.toList.tail.dropLast = body := by
      rw [htext, List.tail_cons, List.dropLast_concat]
    have hline : '\n' ∉ body := fun hmem => hline (by simp [htext, hmem])
    rw [stringValue_eq_ok_iff, StringLiteral.value?, hbody]
    constructor
    · intro hvalue
      obtain ⟨ms, hms, hs⟩ := Option.map_eq_some_iff.1 hvalue
      exact (StringLiteral.exceeds_of_denotes h hline hms).aligned
        (CodeText.ofNats_eq_ofString_iff.1 hs)
    · intro hshares
      rw [StringLiteral.codePoints?_of_sharesEscapes h hshares hline, Option.map_some,
        CodeText.ofNats_toNat, String.ofList_toList]
  refine ⟨hvalue, ?_⟩
  simpa only [exists_and_left, exists_literalOf_iff, exists_eq_right] using hvalue

section

attribute [local instance] CharacterNames.nameless

/-- An escape that is shared. -/
theorem stringValue_eq_iff_tab :
    (⟨.string, "'a\\tb'", ⟨0, 1, 1⟩⟩ ∈ (Tokens.ofText "'a\\tb'" 0).tokens ∧
      EcmaScript.LiteralOf "'a\\tb'" "a\tb") ∧
      stringValue ⟨.string, "'a\\tb'", ⟨0, 1, 1⟩⟩ = .ok ("a\tb" : String) ∧
      ∃ v : CodeText, ∃ w : String,
        stringValue ⟨.string, "'a\\tb'", ⟨0, 1, 1⟩⟩ = .ok v ∧ Text.quoted .unicode v = w ∧
          EcmaScript.LiteralOf w "a\tb" := by
  have ht : ⟨.string, "'a\\tb'", ⟨0, 1, 1⟩⟩ ∈ (Tokens.ofText "'a\\tb'" 0).tokens := by
    decide +kernel
  have h : EcmaScript.LiteralOf "'a\\tb'" "a\tb" :=
    ⟨'\'', ['a', '\\', 't', 'b'], Or.inr rfl, by decide +kernel,
      .plain (by decide) (by decide) (by decide) (.escape (.single rfl)
        (.plain (by decide) (by decide) (by decide) .nil))⟩
  obtain ⟨hvalue, hprinted⟩ := stringValue_eq_iff ht rfl h
  exact ⟨⟨ht, h⟩, hvalue.2 (by decide +kernel), hprinted.2 (by decide +kernel)⟩

/-- A backslash that means nothing stays. -/
theorem stringValue_backslash_kept :
    ∃ t ∈ (Tokens.ofText "\"\\d\"" 0).tokens, t.kind = .string ∧ EcmaScript.LiteralOf t.text "d" ∧
      t.stringValue = .ok ("\\d" : String) :=
  ⟨⟨.string, "\"\\d\"", ⟨0, 1, 1⟩⟩, by decide +kernel, rfl,
    ⟨'"', ['\\', 'd'], Or.inl rfl, by decide +kernel, .escape (.identity rfl) .nil⟩,
    stringValue_eq_ok_iff.2 (by decide +kernel)⟩

end

end Token

end MessageBinder
