/-
# Words and marks as they are written

A word is a token by itself in front of anything that does not go on with it, and so is a mark in
front of anything that is no operator together with it. A blank in front of such a token is no part
of any. So what is written word by word and mark by mark is lexed one token after the other,
wherever it stands and whatever is written behind it. The words that are no keywords are exactly the
texts that are lexed as one identifier.

Key definitions: `IsWord`, `IsPlainWord`, `Spells`, `startsMark`, `Lexes`.
Key theorems: `Lexes.append`, `Lexes.cons_identifier`, `Lexes.cons_mark`, `Lexes.cons_blank`,
`isPlainWord_iff_lex`.
-/
import ScriptHost.Proofs.Token.Boundary
import ScriptHost.Proofs.Token.Names
import ScriptHost.Proofs.Token.Stepwise

namespace ScriptHost

open Source

/-- Whether a text is an identifier or a keyword: a name that starts with no digit. -/
structure IsWord (word : String) : Prop extends IsName word where
  start : ∀ c ∈ word.toList.head?, isIdentStart c = true

/-- Whether a text is an identifier and no keyword. -/
structure IsPlainWord (word : String) : Prop extends IsWord word where
  plain : keyword? word = none

instance (word : String) : Decidable (IsWord word) :=
  decidable_of_iff (IsName word ∧ word.toList.head?.all isIdentStart = true)
    ⟨fun h => ⟨h.1, by simpa [Option.all_eq_true] using h.2⟩,
      fun h => ⟨h.toIsName, by simpa [Option.all_eq_true] using h.start⟩⟩

instance (word : String) : Decidable (IsPlainWord word) :=
  decidable_of_iff (IsWord word ∧ keyword? word = none)
    ⟨fun h => ⟨h.1, h.2⟩, fun h => ⟨h.toIsWord, h.plain⟩⟩

/-- How an identifier is written: plainly, or any word behind an `@`. -/
inductive Spells : String → String → Prop
  | plain {name : String} (h : IsPlainWord name) : Spells name name
  | verbatim {name : String} (h : IsWord name) : Spells ("@" ++ name) name

/-- Whether a character starts neither trivia nor a literal nor a word. -/
def startsMark (c : Char) : Bool :=
  !(c == '\ufeff' || isBlank c || c == '/' || c == '"' || c == '\'' || isMark c || c.isDigit ||
    isIdentStart c)

variable {c : Char} {r a b x cs rest : List Char} {text name : String} {P Q : List Token → Prop}

theorem IsWord.cons_eq (h : IsWord name) :
    ∃ c r, name.toList = c :: r ∧ isIdentStart c ∧ ∀ d ∈ r, isIdentContinue d := by
  obtain ⟨c, r, hname⟩ := List.exists_cons_of_ne_nil h.nonempty
  refine ⟨c, r, hname, h.start c (by rw [hname]; rfl), fun d hd => h.chars d ?_⟩
  rw [hname]
  exact List.mem_cons_of_mem c hd

/-! ### The first character -/

theorem isDigit_of_isIdentStart (h : isIdentStart c) : c.isDigit = false := by
  cases hd : c.isDigit with
  | false => rfl
  | true =>
    have hrange : 48 ≤ c.toNat ∧ c.toNat ≤ 57 := by
      simp only [Char.isDigit, Bool.and_eq_true, decide_eq_true_eq] at hd
      exact hd
    have hdigits : ∀ n ∈ List.range' 48 10, isIdentStart (Char.ofNat n) = false := by decide
    have hc := hdigits c.toNat (List.mem_range'_1.mpr ⟨hrange.1, by omega⟩)
    rw [Char.ofNat_toNat, h] at hc
    cases hc

/-- What goes on with a word is none of the characters that do not. -/
theorem ne_of_isIdentContinue {d : Char} (hd : isIdentContinue d = false) (h : isIdentContinue c) :
    c ≠ d := by
  rintro rfl
  rw [hd] at h
  cases h

/-- What starts a word is none of the characters that start something else. -/
theorem ne_of_isIdentStart {d : Char} (hd : isIdentStart d = false) (h : isIdentStart c) : c ≠ d := by
  rintro rfl
  rw [hd] at h
  cases h

theorem trivia_isIdentContinue (h : isIdentContinue c) (r : List Char) :
    trivia (c :: r) = ([], c :: r) := by
  refine trivia_of_first (ne_of_isIdentContinue (by decide +kernel) h) ?_
    (splitComment_of_ne (ne_of_isIdentContinue (by decide) h) r)
  cases hb : isBlank c with
  | false => rfl
  | true =>
    rw [isIdentContinue_of_blank hb] at h
    cases h

theorem trivia_isIdentStart (h : isIdentStart c) (r : List Char) : trivia (c :: r) = ([], c :: r) :=
  trivia_isIdentContinue (isIdentContinue_of_start h) r

theorem scan_isIdentStart (h : isIdentStart c) (r : List Char) : scan c r = scanWord c r := by
  have hslash : c ≠ '/' := ne_of_isIdentStart (by decide) h
  have hdouble : c ≠ '"' := ne_of_isIdentStart (by decide) h
  have hsingle : c ≠ '\'' := ne_of_isIdentStart (by decide) h
  simp [scan, hslash, hdouble, hsingle, isMark_of_isIdentStart h, isDigit_of_isIdentStart h, h]

/-- Behind an `@` a word is taken as an identifier, whatever word it is. -/
theorem scan_verbatim (h : isIdentStart c) (r : List Char) :
    scan '@' (c :: r) = ⟨.token .identifier ((c :: r).takeWhile isIdentContinue),
      (c :: r).takeWhile isIdentContinue, (c :: r).dropWhile isIdentContinue⟩ := by
  have hmark : isMark c = false := isMark_of_isIdentStart h
  have hquote : c ≠ '"' := ne_of_isIdentStart (by decide) h
  have hscan : scan '@' (c :: r) = scanMarked '@' (c :: r) := by simp [scan, isMark]
  rw [hscan]
  unfold scanMarked
  simp only [List.takeWhile_cons, List.dropWhile_cons, hmark, Bool.false_eq_true, ↓reduceIte,
    List.nil_append]
  split
  · rfl
  · next hno => exact absurd h (by simpa using hno)

theorem trivia_mark (h : startsMark c) (r : List Char) : trivia (c :: r) = ([], c :: r) := by
  simp only [startsMark, Bool.not_eq_true', Bool.or_eq_false_iff, beq_eq_false_iff_ne] at h
  obtain ⟨⟨⟨⟨⟨⟨⟨hfirst, hblank⟩, hslash⟩, -⟩, -⟩, -⟩, -⟩, -⟩ := h
  exact trivia_of_first hfirst hblank (splitComment_of_ne hslash r)

theorem trivia_at (r : List Char) : trivia ('@' :: r) = ([], '@' :: r) :=
  trivia_of_first (by decide) (by decide) (splitComment_of_ne (by decide) r)

theorem scan_mark (h : startsMark c) (r : List Char) : scan c r = scanPunctuation c r := by
  simp only [startsMark, Bool.not_eq_true', Bool.or_eq_false_iff, beq_eq_false_iff_ne] at h
  obtain ⟨⟨⟨⟨⟨⟨-, hslash⟩, hdouble⟩, hsingle⟩, hmark⟩, hdigit⟩, hword⟩ := h
  simp [scan, hslash, hdouble, hsingle, hmark, hdigit, hword]

/-- Only three marks begin an operator of two characters. -/
theorem pair?_eq_none (hc : c ∉ [':', '=', '?']) (d : Char) : pair? c d = none := by
  simp only [List.mem_cons, List.not_mem_nil, or_false, not_or] at hc
  unfold pair?
  split <;> simp_all

/-! ### What is written is lexed -/

/-- Wherever the text stands, in front of `rest` it is lexed as tokens with the property. -/
def Lexes (cs rest : List Char) (P : List Token → Prop) : Prop :=
  ∀ p, ∃ w, lexFrom p (cs ++ rest) = (lexFrom (p.advance cs) rest).behind w ∧ P w

namespace Lexes

theorem nil (rest : List Char) (h : P []) : Lexes [] rest P := fun _ => ⟨[], rfl, h⟩

theorem imp (h : Lexes cs rest P) (hPQ : ∀ w, P w → Q w) : Lexes cs rest Q := fun p => by
  obtain ⟨w, hw, hP⟩ := h p
  exact ⟨w, hw, hPQ w hP⟩

/-- **Texts one behind the other are lexed one after the other.** -/
theorem append (ha : Lexes a (b ++ rest) P) (hb : Lexes b rest Q) :
    Lexes (a ++ b) rest fun s => ∃ v w, s = v ++ w ∧ P v ∧ Q w := fun p => by
  obtain ⟨v, hv, hP⟩ := ha p
  obtain ⟨w, hw, hQ⟩ := hb (p.advance a)
  refine ⟨v ++ w, ?_, v, w, rfl, hP, hQ⟩
  rw [List.append_assoc, hv, hw, ← Lexed.behind_append, Position.advance_append]

/-- A text that is scanned as one token, in front of another text. -/
theorem cons_token {kind : TokenKind} {l : List Char}
    (htrivia : trivia (c :: x ++ (b ++ rest)) = ([], c :: x ++ (b ++ rest)))
    (hscan : scan c (x ++ (b ++ rest)) = ⟨.token kind l, x, b ++ rest⟩) (hb : Lexes b rest Q) :
    Lexes (c :: x ++ b) rest fun s =>
      ∃ t w, s = t :: w ∧ t.kind = kind ∧ t.lexeme = String.ofList l ∧ Q w := by
  have hfirst : Lexes (c :: x) (b ++ rest) fun w =>
      ∃ t, w = [t] ∧ t.kind = kind ∧ t.lexeme = String.ofList l := fun p =>
    ⟨_, lexFrom_token htrivia hscan, _, rfl, rfl, rfl⟩
  refine (hfirst.append hb).imp ?_
  rintro _ ⟨_, w, rfl, ⟨t, rfl, hkind, hlexeme⟩, hQ⟩
  exact ⟨t, w, rfl, hkind, hlexeme, hQ⟩

/-- **A word is one token**, in front of what does not go on with it. -/
theorem cons_word (h : IsWord name) (hnext : ∀ c ∈ (b ++ rest).head?, isIdentContinue c = false)
    (hb : Lexes b rest Q) : Lexes (name.toList ++ b) rest fun s =>
      ∃ t w, s = t :: w ∧ t.kind = (keyword? name).getD .identifier ∧ t.lexeme = name ∧ Q w := by
  obtain ⟨c, r, hname, hstart, hr⟩ := h.cons_eq
  obtain ⟨htaken, hleft⟩ := while_exact hr hnext
  have hscan : scan c (r ++ (b ++ rest)) =
      ⟨.token ((keyword? name).getD .identifier) name.toList, r, b ++ rest⟩ := by
    rw [scan_isIdentStart hstart, scanWord]
    simp only [htaken, hleft, ← hname, String.ofList_toList]
  have htoken := cons_token (trivia_isIdentStart hstart _) hscan hb
  rwa [← hname, String.ofList_toList] at htoken

/-- **An identifier is one token**, with its name for a lexeme however it is written. -/
theorem cons_identifier (h : Spells text name)
    (hnext : ∀ c ∈ (b ++ rest).head?, isIdentContinue c = false) (hb : Lexes b rest Q) :
    Lexes (text.toList ++ b) rest fun s =>
      ∃ t w, s = t :: w ∧ t.kind = .identifier ∧ t.lexeme = name ∧ Q w := by
  cases h with
  | plain h =>
    have hword := hb.cons_word h.toIsWord hnext
    rwa [h.plain] at hword
  | verbatim h =>
    obtain ⟨c, r, hname, hstart, hr⟩ := h.cons_eq
    have hall : ∀ d ∈ c :: r, isIdentContinue d :=
      List.forall_mem_cons.mpr ⟨isIdentContinue_of_start hstart, hr⟩
    obtain ⟨htaken, hleft⟩ := while_exact hall hnext
    have hscan := scan_verbatim hstart (r ++ (b ++ rest))
    rw [← List.cons_append, htaken, hleft] at hscan
    have htoken := cons_token (trivia_at _) hscan hb
    rw [← hname, String.ofList_toList] at htoken
    rwa [String.toList_append]

/-- **A mark is one token**, in front of what is no operator with it. -/
theorem cons_mark {kind : TokenKind} (h : startsMark c) (hk : punctuation? c = some kind)
    (hnext : ∀ d ∈ (b ++ rest).head?, pair? c d = none) (hb : Lexes b rest Q) :
    Lexes (c :: b) rest fun s => ∃ t w, s = t :: w ∧ t.kind = kind ∧ Q w := by
  have hscan : scan c ([] ++ (b ++ rest)) = ⟨.token kind [c], [], b ++ rest⟩ := by
    rw [List.nil_append, scan_mark h]
    cases hr : b ++ rest with
    | nil => simp [scanPunctuation, hk]
    | cons d r => simp [scanPunctuation, hnext d (by rw [hr]; rfl), hk]
  refine (cons_token (trivia_mark h _) hscan hb).imp ?_
  rintro _ ⟨t, w, rfl, hkind, -, hQ⟩
  exact ⟨t, w, rfl, hkind, hQ⟩

/-- A mark that begins no operator is one token in front of anything. -/
theorem cons_lone {kind : TokenKind} (h : startsMark c) (hk : punctuation? c = some kind)
    (hc : c ∉ [':', '=', '?']) (hb : Lexes b rest Q) :
    Lexes (c :: b) rest fun s => ∃ t w, s = t :: w ∧ t.kind = kind ∧ Q w :=
  hb.cons_mark h hk fun d _ => pair?_eq_none hc d

/-- A blank is no token, in front of one. -/
theorem cons_blank (hc : isBlank c) (hnext : trivia (b ++ rest) = ([], b ++ rest))
    (hb : Lexes b rest P) : Lexes (c :: b) rest P := fun p => by
  obtain ⟨w, hw, hP⟩ := hb (p.advance [c])
  have hblank : trivia ([c] ++ (b ++ rest)) = ([c], b ++ rest) :=
    trivia_blanks (by simpa using hc) hnext
  refine ⟨w, ?_, hP⟩
  rw [← List.singleton_append, List.append_assoc, lexFrom_trivia hblank hnext, hw,
    Position.advance_append]

/-- A source that is lexed as a whole has no lexical fault. -/
theorem lex {source : String} (h : Lexes source.toList [] P) :
    (lex source).errors = [] ∧ P (lex source).tokens := by
  obtain ⟨w, hw, hP⟩ := h .start
  have hend (p : Position) : lexFrom p [] = ⟨[], p⟩ := lexFrom_nil (a := []) rfl
  have hlex : ScriptHost.lex source = (⟨[], Position.start.advance source.toList⟩ : Lexed).behind w := by
    rw [← hend, ← hw, List.append_nil]
    rfl
  rw [hlex, Lexed.errors_behind, Lexed.tokens_behind]
  exact ⟨rfl, by simpa [Lexed.tokens] using hP⟩

end Lexes

/-! ### What is lexed as an identifier -/

theorem keyword?_ne_identifier (word : String) : keyword? word ≠ some .identifier := by
  unfold keyword?
  split <;> simp

/-- What starts with a character of identifiers is lexed as an identifier only if it is a word and
no keyword. -/
theorem keyword?_of_scan {kind : TokenKind} {l : List Char} (hc : isIdentContinue c)
    (h : (scan c r).verdict = .token kind l) (hkind : kind = .identifier) :
    isIdentStart c ∧ keyword? (String.ofList (c :: r.takeWhile isIdentContinue)) = none := by
  subst hkind
  have hslash : c ≠ '/' := ne_of_isIdentContinue (by decide) hc
  have hdouble : c ≠ '"' := ne_of_isIdentContinue (by decide) hc
  have hsingle : c ≠ '\'' := ne_of_isIdentContinue (by decide) hc
  have hmark : isMark c = false := by
    simp only [isMark, Bool.or_eq_false_iff, beq_eq_false_iff_ne]
    exact ⟨ne_of_isIdentContinue (by decide) hc, ne_of_isIdentContinue (by decide) hc⟩
  simp only [scan, hslash, hdouble, hsingle, hmark, false_and, Bool.false_eq_true, ↓reduceIte] at h
  split at h
  · exact absurd (Verdict.token.inj h).1 (by decide)
  · split at h
    next hstart =>
      refine ⟨hstart, ?_⟩
      have hword := (Verdict.token.inj h).1
      cases hkeyword : keyword? (String.ofList (c :: r.takeWhile isIdentContinue)) with
      | none => rfl
      | some kind =>
        rw [hkeyword, Option.getD_some] at hword
        exact absurd (hword ▸ hkeyword) (keyword?_ne_identifier _)
    · exact absurd h scanPunctuation_ne_identifier

/-- **A text is an identifier and no keyword exactly if it is lexed as one**, as a whole. Behind an
`@` stands a different text. -/
theorem isPlainWord_iff_lex {word : String} : IsPlainWord word ↔
    (lex word).errors = [] ∧
      ∃ t, (lex word).tokens = [t] ∧ t.kind = .identifier ∧ t.lexeme = word := by
  constructor
  · intro h
    have hword := (Lexes.nil [] (P := (· = [])) rfl).cons_identifier (.plain h) (by simp)
    rw [List.append_nil] at hword
    obtain ⟨herrors, t, _, htokens, hkind, hlexeme, rfl⟩ := hword.lex
    exact ⟨herrors, t, htokens, hkind, hlexeme⟩
  · rintro ⟨herrors, t, htokens, hkind, hlexeme⟩
    have ht : t ∈ (lex word).tokens := htokens ▸ List.mem_singleton_self t
    have hname : IsName word := hlexeme ▸ names_of_mem_lex ht hkind
    obtain ⟨c, r, hcs⟩ := List.exists_cons_of_ne_nil hname.nonempty
    have hall : ∀ d ∈ c :: r, isIdentContinue d := hcs ▸ hname.chars
    obtain ⟨hc, hr⟩ := List.forall_mem_cons.mp hall
    have hlex : lex word = lexFrom .start (c :: r) := by rw [lex, hcs]; rfl
    rw [hlex, lexFrom_cons (trivia_isIdentContinue hc r)] at herrors htokens
    cases hverdict : (scan c r).verdict with
    | fault fault length => simp [Lexed.errors, Scan.lexeme, hverdict] at herrors
    | token kind l =>
      simp only [Lexed.tokens, Scan.lexeme, hverdict, List.filterMap_cons] at htokens
      have hfirst : kind = t.kind := congrArg Token.kind (List.cons.inj htokens).1
      obtain ⟨hstart, hplain⟩ := keyword?_of_scan hc hverdict (hfirst.trans hkind)
      rw [List.takeWhile_eq_self_iff.mpr hr, ← hcs, String.ofList_toList] at hplain
      refine ⟨⟨hname, fun d hd => ?_⟩, hplain⟩
      rw [hcs] at hd
      rwa [← Option.some.inj hd]

/-- No trivia stands in front of a word. -/
theorem IsWord.trivia (h : IsWord name) (rest : List Char) :
    trivia (name.toList ++ rest) = ([], name.toList ++ rest) := by
  obtain ⟨c, r, hname, hstart, -⟩ := h.cons_eq
  rw [hname]
  exact trivia_isIdentStart hstart _

theorem Spells.trivia (h : Spells text name) (rest : List Char) :
    trivia (text.toList ++ rest) = ([], text.toList ++ rest) := by
  cases h with
  | plain h => exact h.toIsWord.trivia rest
  | verbatim h => rw [String.toList_append]; exact trivia_at _

end ScriptHost
