/-
# The names in a text

An identifier of a text is a name: it has a character at least, and no character but letters,
digits and underscores. So no name holds a mark that joins names to longer texts, and a text
made of names and such marks can be taken apart again.

Key definitions: `IsName`, `Token.Names`.
Key theorems: `isName_of_scan`, `scan_of_mem_lex`, `names_of_mem_lex`.
-/
import ScriptHost.Token.Lexer

namespace ScriptHost

open Source

/-- Whether a text is made of the characters of identifiers, one at least. -/
structure IsName (name : String) : Prop where
  nonempty : name.toList ≠ []
  chars : ∀ c ∈ name.toList, isIdentContinue c = true

instance (name : String) : Decidable (IsName name) :=
  decidable_of_iff (name.toList.isEmpty = false ∧ name.toList.all isIdentContinue = true)
    ⟨fun h => ⟨List.isEmpty_eq_false_iff.mp h.1, List.all_eq_true.mp h.2⟩,
      fun h => ⟨List.isEmpty_eq_false_iff.mpr h.nonempty, List.all_eq_true.mpr h.chars⟩⟩

/-- A character that no identifier has is in no name. -/
theorem IsName.not_mem {name : String} {c : Char} (h : IsName name)
    (hc : isIdentContinue c = false) : c ∉ name.toList := fun hmem => by
  have htrue := h.chars c hmem
  rw [hc] at htrue
  exact absurd htrue Bool.false_ne_true

/-- If a token is an identifier, its text is a name. -/
def Token.Names (t : Token) : Prop := t.kind = .identifier → IsName t.lexeme

theorem isIdentContinue_of_start {c : Char} (h : isIdentStart c) : isIdentContinue c := by
  simp only [isIdentStart, isIdentContinue, Bool.or_eq_true] at h ⊢
  rcases h with h | h
  · exact .inl (.inl h)
  · exact .inr h

theorem isName_takeWhile {c : Char} (r : List Char) (hc : isIdentContinue c) :
    IsName (String.ofList (c :: r.takeWhile isIdentContinue)) where
  nonempty := by simp
  chars := by
    rw [String.toList_ofList]
    refine List.forall_mem_cons.mpr ⟨hc, fun d hd => ?_⟩
    exact List.all_eq_true.mp List.all_takeWhile d hd

theorem kind_of_scanQuoted {quote : Char} {kind kind' : TokenKind} {lead seen r name : List Char}
    (h : (scanQuoted quote kind lead seen r).verdict = .token kind' name) : kind' = kind := by
  unfold scanQuoted at h
  split at h
  · exact (Verdict.token.inj h).1.symm
  · cases h

theorem kind_of_scanVerbatim {kind : TokenKind} {lead seen r name : List Char}
    (h : (scanVerbatim lead seen r).verdict = .token kind name) : kind = .stringLiteral := by
  unfold scanVerbatim at h
  split at h
  · exact (Verdict.token.inj h).1.symm
  · cases h

theorem isName_of_scanMarked {c : Char} {r name : List Char}
    (h : (scanMarked c r).verdict = .token .identifier name) : IsName (String.ofList name) := by
  simp only [scanMarked] at h
  split at h
  · cases h
  · split at h
    · exact absurd (kind_of_scanVerbatim h) (by decide)
    · exact absurd (kind_of_scanQuoted h) (by decide)
  next d r' _ hafter =>
    split at h
    next hstart =>
      have hd := isIdentContinue_of_start (Bool.and_eq_true_iff.mp hstart).2
      have hname := (Verdict.token.inj h).2
      rw [hafter, List.takeWhile_cons_of_pos hd] at hname
      rw [← hname]
      exact isName_takeWhile r' hd
    · cases h

theorem punctuation?_ne_identifier (c : Char) : punctuation? c ≠ some .identifier := by
  unfold punctuation?
  split <;> decide

theorem pair?_ne_identifier (c d : Char) : pair? c d ≠ some .identifier := by
  unfold pair?
  split <;> decide

/-- A token of punctuation is of a kind for its first character or for the first two. -/
theorem kind_of_scanPunctuation {c : Char} {kind : TokenKind} {r lexeme : List Char}
    (h : (scanPunctuation c r).verdict = .token kind lexeme) :
    punctuation? c = some kind ∨ ∃ d, pair? c d = some kind := by
  simp only [scanPunctuation] at h
  split at h
  · split at h
    next hkind =>
      rw [← (Verdict.token.inj h).1]
      exact .inl hkind
    · cases h
  next d r' =>
    split at h
    next hkind =>
      rw [← (Verdict.token.inj h).1]
      exact .inr ⟨d, hkind⟩
    · split at h
      next hkind =>
        rw [← (Verdict.token.inj h).1]
        exact .inl hkind
      · cases h

theorem scanPunctuation_ne_identifier {c : Char} {r name : List Char} :
    (scanPunctuation c r).verdict ≠ .token .identifier name := by
  intro h
  rcases kind_of_scanPunctuation h with hkind | ⟨d, hkind⟩
  · exact punctuation?_ne_identifier c hkind
  · exact pair?_ne_identifier c d hkind

/-- **An identifier that is scanned is a name.** -/
theorem isName_of_scan {c : Char} {r name : List Char}
    (h : (scan c r).verdict = .token .identifier name) : IsName (String.ofList name) := by
  unfold scan at h
  split at h
  · cases h
  split at h
  · exact absurd (kind_of_scanQuoted h) (by decide)
  split at h
  · exact absurd (kind_of_scanQuoted h) (by decide)
  split at h
  · exact isName_of_scanMarked h
  split at h
  · exact absurd (Verdict.token.inj h).1 (by decide)
  split at h
  next hstart =>
    obtain ⟨-, rfl⟩ := Verdict.token.inj h
    exact isName_takeWhile r (isIdentContinue_of_start hstart)
  · exact absurd h scanPunctuation_ne_identifier

/-- Every token of a text was scanned somewhere in it, by induction on their number. -/
theorem scan_of_mem_lexWithin : ∀ (n : Nat) (p : Position) (cs : List Char),
    ∀ t ∈ (lexWithin n p cs).tokens,
      ∃ c r, (scan c r).verdict = .token t.kind t.lexeme.toList
  | 0, p, cs, t, ht => by simp [lexWithin, Lexed.tokens] at ht
  | n + 1, p, cs, t, ht => by
    unfold lexWithin at ht
    split at ht
    next blank after hafter =>
    split at ht
    · simp [Lexed.tokens] at ht
    next c r =>
      have hmore := scan_of_mem_lexWithin n
        ((p.advance blank).advance (c :: (scan c r).taken)) (scan c r).rest t
      cases hv : (scan c r).verdict with
      | token kind lexeme =>
        simp only [Lexed.tokens, Scan.lexeme, hv, List.filterMap_cons, List.mem_cons] at ht
        rcases ht with rfl | ht
        · exact ⟨c, r, by rw [hv, String.toList_ofList]⟩
        · exact hmore ht
      | fault fault length =>
        simp only [Lexed.tokens, Scan.lexeme, hv, List.filterMap_cons] at ht
        exact hmore ht

theorem scan_of_mem_lex {source : String} {t : Token} (ht : t ∈ (lex source).tokens) :
    ∃ c r, (scan c r).verdict = .token t.kind t.lexeme.toList :=
  scan_of_mem_lexWithin _ _ _ t ht

/-- **Every identifier of a text is a name.** -/
theorem names_of_mem_lex {source : String} {t : Token} (ht : t ∈ (lex source).tokens) :
    t.Names := fun hk => by
  obtain ⟨c, r, hscan⟩ := scan_of_mem_lex ht
  rw [hk] at hscan
  have hname := isName_of_scan hscan
  rwa [String.ofList_toList] at hname

end ScriptHost
