/-
# Reading does not look at columns

A reader looks at the kinds and at the words of tokens, at how many are left, and for a directive
at their lines. What it gives for tokens without columns is therefore what it gives for the tokens
themselves, without its columns. Each reader has this from the readers it is made of.

Key definitions: `Reply.lined`, `Skims`.
Key theorems: `Skims.bind`, `skims_commaSeparated`, `skims_skipGroup`, `skims_typeExpr`.
-/
import ScriptHost.Proofs.Item.Lined
import ScriptHost.TypeExpr.Parser

namespace ScriptHost

open Parse Source

variable {α α' β β' γ γ' : Type}

/-- A reply without columns, those of its value taken away by `f`. -/
def Reply.lined (f : α → α') : Reply α → Reply α'
  | done a d => .done (f a) d.lined
  | failed e d => .failed e.lined d.lined

@[simp] theorem Reply.isDone_lined (f : α → α') (r : Reply α) : (r.lined f).isDone = r.isDone := by
  cases r <;> rfl

/-- What `q` gives for tokens without columns is what `p` gives for the tokens, without columns. -/
def Skims (f : α → α') (p : Parse α) (q : Parse α') : Prop := ∀ c : Cursor, q c.lined = (p c).lined f

namespace Skims

variable {f : α → α'} {g : β → β'} {p p₁ : Parse α} {q q₁ : Parse α'}

theorem pure (f : α → α') (a : α) : Skims f (Pure.pure a) (Pure.pure (f a)) := fun _ => rfl

/-- **Readers in a row do not look at columns if none does.** -/
theorem bind {k : α → Parse β} {l : α' → Parse β'} (hp : Skims f p q)
    (hk : ∀ a, Skims g (k a) (l (f a))) : Skims g (p >>= k) (q >>= l) := by
  intro c
  rw [bind_apply, bind_apply, hp c]
  cases p c with
  | done a d => exact hk a d
  | failed e d => rfl

theorem map {h : α → β} {h' : α' → β'} (hp : Skims f p q) (hh : ∀ a, h' (f a) = g (h a)) :
    Skims g (h <$> p) (h' <$> q) := by
  intro c
  rw [map_apply, map_apply, hp c]
  cases p c with
  | done a d => simp only [Reply.lined, hh]
  | failed e d => rfl

theorem ite {b : Prop} [Decidable b] (hp : Skims f p q) (hq : Skims f p₁ q₁) :
    Skims f (if b then p else p₁) (if b then q else q₁) := by
  split
  · exact hp
  · exact hq

theorem here_bind {k : Cursor → Parse β} {l : Cursor → Parse β'} (h : ∀ c, Skims g (k c) (l c.lined)) :
    Skims g (here >>= k) (here >>= l) := fun c => h c c

theorem complain (f : α → α') (x : Complaint) : Skims f (Parse.complain x) (Parse.complain x.lined) := by
  intro c
  simp only [Parse.complain, Cursor.span_lined]
  rfl

end Skims

/-! ### Single tokens -/

theorem skims_eat (kind : TokenKind) : Skims id (eat kind) (eat kind) := by
  intro c
  rw [eat, eat, Cursor.isAt_lined, Cursor.tail_lined]
  split <;> rfl

theorem skims_expect (kind : TokenKind) : Skims Token.lined (expect kind) (expect kind) := by
  intro c
  unfold expect
  rw [Cursor.rest_lined]
  cases c.rest with
  | nil => exact Skims.complain _ .unexpectedEnd c
  | cons t r =>
    simp only [List.map_cons, Token.kind_lined, Cursor.goto_lined]
    by_cases hk : t.kind = kind
    · rw [if_pos hk, if_pos hk]
      rfl
    · rw [if_neg hk, if_neg hk]
      exact Skims.complain _ (.expectedToken kind t.kind) c

theorem skims_expectIdentifier : Skims Ident.lined expectIdentifier expectIdentifier := by
  intro c
  unfold expectIdentifier
  rw [Cursor.rest_lined]
  cases c.rest with
  | nil => exact Skims.complain _ .unexpectedEnd c
  | cons t r =>
    simp only [List.map_cons, Token.kind_lined, Token.ofToken_lined, Cursor.goto_lined]
    by_cases hk : t.kind = .identifier
    · rw [if_pos hk, if_pos hk]
      rfl
    · rw [if_neg hk, if_neg hk]
      exact Skims.complain _ (.expectedIdentifier t.kind) c

theorem skims_commaSeparatedWithin {f : α → α'} {item : Parse α} {item' : Parse α'}
    (h : Skims f item item') : ∀ n,
      Skims (List.map f) (commaSeparatedWithin item n) (commaSeparatedWithin item' n)
  | 0 => h.bind fun a => .pure (List.map f) [a]
  | n + 1 => h.bind fun a => (skims_eat .comma).bind fun _ => .ite
      ((skims_commaSeparatedWithin h n).bind fun more => .pure (List.map f) (a :: more))
      (.pure (List.map f) [a])

theorem skims_commaSeparated {f : α → α'} {item : Parse α} {item' : Parse α'}
    (h : Skims f item item') : Skims (List.map f) (commaSeparated item) (commaSeparated item') := by
  intro c
  rw [commaSeparated, Cursor.rest_lined, List.length_map]
  exact skims_commaSeparatedWithin h _ c

/-! ### Groups -/

/-- The end of a group, without columns. -/
def GroupEnd.lined : GroupEnd → GroupEnd
  | closed closer rest => .closed closer.lined (rest.map Token.lined)
  | mismatched closer pair rest => .mismatched closer.lined pair (rest.map Token.lined)
  | unclosed => .unclosed

theorem closeGroup_lined : ∀ (pair : Delimiter) (outer : List Delimiter) (r : List Token),
    closeGroup pair outer (r.map Token.lined) = (closeGroup pair outer r).lined
  | pair, outer, [] => rfl
  | pair, outer, t :: r => by
    simp only [List.map_cons, closeGroup, Token.kind_lined]
    split
    · exact closeGroup_lined _ _ r
    · split
      · cases outer with
        | nil => rfl
        | cons next outer => exact closeGroup_lined _ _ r
      · rfl
    · exact closeGroup_lined _ _ r

theorem skims_skipGroup : Skims Token.lined skipGroup skipGroup := by
  intro c
  unfold skipGroup
  rw [Cursor.rest_lined]
  cases c.rest with
  | nil => exact Skims.complain _ .unexpectedEnd c
  | cons t r =>
    simp only [List.map_cons, Token.kind_lined]
    split
    · rw [closeGroup_lined]
      cases closeGroup _ [] r <;> rfl
    · exact Skims.complain _ (.expectedToken (.opening .brace) _) c

theorem skims_skipUntilWithin (stops : TokenKind → Bool) : ∀ n,
    Skims id (skipUntilWithin stops n) (skipUntilWithin stops n)
  | 0 => fun _ => rfl
  | n + 1 => by
    intro c
    simp only [skipUntilWithin]
    rw [Cursor.rest_lined]
    cases c.rest with
    | nil => exact Skims.complain _ .unexpectedEnd c
    | cons t r =>
      simp only [List.map_cons, Token.kind_lined]
      by_cases hk : stops t.kind
      · rw [if_pos hk, if_pos hk]
        rfl
      rw [if_neg hk, if_neg hk]
      split
      · rw [skims_skipGroup c]
        cases skipGroup c with
        | done _ d => exact skims_skipUntilWithin stops n d
        | failed e d => rfl
      · exact Skims.complain _ (.unexpectedCloser _) c
      · exact skims_skipUntilWithin stops n (c.goto r)

theorem skims_skipUntil (stops : TokenKind → Bool) : Skims id (skipUntil stops) (skipUntil stops) := by
  intro c
  rw [skipUntil, Cursor.rest_lined, List.length_map]
  exact skims_skipUntilWithin stops _ c

theorem skims_skipAttributesWithin : ∀ n, Skims id (skipAttributesWithin n) (skipAttributesWithin n)
  | 0 => .pure id ()
  | n + 1 => by
    intro c
    simp only [skipAttributesWithin, Cursor.isAt_lined]
    split
    · rw [skims_skipGroup c]
      cases skipGroup c with
      | done _ d => exact skims_skipAttributesWithin n d
      | failed e d => rfl
    · rfl

theorem skims_skipAttributes : Skims id skipAttributes skipAttributes := by
  intro c
  rw [skipAttributes, Cursor.rest_lined, List.length_map]
  exact skims_skipAttributesWithin _ c

/-! ### Written types -/

theorem moreSegments_lined : ∀ r : List Token, moreSegments (r.map Token.lined) =
    ((moreSegments r).1.map Ident.lined, (moreSegments r).2.map Token.lined)
  | [] => rfl
  | [t] => rfl
  | point :: t :: r => by
    simp only [List.map_cons, moreSegments, Token.kind_lined]
    by_cases h : point.kind = .dot ∧ t.kind = .identifier
    · rw [if_pos h, if_pos h, moreSegments_lined r]
      rfl
    · rw [if_neg h, if_neg h]
      rfl

theorem skims_dottedName : Skims (List.map Ident.lined) dottedName dottedName := by
  refine skims_expectIdentifier.bind fun first c => ?_
  rw [Cursor.rest_lined, moreSegments_lined]
  rfl

theorem closeRank?_lined : ∀ r : List Token,
    closeRank? (r.map Token.lined) = (closeRank? r).map (List.map Token.lined)
  | [] => rfl
  | t :: r => by
    simp only [List.map_cons, closeRank?, Token.kind_lined, closeRank?_lined r]
    by_cases hcomma : t.kind = .comma
    · rw [if_pos hcomma, if_pos hcomma]
    rw [if_neg hcomma, if_neg hcomma]
    by_cases hk : t.kind = .closing .bracket
    · rw [if_pos hk, if_pos hk]
      rfl
    · rw [if_neg hk, if_neg hk]
      rfl

theorem typeSuffixesWithin_lined : ∀ (n : Nat) (r : List Token),
    typeSuffixesWithin n (r.map Token.lined) =
      ((typeSuffixesWithin n r).1, (typeSuffixesWithin n r).2.map Token.lined)
  | 0, r => rfl
  | n + 1, [] => rfl
  | n + 1, t :: r => by
    simp only [List.map_cons, typeSuffixesWithin, Token.kind_lined]
    by_cases hq : t.kind = .question
    · rw [if_pos hq, if_pos hq, typeSuffixesWithin_lined n r]
    rw [if_neg hq, if_neg hq]
    by_cases hb : t.kind = .opening .bracket
    · rw [if_pos hb, if_pos hb, closeRank?_lined]
      cases closeRank? r with
      | none => rfl
      | some r' =>
        simp only [Option.map_some, typeSuffixesWithin_lined n r']
    · rw [if_neg hb, if_neg hb]
      rfl

theorem skims_typeSuffixes : Skims id typeSuffixes typeSuffixes := by
  intro c
  rw [typeSuffixes, Cursor.rest_lined, List.length_map, typeSuffixesWithin_lined]
  rfl

theorem dropGlobal_lined : ∀ r : List Token,
    dropGlobal (r.map Token.lined) = (dropGlobal r).map Token.lined
  | [] => rfl
  | [t] => rfl
  | t :: colons :: r => by
    simp only [List.map_cons, dropGlobal, Token.kind_lined, Token.lexeme_lined]
    by_cases h : t.lexeme = "global" ∧ colons.kind = .operator ∧ colons.lexeme = "::"
    · rw [if_pos h, if_pos h]
    · rw [if_neg h, if_neg h]
      rfl

section

variable {type : Parse TypeExpr}

theorem skims_typeArguments (h : Skims TypeExpr.lined type type) :
    Skims (List.map TypeExpr.lined) (typeArguments type) (typeArguments type) := by
  refine .here_bind fun c => (skims_eat .less).bind fun _ => .ite ?_ (.pure _ [])
  refine (skims_commaSeparated h).bind fun args => (skims_eat .greater).bind fun _ => .ite ?_ ?_
  · exact .pure (List.map TypeExpr.lined) args
  · rw [Cursor.span_lined]
    exact .complain _ (.openTypeArguments c.span)

theorem skims_typeParts (start : Cursor) (h : Skims TypeExpr.lined type type) :
    Skims TypeExpr.lined (typeParts start type) (typeParts start.lined type) := by
  refine skims_dottedName.bind fun path => (skims_typeArguments h).bind fun args =>
    skims_typeSuffixes.bind fun suffixes => .here_bind fun stop => ?_
  rw [Cursor.spanSince_lined, id, ← TypeExpr.linedAll_eq_map]
  exact .pure TypeExpr.lined (.mk path args suffixes (start.spanSince stop))

end

theorem skims_typeExprWithin : ∀ n, Skims TypeExpr.lined (typeExprWithin n) (typeExprWithin n)
  | 0 => by
    intro c
    simp only [typeExprWithin, Cursor.kind?_lined]
    exact Skims.complain _ (.expectedType c.kind?) c
  | n + 1 => by
    intro c
    simp only [typeExprWithin, Cursor.kind?_lined, Cursor.isAt_lined]
    by_cases h : c.isAt .identifier
    · rw [if_pos h, if_pos h, Cursor.rest_lined, dropGlobal_lined, Cursor.goto_lined]
      exact skims_typeParts c (skims_typeExprWithin n) _
    · rw [if_neg h, if_neg h]
      exact Skims.complain _ (.expectedType c.kind?) c

/-- **A written type is read without looking at columns.** -/
theorem skims_typeExpr : Skims TypeExpr.lined typeExpr typeExpr := by
  intro c
  rw [typeExpr, Cursor.rest_lined, List.length_map]
  exact skims_typeExprWithin _ c

theorem skims_typeParameter : Skims Ident.lined typeParameter typeParameter :=
  skims_skipAttributes.bind fun _ => (skims_eat .inWord).bind fun _ =>
    .ite skims_expectIdentifier ((skims_eat .outWord).bind fun _ => skims_expectIdentifier)

theorem skims_typeParameters : Skims (List.map Ident.lined) typeParameters typeParameters :=
  (skims_eat .less).bind fun _ => .ite
    ((skims_commaSeparated skims_typeParameter).bind fun names =>
      (skims_expect .greater).bind fun _ => .pure (List.map Ident.lined) names)
    (.pure _ [])

end ScriptHost
