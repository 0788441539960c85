/-
# The text of a written type is read back

The text of a written type is words and marks one behind the other, so its tokens do not depend on
what is written behind it, if that goes on with no word and with no `?`. They are a written type
again, with the same tree but for the places. So the text of a type is read back as that type.

Key definitions: `TypeExpr.IsPlain`, `EndsText`, `TypeExpr.Respells`.
Key theorems: `TypeExpr.IsPlain.respells`, `Parse.typeExpr_text`.
-/
import Mathlib.Data.List.Chain
import ScriptHost.Proofs.Grammar.Types
import ScriptHost.Proofs.Item.Bare
import ScriptHost.Proofs.Token.Written

namespace ScriptHost

open Source

/-- Every name in the type, at any depth of its arguments, is an identifier and no keyword, and no
`?` stands behind another one. -/
inductive TypeExpr.IsPlain : TypeExpr → Prop
  | mk {path : List Ident} {args : List TypeExpr} {suffixes : List TypeSuffix} {span : Span}
    (hne : path ≠ []) (hpath : ∀ i ∈ path, IsPlainWord i.name) (hargs : ∀ a ∈ args, IsPlain a)
    (hsuffixes : suffixes.IsChain fun s s' => ¬ (s = .nullable ∧ s' = .nullable)) :
    IsPlain (.mk path args suffixes span)

/-- What goes on with no word and makes no operator with a `?`. -/
structure EndsText (rest : List Char) : Prop where
  word : ∀ c ∈ rest.head?, isIdentContinue c = false
  question : ∀ c ∈ rest.head?, pair? '?' c = none

theorem endsText_cons {c : Char} (hword : isIdentContinue c = false) (hquestion : pair? '?' c = none)
    (r : List Char) : EndsText (c :: r) where
  word d hd := by rwa [← Option.some.inj hd]
  question d hd := by rwa [← Option.some.inj hd]

variable {rest : List Char} {w : List Token}

/-! ### Dotted names -/

theorem toList_dottedText : ∀ (i : Ident) (path : List Ident),
    (dottedText (i :: path)).toList = i.name.toList ++ path.flatMap fun j => '.' :: j.name.toList
  | i, [] => by simp [dottedText]
  | i, j :: path => by
    have ih := toList_dottedText j path
    simp only [dottedText, String.toList_intercalate, List.map_cons] at ih ⊢
    rw [List.intercalate_cons_cons, ih, List.flatMap_cons]
    simp

/-- What stands behind a segment goes on with no word. -/
theorem head_segments (path : List Ident) (hrest : ∀ c ∈ rest.head?, isIdentContinue c = false) :
    ∀ c ∈ (path.flatMap (fun i => '.' :: i.name.toList) ++ rest).head?, isIdentContinue c = false := by
  cases path with
  | nil => exact hrest
  | cons j path =>
    intro c hc
    obtain rfl := Option.some.inj hc
    decide

/-- The segments of a dotted name behind the first one, by induction on them. -/
theorem lexes_segments : ∀ {path : List Ident}, (∀ i ∈ path, IsPlainWord i.name) →
    (∀ c ∈ rest.head?, isIdentContinue c = false) →
      Lexes (path.flatMap fun i => '.' :: i.name.toList) rest fun w =>
        ∃ path', SegmentTokens w path' ∧ path'.map Ident.bare = path.map Ident.bare
  | [], _, _ => .nil rest ⟨[], .nil, rfl⟩
  | i :: path, hpath, hrest => by
    obtain ⟨hi, hmore⟩ := List.forall_mem_cons.mp hpath
    have hname := (lexes_segments hmore hrest).cons_identifier (.plain hi) (head_segments path hrest)
    refine (hname.cons_lone (c := '.') (by decide) rfl (by decide)).imp ?_
    rintro _ ⟨point, _, rfl, hpoint, t, w, rfl, hk, hl, path', hsegments, hbare⟩
    refine ⟨.ofToken t :: path', .cons hpoint hk hsegments, ?_⟩
    simp [hbare, Ident.bare, Ident.ofToken, hl]

/-! ### Suffixes -/

/-- Suffixes, by induction on them: no two `?` come together to an operator. -/
theorem lexes_suffixes : ∀ {suffixes : List TypeSuffix},
    (suffixes.IsChain fun s s' => ¬ (s = .nullable ∧ s' = .nullable)) → EndsText rest →
      Lexes (suffixes.flatMap fun s => s.text.toList) rest fun w => SuffixTokens w suffixes
  | [], _, _ => .nil rest .nil
  | .nullable :: suffixes, hchain, hrest => by
    have hnext : ∀ c ∈ (suffixes.flatMap (fun s => s.text.toList) ++ rest).head?, pair? '?' c = none := by
      cases suffixes with
      | nil => exact hrest.question
      | cons s suffixes =>
        cases s with
        | nullable => exact absurd ⟨rfl, rfl⟩ (List.isChain_cons_cons.mp hchain).1
        | array =>
          intro c hc
          obtain rfl := Option.some.inj hc
          rfl
    refine ((lexes_suffixes hchain.tail hrest).cons_mark (c := '?') (by decide) rfl hnext).imp ?_
    rintro _ ⟨t, w, rfl, ht, hsuffixes⟩
    exact .nullable ht hsuffixes
  | .array :: suffixes, hchain, hrest => by
    have hcloser := (lexes_suffixes hchain.tail hrest).cons_lone (c := ']') (by decide) rfl (by decide)
    refine (hcloser.cons_lone (c := '[') (by decide) rfl (by decide)).imp ?_
    rintro _ ⟨opener, _, rfl, ho, closer, w, rfl, hc, hsuffixes⟩
    exact @SuffixTokens.array opener closer [] w suffixes ho (by simp) hc hsuffixes

/-! ### Arguments -/

/-- Wherever the text of the type is written, in front of what ends it, its tokens are a written type
with the same tree but for the places. -/
def TypeExpr.Respells (type : TypeExpr) : Prop :=
  ∀ rest : List Char, EndsText rest → Lexes type.text.toList rest fun w =>
    ∃ type', TypeTokens w type' ∧ type'.bare = type.bare

/-- The text of the arguments behind the first one. -/
theorem toList_textsAfter (args : List TypeExpr) :
    (TypeExpr.textsAfter args).toList = args.flatMap fun a => ',' :: ' ' :: a.text.toList := by
  induction args with
  | nil => simp [TypeExpr.textsAfter]
  | cons a args ih =>
    rw [TypeExpr.textsAfter, String.toList_append, String.toList_append, ih]
    simp

/-- The text of the arguments with their brackets. -/
def argumentsText : List TypeExpr → List Char
  | [] => []
  | first :: more =>
    '<' :: (first.text.toList ++ more.flatMap (fun a => ',' :: ' ' :: a.text.toList) ++ ['>'])

theorem toList_text (path : List Ident) (args : List TypeExpr) (suffixes : List TypeSuffix)
    (span : Span) :
    (TypeExpr.mk path args suffixes span).text.toList =
      (dottedText path).toList ++ (argumentsText args ++ suffixes.flatMap fun s => s.text.toList) := by
  have hsuffixes : (String.join (suffixes.map TypeSuffix.text)).toList =
      suffixes.flatMap fun s => s.text.toList := by
    rw [String.toList_join, List.flatMap_map]
  cases args with
  | nil => rw [TypeExpr.text, String.toList_append, hsuffixes]; simp [argumentsText]
  | cons first more =>
    rw [TypeExpr.text]
    simp only [String.toList_append, hsuffixes, toList_textsAfter, argumentsText]
    simp

/-- The text of a type starts with a name. -/
theorem TypeExpr.IsPlain.trivia_text {type : TypeExpr} (h : type.IsPlain) (r : List Char) :
    trivia (type.text.toList ++ r) = ([], type.text.toList ++ r) := by
  obtain @⟨path, args, suffixes, span, hne, hpath, -, -⟩ := h
  obtain ⟨i, path, rfl⟩ := List.exists_cons_of_ne_nil hne
  rw [toList_text, toList_dottedText, List.append_assoc, List.append_assoc]
  exact (Spells.plain (hpath i List.mem_cons_self)).trivia _

/-- Arguments between the brackets, by induction on those behind the first one. -/
theorem lexes_list : ∀ {more : List TypeExpr} {first : TypeExpr},
    (∀ a ∈ first :: more, a.IsPlain ∧ a.Respells) →
      Lexes (first.text.toList ++ more.flatMap fun a => ',' :: ' ' :: a.text.toList) ('>' :: rest)
        fun w => ∃ args, Separated TypeTokens w args ∧
          args.map TypeExpr.bare = (first :: more).map TypeExpr.bare
  | [], first, h => by
    have hfirst := (h first List.mem_cons_self).2 _ (endsText_cons (c := '>') (by decide) rfl rest)
    rw [List.flatMap_nil, List.append_nil]
    refine hfirst.imp ?_
    rintro w ⟨type, htype, hbare⟩
    exact ⟨[type], .last htype, by simp [hbare]⟩
  | a :: more, first, h => by
    obtain ⟨hfirst, hmore⟩ := List.forall_mem_cons.mp h
    have hblank := (lexes_list hmore).cons_blank (c := ' ') (by decide) (by
      rw [List.append_assoc]
      exact (h a (by simp)).1.trivia_text _)
    have hcomma := hblank.cons_lone (c := ',') (by decide) rfl (by decide)
    refine ((hfirst.2 _ (endsText_cons (c := ',') (by decide) rfl _)).append hcomma).imp ?_
    rintro _ ⟨v, _, rfl, ⟨type, htype, hbare⟩, comma, w, rfl, hk, args, hargs, hbares⟩
    refine ⟨type :: args, .cons htype hk hargs, ?_⟩
    rw [List.map_cons, hbare, hbares]
    rfl

/-- Arguments with their brackets. -/
theorem lexes_arguments {args : List TypeExpr} (h : ∀ a ∈ args, a.IsPlain ∧ a.Respells) :
    Lexes (argumentsText args) rest fun w =>
      ∃ args', Angled TypeTokens w args' ∧ args'.map TypeExpr.bare = args.map TypeExpr.bare := by
  cases args with
  | nil => exact .nil rest ⟨[], .none, rfl⟩
  | cons first more =>
    have hcloser := (Lexes.nil rest (P := (· = [])) rfl).cons_lone (c := '>') (by decide) rfl (by decide)
    have hlist := (lexes_list h).append hcloser
    refine (hlist.cons_lone (c := '<') (by decide) rfl (by decide)).imp ?_
    rintro _ ⟨opener, _, rfl, ho, w, _, rfl, ⟨args', hargs, hbare⟩, closer, _, rfl, hc, rfl⟩
    exact ⟨args', .some ho hargs hc, hbare⟩

/-! ### Types -/

theorem exists_spans (hw : w ≠ []) : ∃ s : Span, s.Spans w := by
  obtain ⟨t, r, rfl⟩ := List.exists_cons_of_ne_nil hw
  exact ⟨_, t, _, rfl, List.getLast?_eq_some_getLast hw, rfl⟩

/-- **The text of a type is a written type again**, wherever it stands and whatever ends it, by
induction on the type. -/
theorem TypeExpr.IsPlain.respells {type : TypeExpr} (h : type.IsPlain) : type.Respells := by
  induction h with
  | @mk path args suffixes span hne hpath hargs hchain ih =>
    intro rest hrest
    obtain ⟨i, path, rfl⟩ := List.exists_cons_of_ne_nil hne
    obtain ⟨hi, hpath⟩ := List.forall_mem_cons.mp hpath
    have hbehind : ∀ c ∈ (argumentsText args ++ suffixes.flatMap (fun s => s.text.toList) ++ rest).head?,
        isIdentContinue c = false := by
      cases args with
      | cons first more =>
        intro c hc
        obtain rfl := Option.some.inj hc
        decide
      | nil =>
        cases suffixes with
        | nil => exact hrest.word
        | cons s suffixes =>
          intro c hc
          cases s <;> obtain rfl := Option.some.inj hc <;> decide
    have harguments := (lexes_arguments fun a ha => ⟨hargs a ha, ih a ha⟩).append
      (lexes_suffixes hchain hrest)
    have hnext := head_segments path hbehind
    rw [← List.append_assoc] at hnext
    have hall := ((lexes_segments hpath hbehind).append harguments).cons_identifier (.plain hi) hnext
    rw [toList_text, toList_dottedText, List.append_assoc]
    refine hall.imp ?_
    rintro _ ⟨t, _, rfl, hk, hl, segments, _, rfl, ⟨path', hpath', hnames⟩, arguments, marks, rfl,
      ⟨args', hargs', hbares⟩, hsuffixes⟩
    obtain ⟨span', hspan⟩ := exists_spans (List.cons_ne_nil t (segments ++ (arguments ++ marks)))
    refine ⟨.mk (.ofToken t :: path') args' suffixes span',
      .mk .none hk hpath' hargs' hsuffixes hspan, ?_⟩
    simp [TypeExpr.bare, TypeExpr.bareAll_eq_map, hbares, hnames, Ident.bare, Ident.ofToken, hl]

/-! ### Printing and reading back -/

theorem endsText_nil : EndsText [] where
  word _ hc := by cases hc
  question _ hc := by cases hc

theorem endsType_nil (w : List Token) : EndsType w [] where
  dot _ ht := by cases ht
  less _ ht := by cases ht
  question _ ht := by cases ht
  bracket _ ht := by cases ht
  colons _ _ _ _ ht := by cases ht

/-- **Printing a type and reading it back is the identity**, but for the places. The text is lexed
without a problem, the reader takes all of it, and the path, the arguments and the suffixes are the
same at every depth. -/
theorem Parse.typeExpr_text {type : TypeExpr} (h : type.IsPlain) :
    (lex type.text).errors = [] ∧
      ∃ type', typeExpr (.ofLexed (lex type.text)) = .done type' ⟨[], (lex type.text).finish⟩ ∧
        type'.bare = type.bare := by
  obtain ⟨herrors, type', htokens, hbare⟩ := (h.respells [] endsText_nil).lex
  have hread : Accepts (lex type.text).finish typeExpr (lex type.text).tokens [] type' :=
    accepts_typeExpr htokens (endsType_nil _)
  rw [Accepts, List.append_nil] at hread
  exact ⟨herrors, type', hread, hbare⟩

/-- A path, nested arguments and suffixes at every depth. -/
def sampleNested : TypeExpr :=
  .mk [⟨"A", default⟩, ⟨"Map", default⟩]
    [.mk [⟨"string", default⟩] [] [.array] default,
      .mk [⟨"List", default⟩] [.mk [⟨"int", default⟩] [] [.nullable, .array] default] [] default]
    [.array, .nullable] default

theorem sampleNested_text :
    sampleNested.IsPlain ∧ sampleNested.text = "A.Map<string[], List<int?[]>>[]?" ∧
      ∃ type', Parse.typeExpr (.ofLexed (lex sampleNested.text)) =
          .done type' ⟨[], (lex sampleNested.text).finish⟩ ∧
        type'.bare = sampleNested := by
  have hstring : (TypeExpr.mk [⟨"string", default⟩] [] [.array] default).IsPlain :=
    .mk (by decide) (by decide) (by simp) (by decide)
  have hint : (TypeExpr.mk [⟨"int", default⟩] [] [.nullable, .array] default).IsPlain :=
    .mk (by decide) (by decide) (by simp) (by decide)
  have hplain : sampleNested.IsPlain := by
    refine .mk (by decide) (by decide) ?_ (by decide)
    refine List.forall_mem_cons.mpr ⟨hstring, List.forall_mem_singleton.mpr ?_⟩
    exact .mk (by decide) (by decide) (List.forall_mem_singleton.mpr hint) .nil
  obtain ⟨-, type', hread, hbare⟩ := Parse.typeExpr_text hplain
  exact ⟨hplain, by decide +kernel, type', hread, hbare.trans rfl⟩

end ScriptHost
