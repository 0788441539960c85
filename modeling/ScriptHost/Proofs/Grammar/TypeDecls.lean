/-
# The grammar of type declarations

A type declaration is written with modifiers, its word, a name, perhaps type parameters, perhaps a
parenthesised group, perhaps base types behind a colon, each perhaps with a group, perhaps
constraints, and a block or a `;`. A `;` directly behind the block belongs to the declaration, so
the grammar looks at what follows. A turn reads every type declaration behind attribute groups as it
is written.

Key definitions: `TypeWordTokens`, `ArgumentTokens`, `BaseTokens`, `TypeBodyTokens`,
`TypeDeclTokens`.
Key theorems: `Parse.accepts_baseTypes`, `Parse.accepts_typeDecl`, `turn_eq_typeDecl`.
-/
import ScriptHost.Proofs.Grammar.Declarations

namespace ScriptHost

open Parse Source

variable {c : Cursor} {attributes w more : List Token} {finish : Position}

/-! ### The grammar -/

/-- The word of a type declaration; `record` may have `struct` or `class` behind it. -/
inductive TypeWordTokens : List Token → TypeDeclKind → Prop
  | single {word : Token} (hw : word.kind.isTypeWord) : TypeWordTokens [word] (typeKindOf word.kind)
  | record {word second : Token} (hw : word.kind = .recordWord)
    (hs : second.kind = .structWord ∨ second.kind = .classWord) :
    TypeWordTokens [word, second] .recordDecl

/-- A parenthesised group, or nothing. -/
inductive ArgumentTokens : List Token → Prop
  | none : ArgumentTokens []
  | some {opener closer : Token} {inner : List Token} (ho : opener.kind = .opening .paren)
    (hi : Balanced inner) (hc : closer.kind = .closing .paren) :
    ArgumentTokens (opener :: inner ++ [closer])

/-- A base type with its arguments. -/
inductive BaseTokens : List Token → TypeExpr → Prop
  | mk {typeWords arguments : List Token} {type : TypeExpr} (htype : TypeTokens typeWords type)
    (harguments : ArgumentTokens arguments) : BaseTokens (typeWords ++ arguments) type

/-- The base types behind a colon, or nothing. -/
inductive BaseLists : List Token → List TypeExpr → Prop
  | none : BaseLists [] []
  | some {colon : Token} {w : List Token} {bases : List TypeExpr} (hc : colon.kind = .colon)
    (h : Separated BaseTokens w bases) : BaseLists (colon :: w) bases

/-- The body in front of `more`: a block that no `;` follows, a block with a `;`, or a `;`. -/
inductive TypeBodyTokens (more : List Token) : List Token → Prop
  | block {opener closer : Token} {inner : List Token} (ho : opener.kind = .opening .brace)
    (hi : Balanced inner) (hc : closer.kind = .closing .brace)
    (hmore : ∀ t ∈ more.head?, t.kind ≠ .semicolon) :
    TypeBodyTokens more (opener :: inner ++ [closer])
  | blockEnded {opener closer semicolon : Token} {inner : List Token}
    (ho : opener.kind = .opening .brace) (hi : Balanced inner) (hc : closer.kind = .closing .brace)
    (hs : semicolon.kind = .semicolon) :
    TypeBodyTokens more (opener :: inner ++ [closer] ++ [semicolon])
  | ended {semicolon : Token} (hs : semicolon.kind = .semicolon) : TypeBodyTokens more [semicolon]

/-- The tokens where the constraints of a type declaration end. -/
def endsConstraints (kind : TokenKind) : Bool := kind == .opening .brace || kind == .semicolon

/-- The tokens in front of `more` are a type declaration. Its constraints have no block and no `;`
outside groups. -/
inductive TypeDeclTokens (more : List Token) : List Token → TypeDecl → Prop
  | mk {words typeWord generics arguments baseWords constraints body : List Token} {nameWord : Token}
    {modifiers : Modifiers} {kind : TypeDeclKind} {typeParameters : List Ident} {bases : List TypeExpr}
    {span : Span} (hmodifiers : ModifierTokens words modifiers) (hword : TypeWordTokens typeWord kind)
    (hname : nameWord.kind = .identifier) (hgenerics : Angled TypeParameterTokens generics typeParameters)
    (harguments : ArgumentTokens arguments) (hbases : BaseLists baseWords bases)
    (hconstraints : ConstraintTokens endsConstraints constraints) (hbody : TypeBodyTokens more body)
    (hspan : span.Spans (words ++
      (typeWord ++ nameWord :: (generics ++ (arguments ++ (baseWords ++ (constraints ++ body))))))) :
    TypeDeclTokens more (words ++
        (typeWord ++ nameWord :: (generics ++ (arguments ++ (baseWords ++ (constraints ++ body))))))
      ⟨modifiers, kind, .ofToken nameWord, typeParameters, bases, span⟩

/-! ### What the parts begin with -/

theorem TypeWordTokens.starts {kind : TypeDeclKind} (h : TypeWordTokens w kind) :
    Starts [.classWord, .structWord, .interfaceWord, .enumWord, .recordWord] w := by
  cases h with
  | @single word hw =>
    refine .cons ?_ _
    cases hk : word.kind <;> simp_all [TokenKind.isTypeWord]
  | record hw _ => exact .cons (by simp [hw]) _

theorem ArgumentTokens.starts (h : ArgumentTokens w) : w = [] ∨ Starts [.opening .paren] w := by
  cases h with
  | none => exact .inl rfl
  | some ho _ _ => exact .inr (.of_kind ho _)

theorem BaseLists.starts {bases : List TypeExpr} (h : BaseLists w bases) :
    w = [] ∨ Starts [.colon] w := by
  cases h with
  | none => exact .inl rfl
  | some hc _ => exact .inr (.of_kind hc _)

theorem TypeBodyTokens.starts (h : TypeBodyTokens more w) : Starts [.opening .brace, .semicolon] w := by
  cases h with
  | block ho _ _ _ | blockEnded ho _ _ _ => exact .cons (by simp [ho]) _
  | ended hs => exact .cons (by simp [hs]) _

/-! ### What is written is read so -/

namespace Parse

theorem accepts_typeWord {kind : TypeDeclKind} (h : TypeWordTokens w kind)
    (hmore : Starts [.identifier] more) : Accepts finish typeWord w more kind := by
  obtain ⟨name, r, rfl, hname⟩ := hmore.cons_eq
  cases h with
  | @single word hw =>
    have hbehind : behindTypeWord word.kind (name :: r) = name :: r := by
      simp [behindTypeWord, List.mem_singleton.mp hname]
    unfold Accepts
    rw [typeWord_eq (t := word) rfl hw]
    exact congrArg (fun r => Reply.done (typeKindOf word.kind) ⟨r, finish⟩) hbehind
  | @record word second hw hs =>
    have hbehind : behindTypeWord word.kind (second :: name :: r) = name :: r := by
      simp [behindTypeWord, hw, hs]
    unfold Accepts
    rw [typeWord_eq (t := word) rfl (by rw [hw]; rfl), hw]
    exact congrArg (fun r => Reply.done TypeDeclKind.recordDecl ⟨r, finish⟩) (hw ▸ hbehind)

theorem accepts_skipArguments (h : ArgumentTokens w)
    (hmore : ∀ t ∈ more.head?, t.kind ≠ .opening .paren) : Accepts finish skipArguments w more () := by
  refine .here_bind ?_
  cases h with
  | none => exact .neg (Bool.eq_false_iff.mp (isAt_of_kind_ne hmore)) (.pure ())
  | some ho hi hc => exact .pos (isAt_of_kind ho) ((accepts_skipGroup ho hc hi).bind_end (.pure ()))

/-- A base type stands in front of a comma, constraints or a body. -/
theorem accepts_baseType {type : TypeExpr} (h : BaseTokens w type)
    (hmore : Starts [.comma, .identifier, .opening .brace, .semicolon] more) :
    Accepts finish baseType w more type := by
  obtain ⟨htype, harguments⟩ := h
  have hends := Starts.optional harguments.starts hmore
  refine (accepts_typeExpr htype (.of_starts hends (by decide))).bind ?_
  exact (accepts_skipArguments harguments (hmore.kind_ne (by decide))).bind_end (.pure type)

/-- **Base types are accepted** in front of constraints or a body. -/
theorem accepts_baseTypes {bases : List TypeExpr} (h : BaseLists w bases)
    (hmore : Starts [.identifier, .opening .brace, .semicolon] more) :
    Accepts finish baseTypes w more bases := by
  cases h with
  | none =>
    exact (accepts_eat_none (hmore.kind_ne (by decide))).then_bind (.neg Bool.false_ne_true (.pure []))
  | some hc h =>
    refine (accepts_eat hc).cons_bind (.pos rfl ?_)
    exact accepts_commaSeparated h hmore (by decide) fun v rest type htype _ hrest =>
      accepts_baseType htype hrest

/-- **A type declaration is accepted from its word on.** -/
theorem accepts_typeDecl {front typeWord generics arguments baseWords constraints body : List Token}
    {nameWord : Token} {kind : TypeDeclKind} {typeParameters : List Ident} {bases : List TypeExpr}
    {span : Span} (modifiers : Modifiers) (hword : TypeWordTokens typeWord kind)
    (hname : nameWord.kind = .identifier) (hgenerics : Angled TypeParameterTokens generics typeParameters)
    (harguments : ArgumentTokens arguments) (hbases : BaseLists baseWords bases)
    (hconstraints : ConstraintTokens endsConstraints constraints) (hbody : TypeBodyTokens more body)
    (hspan : span.Spans front) :
    Accepts finish (typeDecl ⟨front ++ more, finish⟩ modifiers)
      (typeWord ++ nameWord :: (generics ++ (arguments ++ (baseWords ++ (constraints ++ body))))) more
      ⟨modifiers, kind, .ofToken nameWord, typeParameters, bases, span⟩ := by
  have hclause := Starts.optional hconstraints.starts hbody.starts
  have hcolon := Starts.optional hbases.starts hclause
  have hopen := Starts.optional harguments.starts hcolon
  have hrun : Accepts finish (skipConstraints endsConstraints) constraints (body ++ more) () :=
    accepts_skipConstraints hconstraints (hbody.starts.append more) (by decide)
  refine (accepts_typeWord hword (.of_kind hname _)).bind ?_
  refine (accepts_expectIdentifier hname).cons_bind ?_
  refine (accepts_typeParameters hgenerics ((hopen.append more).kind_ne (by decide))).bind ?_
  refine (accepts_skipArguments harguments ((hcolon.append more).kind_ne (by decide))).bind ?_
  refine (accepts_baseTypes hbases (hclause.append more)).bind (hrun.bind (.here_bind ?_))
  cases hbody with
  | block ho hi hc hmore =>
    refine .pos (isAt_of_kind ho) ((accepts_skipGroup ho hc hi).bind_end ?_)
    exact (accepts_eat_none hmore).then_bind (.span_end _ hspan)
  | blockEnded ho hi hc hs =>
    refine .pos (isAt_of_kind ho) ((accepts_skipGroup ho hc hi).bind ?_)
    exact (accepts_eat hs).bind_end (.span_end _ hspan)
  | ended hs =>
    refine .neg (Bool.eq_false_iff.mp (isAt_of_kind_ne (by simp [hs]))) ?_
    exact (accepts_expect hs).bind_end (.span_end _ hspan)

end Parse

/-- **Every type declaration is read as it is written**, behind attribute groups. The turn takes just
these tokens and reports nothing. -/
theorem turn_eq_typeDecl {type : TypeDecl} (declared : Bool) (hc : c.rest = attributes ++ w ++ more)
    (hattributes : AttributeGroups attributes) (htype : TypeDeclTokens more w type) :
    turn declared c = ⟨some (.typeDecl type), none, c.goto more⟩ := by
  obtain ⟨hmodifiers, hword, hname, hgenerics, harguments, hbases, hconstraints, hbody, hspan⟩ := htype
  obtain ⟨rest, finish⟩ := c
  obtain rfl : rest = _ := hc
  refine turn_of_typeDecl declared hattributes hmodifiers (hword.starts.append _) (by decide) ?_
  exact accepts_typeDecl _ hword hname hgenerics harguments hbases hconstraints hbody hspan

/-- A type declaration with base types, constraints and a `;` of its own, and a name behind it. -/
def spelledRecord : String := "[A] public record struct R(X) : B(X), I where T : U \x7b \x7d; y"

theorem spelledRecord_read :
    ∃ type d, turn true (.ofLexed (lex spelledRecord)) = ⟨some (.typeDecl type), none, d⟩ ∧
      type.modifiers.isPublic ∧ type.kind = .recordDecl ∧ type.bases.map TypeExpr.name = ["B", "I"] ∧
      d.rest.length = 1 := by
  have hattributes : AttributeGroups ([.atColumn (.opening .bracket) "[" 1, .atColumn .identifier "A" 2]
      ++ [.atColumn (.closing .bracket) "]" 3]) :=
    .group rfl rfl (.plain rfl .nil) .nil
  have hmodifiers : ModifierTokens [.atColumn .publicWord "public" 5]
      ⟨true, false, false, false, false, false⟩ :=
    ⟨by decide, Modifiers.tells_iff.mpr rfl⟩
  have hword : TypeWordTokens [.atColumn .recordWord "record" 12, .atColumn .structWord "struct" 19]
      .recordDecl :=
    .record rfl (.inl rfl)
  have hname : (Token.atColumn .identifier "R" 26).kind = .identifier := rfl
  have hgroup (column : Nat) : ArgumentTokens ([.atColumn (.opening .paren) "(" column,
      .atColumn .identifier "X" (column + 1)] ++ [.atColumn (.closing .paren) ")" (column + 2)]) :=
    .some rfl (.plain rfl .nil) rfl
  have hfirst : BaseTokens ([.atColumn .identifier "B" 33] ++ _) _ :=
    .mk (typeTokens_name rfl) (hgroup 34)
  have hsecond : BaseTokens ([.atColumn .identifier "I" 39] ++ []) _ := .mk (typeTokens_name rfl) .none
  have hcomma : (Token.atColumn .comma "," 37).kind = .comma := rfl
  have hbases : BaseLists (.atColumn .colon ":" 31 :: _) _ :=
    .some rfl (.cons hfirst hcomma (.last hsecond))
  have hconstraints : ConstraintTokens endsConstraints [.atColumn .identifier "where" 41,
      .atColumn .identifier "T" 47, .atColumn .colon ":" 49, .atColumn .identifier "U" 51] :=
    .some rfl (.plain rfl rfl (.plain rfl rfl (.plain rfl rfl (.plain rfl rfl .nil))))
  have hbody : TypeBodyTokens [.atColumn .identifier "y" 58] ([.atColumn (.opening .brace) "\x7b" 53] ++
      [.atColumn (.closing .brace) "\x7d" 55] ++ [.atColumn .semicolon ";" 56]) :=
    .blockEnded rfl .nil rfl rfl
  have htype := TypeDeclTokens.mk hmodifiers hword hname .none (hgroup 27) hbases hconstraints hbody
    ⟨_, _, rfl, rfl, rfl⟩
  exact ⟨_, _, turn_eq_typeDecl (c := .ofLexed (lex spelledRecord)) true (by decide +kernel) hattributes
    htype, rfl, rfl, by decide +kernel, rfl⟩

end ScriptHost
