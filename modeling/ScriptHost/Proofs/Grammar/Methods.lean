/-
# The grammar of methods

A method is written with modifiers, a type, a name, perhaps type parameters, parameters in
parentheses, perhaps constraints, and a body: a block, or `=>` and what follows up to a `;`. The
grammar is stated over tokens, with the declaration that they make. A turn reads every method behind
attribute groups as it is written, whatever follows: the look ahead finds the shape of a method just
where the readers behind it find a method.

Key definitions: `ParameterWords`, `ParameterTokens`, `ParameterLists`, `BodyTokens`, `MethodTokens`.
Key theorems: `Parse.accepts_parameters`, `Parse.accepts_body`, `Parse.accepts_method`,
`Parse.accepts_methodShape`, `turn_eq_method`.
-/
import ScriptHost.Proofs.Grammar.Declarations

namespace ScriptHost

open Parse Source

variable {c : Cursor} {attributes w v more : List Token} {t : Token}
  {finish : Position}

/-! ### Parameters -/

/-- The kind of the word that asks for a passing mode; without one a parameter is passed by value. -/
def PassingMode.kind? : PassingMode → Option TokenKind
  | byValue => none
  | byRef => some .refWord
  | byOut => some .outWord
  | byIn => some .inWord
  | asParams => some .paramsWord

/-- The words in front of a parameter's type: at most one that asks for a passing mode, and `this`
for a receiver, in either order. -/
inductive ParameterWords : List Token → PassingMode → Bool → Prop
  | plain {w : List Token} {mode : PassingMode} (hw : w.map (·.kind) = mode.kind?.toList) :
    ParameterWords w mode false
  | receiver {w : List Token} {mode : PassingMode}
    (hw : w.map (·.kind) = mode.kind?.toList ++ [.thisWord]) : ParameterWords w mode true
  | receiverFirst {w : List Token} {mode : PassingMode}
    (hw : w.map (·.kind) = .thisWord :: mode.kind?.toList) : ParameterWords w mode true

/-- A default value, or none. -/
inductive DefaultTokens : List Token → Bool → Prop
  | none : DefaultTokens [] false
  | some {equal : Token} {w : List Token} (he : equal.kind = .equal) (h : Clear (· == .comma) w) :
    DefaultTokens (equal :: w) true

/-- The tokens are a parameter as declared. -/
inductive ParameterTokens : List Token → ParameterDecl → Prop
  | mk {attributes words typeWords default : List Token} {nameWord : Token} {mode : PassingMode}
    {isReceiver hasDefault : Bool} {type : TypeExpr} {span : Span}
    (hattributes : AttributeGroups attributes) (hwords : ParameterWords words mode isReceiver)
    (htype : TypeTokens typeWords type) (hname : nameWord.kind = .identifier)
    (hdefault : DefaultTokens default hasDefault)
    (hspan : span.Spans (words ++ (typeWords ++ nameWord :: default))) :
    ParameterTokens (attributes ++ (words ++ (typeWords ++ nameWord :: default)))
      ⟨mode, isReceiver, type, .ofToken nameWord, hasDefault, span⟩

/-- Parameters in parentheses. -/
inductive ParameterLists : List Token → List ParameterDecl → Prop
  | none {opener closer : Token} (ho : opener.kind = .opening .paren)
    (hc : closer.kind = .closing .paren) : ParameterLists [opener, closer] []
  | some {opener closer : Token} {w : List Token} {parameters : List ParameterDecl}
    (ho : opener.kind = .opening .paren) (h : Separated ParameterTokens w parameters)
    (hc : closer.kind = .closing .paren) : ParameterLists (opener :: (w ++ [closer])) parameters

/-- What the reader makes of the words is what they say. -/
theorem ParameterWords.says {mode : PassingMode} {isReceiver : Bool}
    (h : ParameterWords w mode isReceiver) :
    (∀ kind ∈ w.map (·.kind), isParameterWord kind) ∧ PassingMode.ofKinds (w.map (·.kind)) = mode ∧
      (w.map (·.kind)).contains .thisWord = isReceiver := by
  cases h with
  | plain hw | receiver hw | receiverFirst hw =>
    rw [hw]
    cases mode <;> decide

/-- A parameter does not begin with a `)`. -/
theorem ParameterTokens.head {p : ParameterDecl} (h : ParameterTokens w p) :
    ∃ t ∈ w.head?, t.kind ≠ .closing .paren := by
  obtain @⟨attributes, words, typeWords, default, nameWord, _, _, _, _, _, hattributes, hwords, htype, -,
    -, -⟩ := h
  have hstarts {kinds : List TokenKind} {v : List Token} (h : Starts kinds v)
      (hk : .closing .paren ∉ kinds) : ∃ t ∈ v.head?, t.kind ≠ .closing .paren := by
    obtain ⟨t, ht, hmem⟩ := h
    exact ⟨t, ht, fun hkind => hk (hkind ▸ hmem)⟩
  rcases hattributes.starts with rfl | ha
  · cases words with
    | nil => exact hstarts (htype.starts.append _) (by decide)
    | cons u words =>
      refine ⟨u, rfl, fun hk => ?_⟩
      have hu := hwords.says.1 u.kind (by simp)
      rw [hk] at hu
      cases hu
  · exact hstarts (ha.append _) (by decide)

namespace Parse

theorem accepts_parameter {p : ParameterDecl} (h : ParameterTokens w p)
    (hmore : Starts [.comma, .closing .paren] more) : Accepts finish parameter w more p := by
  obtain @⟨attributes, words, typeWords, default, nameWord, mode, isReceiver, hasDefault, type, span,
    hattributes, hwords, htype, hname, hdefault, hspan⟩ := h
  obtain ⟨hkinds, hmode, hreceiver⟩ := hwords.says
  have hbehind : ∀ t ∈ (typeWords ++ nameWord :: default ++ more).head?, t.kind = .identifier := by
    obtain ⟨t, r, rfl, hk⟩ := htype.starts.cons_eq
    simpa using hk
  have hskip : ∀ t ∈ (words ++ (typeWords ++ nameWord :: default) ++ more).head?,
      t.kind ≠ .opening .bracket := by
    cases words with
    | nil =>
      intro t ht hk
      rw [hbehind t ht] at hk
      cases hk
    | cons u words =>
      have hu := hkinds u.kind (by simp)
      intro t ht hk
      obtain rfl := Option.some.inj ht
      rw [hk] at hu
      cases hu
  have htake : Accepts finish (takeKinds isParameterWord) words (typeWords ++ nameWord :: default ++ more)
      (words.map (·.kind)) :=
    accepts_takeKinds (fun t ht => hkinds t.kind (List.mem_map_of_mem ht)) fun t ht => by
      rw [hbehind t ht]
      rfl
  have hname' : Starts [.identifier] (nameWord :: default ++ more) := .of_kind hname _
  refine (accepts_skipAttributes hattributes hskip).bind (.here_bind (htake.bind ?_))
  refine (accepts_typeExpr htype (.of_starts hname' (by decide))).bind ?_
  refine (accepts_expectIdentifier hname).cons_bind ?_
  rw [hmode, hreceiver]
  cases hdefault with
  | none =>
    refine (accepts_eat_none (hmore.kind_ne (by decide))).then_bind ?_
    exact .neg Bool.false_ne_true (.span_end _ hspan)
  | some he hclear =>
    have hrun : Clear (fun k => k == .comma || k == .closing .paren) _ := hclear.mono fun kind hc hs => by
      simp [hc .paren, beq_eq_false_iff_ne.mp hs]
    refine (accepts_eat he).cons_bind (.pos rfl ?_)
    exact (accepts_skipUntil hrun hmore (by decide)).bind_end (.span_end _ hspan)

/-- **Parameters in parentheses are accepted**, whatever follows. -/
theorem accepts_parameters {ps : List ParameterDecl} (h : ParameterLists w ps) :
    Accepts finish parameters w more ps := by
  refine .here_bind ?_
  cases h with
  | none ho hc =>
    exact (accepts_eat ho).cons_bind (.pos rfl ((accepts_eat hc).bind_end (.pos rfl (.pure []))))
  | @some opener closer w ps ho h hc =>
    have hcloser : Starts [.closing .paren] (closer :: more) := .of_kind hc more
    have hlist : Accepts finish (commaSeparated parameter) w (closer :: more) ps := by
      exact accepts_commaSeparated h hcloser (by decide) fun v rest p hp _ hrest =>
        accepts_parameter hp hrest
    have hfirst : ∀ t ∈ (w ++ [closer] ++ more).head?, t.kind ≠ .closing .paren := by
      obtain ⟨u, hu, hk⟩ := h.head fun _ _ hp => hp.head
      obtain ⟨w, rfl⟩ := List.head?_eq_some_iff.mp hu
      simpa using hk
    refine (accepts_eat ho).cons_bind (.pos rfl ((accepts_eat_none hfirst).then_bind ?_))
    exact .neg Bool.false_ne_true (hlist.bind ((accepts_expect hc).bind_end (.pure ps)))

end Parse

/-! ### Bodies -/

/-- The body is of the kind and has the range and the span of the tokens. -/
structure Body.IsOf (b : Body) (kind : BodyKind) (w : List Token) : Prop where
  kind : b.kind = kind
  covers : b.Covers w
  spans : b.span.Spans w

/-- The tokens are the body of a method: a block, or `=>` and a run up to and with a `;`. -/
inductive BodyTokens : List Token → Body → Prop
  | block {opener closer : Token} {inner : List Token} {b : Body} (ho : opener.kind = .opening .brace)
    (hi : Balanced inner) (hc : closer.kind = .closing .brace)
    (hb : b.IsOf .block (opener :: inner ++ [closer])) : BodyTokens (opener :: inner ++ [closer]) b
  | expression {arrow semicolon : Token} {inner : List Token} {b : Body} (ha : arrow.kind = .arrow)
    (hi : Clear (· == .semicolon) inner) (hs : semicolon.kind = .semicolon)
    (hb : b.IsOf .expression (arrow :: (inner ++ [semicolon]))) :
    BodyTokens (arrow :: (inner ++ [semicolon])) b

theorem BodyTokens.starts {b : Body} (h : BodyTokens w b) : Starts [.opening .brace, .arrow] w := by
  cases h with
  | block ho _ _ _ => exact .cons (by simp [ho]) _
  | expression ha _ _ _ => exact .cons (by simp [ha]) _

/-- There is one such body. -/
theorem Body.IsOf.unique {b b' : Body} {kind : BodyKind} (h : b.IsOf kind w) (h' : b'.IsOf kind w) :
    b = b' := by
  obtain ⟨hk, ⟨t, u, ht, hu, hstart, hstop, -⟩, ⟨t1, u1, ht1, hu1, hspan⟩⟩ := h
  obtain ⟨hk', ⟨t', u', ht', hu', hstart', hstop', -⟩, ⟨t1', u1', ht1', hu1', hspan'⟩⟩ := h'
  obtain rfl := Option.some.inj (ht.symm.trans ht')
  obtain rfl := Option.some.inj (hu.symm.trans hu')
  obtain rfl := Option.some.inj (ht.symm.trans ht1)
  obtain rfl := Option.some.inj (hu.symm.trans hu1)
  obtain rfl := Option.some.inj (ht.symm.trans ht1')
  obtain rfl := Option.some.inj (hu.symm.trans hu1')
  cases b
  cases b'
  simp_all

namespace Parse

/-- A reader of a body gives the one that the tokens are. -/
theorem accepts_bodySince {b : Body} {kind : BodyKind} {u : Token} (hb : b.IsOf kind (t :: v ++ [u]))
    (hk : kind.ends? = some (t.kind, u.kind)) :
    Accepts finish (here >>= fun stop =>
      Pure.pure ((⟨t :: v ++ [u] ++ more, finish⟩ : Cursor).bodySince kind stop)) [] more b := by
  have hread : ((⟨t :: v ++ [u] ++ more, finish⟩ : Cursor).bodySince kind ⟨more, finish⟩).IsOf kind
      (t :: v ++ [u]) := ⟨rfl, covers_framed rfl hk, spans_spanSince rfl (by simp)⟩
  rw [← hread.unique hb]
  rfl

/-- **A body is accepted**, whatever follows. -/
theorem accepts_body {b : Body} (h : BodyTokens w b) : Accepts finish body w more b := by
  refine .here_bind ?_
  cases h with
  | block ho hi hc hb =>
    refine .pos (isAt_of_kind ho) ((accepts_skipGroup ho hc hi).bind_end (accepts_bodySince hb ?_))
    rw [ho, hc]
    rfl
  | @expression arrow semicolon inner _ ha hi hs hb =>
    refine .neg ?_ ((accepts_eat ha).cons_bind (.pos rfl ?_))
    · exact Bool.eq_false_iff.mp (isAt_of_kind_ne (by simp [ha]))
    have hrun : Accepts finish (skipUntil (· == .semicolon)) inner ([semicolon] ++ more) () :=
      accepts_skipUntil hi (.of_kind hs more) (by decide)
    refine hrun.bind ((accepts_eat hs).bind_end (accepts_bodySince hb ?_))
    rw [ha, hs]
    rfl

end Parse

/-! ### Methods -/

/-- The tokens are a method as declared. Its constraints have no body and no `;` outside groups. -/
inductive MethodTokens : List Token → MethodDecl → Prop
  | mk {words typeWords generics list constraints bodyWords : List Token} {nameWord : Token}
    {modifiers : Modifiers} {returns : TypeExpr} {typeParameters : List Ident}
    {parameters : List ParameterDecl} {body : Body} {span : Span}
    (hmodifiers : ModifierTokens words modifiers) (htype : TypeTokens typeWords returns)
    (hname : nameWord.kind = .identifier) (hgenerics : Angled TypeParameterTokens generics typeParameters)
    (hparameters : ParameterLists list parameters)
    (hconstraints : ConstraintTokens startsBodyOrEnds constraints) (hbody : BodyTokens bodyWords body)
    (hspan : span.Spans
      (words ++ (typeWords ++ nameWord :: (generics ++ (list ++ (constraints ++ bodyWords)))))) :
    MethodTokens (words ++ (typeWords ++ nameWord :: (generics ++ (list ++ (constraints ++ bodyWords)))))
      ⟨modifiers, returns, .ofToken nameWord, typeParameters, parameters, body, span⟩

section

variable {generics list constraints bodyWords : List Token} {nameWord : Token}
  {typeParameters : List Ident} {ps : List ParameterDecl} {body : Body}

theorem ParameterLists.starts (h : ParameterLists w ps) : Starts [.opening .paren] w := by
  cases h with
  | none ho _ => exact .of_kind ho _
  | some ho _ _ => exact .of_kind ho _

namespace Parse

/-- **The look ahead finds the shape of every method** in front of its body. -/
theorem accepts_methodShape (hname : nameWord.kind = .identifier)
    (hgenerics : Angled TypeParameterTokens generics typeParameters) (hlist : ParameterLists list ps)
    (hconstraints : ConstraintTokens startsBodyOrEnds constraints)
    (hmore : Starts [.opening .brace, .arrow] more) :
    Accepts finish methodShape (nameWord :: (generics ++ (list ++ constraints))) more () := by
  have hskip (more : List Token) : ∃ closer, Accepts finish skipGroup list more closer :=
    skipGroup_of_parameters (accepts_parameters hlist)
  obtain ⟨closer, hskip⟩ := hskip (constraints ++ more)
  have hopen := (hlist.starts.append constraints).append more
  have hbody : (⟨more, finish⟩ : Cursor).isAt (.opening .brace) ||
      (⟨more, finish⟩ : Cursor).isAt .arrow := by
    obtain ⟨t, r, rfl, ht⟩ := hmore.cons_eq
    simpa [Cursor.isAt, Cursor.kind?] using ht
  refine (accepts_expectIdentifier hname).cons_bind ?_
  refine (accepts_typeParameters hgenerics (hopen.kind_ne (by decide))).bind (.here_bind ?_)
  refine .pos (isAt_of_starts hopen) (hskip.bind ?_)
  have hrun : Accepts finish (skipConstraints startsBodyOrEnds) constraints more () :=
    accepts_skipConstraints hconstraints hmore (by decide)
  exact hrun.bind_end (.here_bind (.pos hbody (.pure ())))

/-- **A method is accepted from its name on**, whatever follows. -/
theorem accepts_method {front : List Token} {span : Span} (modifiers : Modifiers) (returns : TypeExpr)
    (hname : nameWord.kind = .identifier)
    (hgenerics : Angled TypeParameterTokens generics typeParameters) (hlist : ParameterLists list ps)
    (hconstraints : ConstraintTokens startsBodyOrEnds constraints) (hbody : BodyTokens bodyWords body)
    (hspan : span.Spans front) :
    Accepts finish (method ⟨front ++ more, finish⟩ modifiers returns)
      (nameWord :: (generics ++ (list ++ (constraints ++ bodyWords)))) more
      ⟨modifiers, returns, .ofToken nameWord, typeParameters, ps, body, span⟩ := by
  have hopen := (hlist.starts.append (constraints ++ bodyWords)).append more
  have hrun : Accepts finish (skipConstraints startsBody) constraints (bodyWords ++ more) () := by
    refine accepts_skipConstraints (hconstraints.mono fun kind _ hs => ?_) (hbody.starts.append more)
      (by decide)
    simp_all [startsBody, startsBodyOrEnds]
  refine (accepts_expectIdentifier hname).cons_bind ?_
  refine (accepts_typeParameters hgenerics (hopen.kind_ne (by decide))).bind ?_
  refine (accepts_parameters hlist).bind (hrun.bind ((accepts_body hbody).bind_end ?_))
  exact .span_end _ hspan

end Parse
end

/-- **Every method is read as it is written**, behind attribute groups and in front of any tokens, if
no word that starts a statement stands first. The turn takes just these tokens and reports nothing. -/
theorem turn_eq_method {m : MethodDecl} (declared : Bool) (hc : c.rest = attributes ++ w ++ more)
    (hattributes : AttributeGroups attributes) (hm : MethodTokens w m)
    (hfirst : MayStart (attributes ++ w)) :
    turn declared c = ⟨some (.method m), none, c.goto more⟩ := by
  obtain @⟨words, typeWords, generics, list, constraints, bodyWords, nameWord, modifiers, returns,
    typeParameters, ps, body, span, hmodifiers, htype, hname, hgenerics, hlist, hconstraints, hbody,
    hspan⟩ := hm
  obtain ⟨rest, finish⟩ := c
  obtain rfl : rest = _ := hc
  have hopen := (hlist.starts.append (constraints ++ bodyWords)).append more
  have hsecond := Starts.optional hgenerics.starts hopen
  have hshape : Accepts finish methodShape (nameWord :: (generics ++ (list ++ constraints)))
      (bodyWords ++ more) () :=
    accepts_methodShape hname hgenerics hlist hconstraints (hbody.starts.append more)
  have hsort : memberSort?
      ((⟨nameWord :: (generics ++ (list ++ (constraints ++ bodyWords))) ++ more, finish⟩ :
        Cursor).kindAt? 1)
      (methodShape ⟨nameWord :: (generics ++ (list ++ (constraints ++ bodyWords))) ++ more,
        finish⟩).isDone = some .method := by
    have hdone : (methodShape ⟨nameWord :: (generics ++ (list ++ (constraints ++ bodyWords))) ++ more,
        finish⟩).isDone = true := by
      have h := congrArg Reply.isDone hshape
      simp only [List.append_assoc, List.cons_append] at h ⊢
      exact h
    obtain ⟨u, r, hu, hk⟩ := hsecond.cons_eq
    rw [hdone, List.cons_append, List.append_assoc, hu]
    simp only [List.cons_append, List.nil_append, List.mem_cons, List.not_mem_nil, or_false] at hk
    rcases hk with hk | hk <;> simp [Cursor.kindAt?, memberSort?, hk]
  have hread := accepts_member? htype hname hsort
    ((accepts_method modifiers returns hname hgenerics hlist hconstraints hbody hspan).map
      (some ∘ Item.method))
  exact turn_of_member (p := pure (.method _)) (d := ⟨more, finish⟩) declared hattributes hmodifiers
    (htype.starts.append _) hfirst hread

/-- A method behind an attribute group, and a name behind it. -/
def spelledMethod : String := "[A] static T F<U>(ref int x = 1) => x; y"

theorem spelledMethod_read :
    ∃ m d, turn true (.ofLexed (lex spelledMethod)) = ⟨some (.method m), none, d⟩ ∧
      m.modifiers.isStatic ∧ m.parameters.map (fun p => (p.mode, p.hasDefault)) = [(.byRef, true)] ∧
      d.rest.length = 1 := by
  have hattributes : AttributeGroups ([.atColumn (.opening .bracket) "[" 1, .atColumn .identifier "A" 2]
      ++ [.atColumn (.closing .bracket) "]" 3]) :=
    .group rfl rfl (.plain rfl .nil) .nil
  have hmodifiers : ModifierTokens [.atColumn .staticWord "static" 5]
      ⟨false, false, false, false, true, false⟩ :=
    ⟨by decide, Modifiers.tells_iff.mpr rfl⟩
  have hreturns : TypeTokens [.atColumn .identifier "T" 12] _ := typeTokens_name rfl
  have hname : (Token.atColumn .identifier "F" 14).kind = .identifier := rfl
  have hgenerics : Angled TypeParameterTokens (.atColumn .less "<" 15 ::
      ([] ++ [.atColumn .identifier "U" 16]) ++ [.atColumn .greater ">" 17]) _ :=
    .some rfl (.last (.invariant .nil rfl)) rfl
  have hwords : ParameterWords [.atColumn .refWord "ref" 19] .byRef false := .plain rfl
  have htype : TypeTokens [.atColumn .identifier "int" 23] _ := typeTokens_name rfl
  have hparameter : ParameterTokens ([] ++ ([.atColumn .refWord "ref" 19] ++
      ([.atColumn .identifier "int" 23] ++ .atColumn .identifier "x" 27 ::
        [.atColumn .equal "=" 29, .atColumn .number "1" 31]))) _ :=
    .mk .nil hwords htype rfl (.some rfl (.plain rfl rfl .nil)) ⟨_, _, rfl, rfl, rfl⟩
  have hlist : ParameterLists (.atColumn (.opening .paren) "(" 18 :: (_ ++
      [.atColumn (.closing .paren) ")" 32])) _ :=
    .some rfl (.last hparameter) rfl
  have hbody : BodyTokens (.atColumn .arrow "=>" 34 :: ([.atColumn .identifier "x" 37] ++
      [.atColumn .semicolon ";" 38])) ⟨.expression, 33, 38, ⟨1, 34, 5⟩⟩ :=
    .expression rfl (.plain rfl rfl .nil) rfl
      ⟨rfl, ⟨_, _, rfl, rfl, rfl, rfl, fun _ hk => (Option.some.inj hk).symm⟩, ⟨_, _, rfl, rfl, rfl⟩⟩
  have hmethod := MethodTokens.mk hmodifiers hreturns hname hgenerics hlist .none hbody
    ⟨_, _, rfl, rfl, rfl⟩
  exact ⟨_, _, @turn_eq_method (.ofLexed (lex spelledMethod)) _ _ [.atColumn .identifier "y" 40] _ true
    (by decide +kernel) hattributes hmethod (by simp [MayStart, Token.atColumn]), rfl, rfl, rfl⟩

end ScriptHost
