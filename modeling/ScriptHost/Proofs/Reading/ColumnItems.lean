/-
# Items are read without looking at columns

The readers of items do not look at columns, and a turn does not either: a directive goes by the
lines of its tokens. So the items and the problems of some tokens are the same up to columns as
those of other tokens that are the same up to columns.

Key definitions: `Turn.lined`.
Key theorems: `skims_member?`, `turn_lined`, `Cursor.items_lined`.
-/
import ScriptHost.Proofs.Reading.Columns
import ScriptHost.Proofs.Reading.Forward
import ScriptHost.Script.Basic

namespace ScriptHost

open Parse Source

/-! ### Parameters and bodies -/

theorem skims_takeKinds (test : TokenKind → Bool) : Skims id (takeKinds test) (takeKinds test) := by
  intro c
  have htest : ((fun t => test t.kind) ∘ Token.lined) = fun t : Token => test t.kind :=
    funext fun t => by rw [Function.comp_apply, Token.kind_lined]
  have hkind : ((fun t : Token => t.kind) ∘ Token.lined) = fun t => t.kind :=
    funext fun t => t.kind_lined
  simp only [takeKinds, Cursor.rest_lined, List.takeWhile_map, List.dropWhile_map, List.map_map, htest,
    hkind, Cursor.goto_lined]
  rfl

theorem skims_modifiers : Skims id modifiers modifiers :=
  (skims_takeKinds _).bind fun kinds => .pure id (Modifiers.ofKinds kinds)

theorem skims_parameter : Skims ParameterDecl.lined parameter parameter := by
  refine skims_skipAttributes.bind fun _ => .here_bind fun start =>
    (skims_takeKinds isParameterWord).bind fun words => skims_typeExpr.bind fun type =>
      skims_expectIdentifier.bind fun name => (skims_eat .equal).bind fun hasDefault => ?_
  have hend : Skims ParameterDecl.lined
      (here >>= fun stop => Pure.pure (⟨.ofKinds words, words.contains .thisWord, type, name,
        hasDefault, start.spanSince stop⟩ : ParameterDecl))
      (here >>= fun stop => Pure.pure (⟨.ofKinds words, words.contains .thisWord, type.lined,
        name.lined, hasDefault, start.lined.spanSince stop⟩ : ParameterDecl)) := by
    refine .here_bind fun stop => ?_
    rw [Cursor.spanSince_lined]
    exact .pure ParameterDecl.lined ⟨_, _, type, name, hasDefault, start.spanSince stop⟩
  exact .ite ((skims_skipUntil _).bind fun _ => hend) hend

theorem skims_parameters : Skims (List.map ParameterDecl.lined) parameters parameters := by
  refine .here_bind fun start => (skims_eat _).bind fun _ => .ite ?_ ?_
  · exact (skims_eat _).bind fun _ => .ite (.pure _ []) <|
      (skims_commaSeparated skims_parameter).bind fun params => (skims_expect _).bind fun _ =>
        .pure (List.map ParameterDecl.lined) params
  · rw [Cursor.kind?_lined]
    exact .complain _ (.expectedParameters start.kind?)

theorem skims_skipConstraints (stops : TokenKind → Bool) :
    Skims id (skipConstraints stops) (skipConstraints stops) := by
  refine .here_bind fun c => ?_
  rw [Cursor.isAtWord_lined]
  exact .ite (skims_skipUntil stops) (.pure id ())

theorem skims_body : Skims Body.lined body body := by
  refine .here_bind fun start => ?_
  have hend (kind : BodyKind) : Skims Body.lined
      (here >>= fun stop => Pure.pure (start.bodySince kind stop))
      (here >>= fun stop => Pure.pure (start.lined.bodySince kind stop)) := by
    refine .here_bind fun stop => ?_
    rw [Cursor.bodySince_lined]
    exact .pure Body.lined _
  rw [Cursor.isAt_lined, Cursor.kind?_lined]
  refine .ite (skims_skipGroup.bind fun _ => hend .block)
    ((skims_eat .arrow).bind fun _ => .ite ?_ ?_)
  · exact (skims_skipUntil _).bind fun _ => (skims_eat .semicolon).bind fun _ => hend .expression
  · exact .complain _ (.expectedBody start.kind?)

/-! ### Members -/

section

variable (start : Cursor) (modifiers : Modifiers) (type : TypeExpr)

theorem skims_method : Skims MethodDecl.lined (method start modifiers type)
    (method start.lined modifiers type.lined) := by
  refine skims_expectIdentifier.bind fun name => skims_typeParameters.bind fun typeParams =>
    skims_parameters.bind fun params => (skims_skipConstraints _).bind fun _ =>
      skims_body.bind fun body => .here_bind fun stop => ?_
  rw [Cursor.spanSince_lined]
  exact .pure MethodDecl.lined ⟨modifiers, type, name, typeParams, params, body, start.spanSince stop⟩

theorem skims_property : Skims PropertyDecl.lined (property start modifiers type)
    (property start.lined modifiers type.lined) := by
  refine skims_expectIdentifier.bind fun name => .here_bind fun accessors => ?_
  have hend : Skims PropertyDecl.lined
      (here >>= fun stop => Pure.pure (⟨modifiers, type, name, start.spanSince stop⟩ : PropertyDecl))
      (here >>= fun stop => Pure.pure
        (⟨modifiers, type.lined, name.lined, start.lined.spanSince stop⟩ : PropertyDecl)) := by
    refine .here_bind fun stop => ?_
    rw [Cursor.spanSince_lined]
    exact .pure PropertyDecl.lined ⟨modifiers, type, name, start.spanSince stop⟩
  rw [Cursor.isAt_lined]
  refine .ite (skims_skipGroup.bind fun _ => (skims_eat .equal).bind fun _ => .ite ?_ hend)
    (skims_body.bind fun _ => hend)
  exact (skims_skipUntil _).bind fun _ => (skims_eat .semicolon).bind fun _ => hend

theorem skims_declarator : Skims Ident.lined declarator declarator :=
  skims_expectIdentifier.bind fun name => (skims_eat .equal).bind fun _ =>
    .ite ((skims_skipUntil _).bind fun _ => .pure Ident.lined name) (.pure Ident.lined name)

theorem skims_field : Skims FieldDecl.lined (field start modifiers type)
    (field start.lined modifiers type.lined) := by
  refine (skims_commaSeparated skims_declarator).bind fun names =>
    (skims_expect .semicolon).bind fun _ => .here_bind fun stop => ?_
  rw [Cursor.spanSince_lined]
  exact .pure FieldDecl.lined ⟨modifiers, type, names, start.spanSince stop⟩

end

theorem skims_methodShape : Skims id methodShape methodShape := by
  refine skims_expectIdentifier.bind fun _ => skims_typeParameters.bind fun _ =>
    .here_bind fun params => ?_
  rw [Cursor.isAt_lined, Cursor.kind?_lined]
  refine .ite (skims_skipGroup.bind fun _ => (skims_skipConstraints _).bind fun _ =>
    .here_bind fun c => ?_) (.complain _ (.expectedParameters params.kind?))
  rw [Cursor.isAt_lined, Cursor.isAt_lined, Cursor.kind?_lined]
  exact .ite (.pure id ()) (.complain _ (.expectedBody c.kind?))

theorem skims_readMember (start : Cursor) (modifiers : Modifiers) (type : TypeExpr) :
    ∀ sort, Skims (Option.map Item.lined) (readMember start modifiers type sort)
      (readMember start.lined modifiers type.lined sort)
  | .method => (skims_method start modifiers type).map fun _ => rfl
  | .property => (skims_property start modifiers type).map fun _ => rfl
  | .field => (skims_field start modifiers type).map fun _ => rfl

theorem skims_member? (start : Cursor) (modifiers : Modifiers) :
    Skims (Option.map Item.lined) (member? start modifiers) (member? start.lined modifiers) := by
  intro c
  have htype := skims_typeExpr c
  cases hd : typeExpr c with
  | failed e d =>
    rw [hd] at htype
    rw [member?_of_failed start modifiers hd, member?_of_failed start.lined modifiers htype]
    rfl
  | done type named =>
    rw [hd] at htype
    rw [member?_of_type start modifiers hd, member?_of_type start.lined modifiers htype,
      Cursor.isAt_lined, Cursor.kindAt?_lined, skims_methodShape, Reply.isDone_lined]
    split
    · split
      · next sort _ => exact skims_readMember start modifiers type sort named
      · rfl
    · rfl

/-! ### Type declarations and usings -/

theorem skims_typeWord : Skims id typeWord typeWord := by
  intro c
  simp only [typeWord, Cursor.kind?_lined, Cursor.tail_lined, Cursor.isAt_lined]
  split
  · rfl
  · rfl
  · rfl
  · rfl
  · split <;> rfl

theorem skims_skipArguments : Skims id skipArguments skipArguments := by
  refine .here_bind fun c => ?_
  rw [Cursor.isAt_lined]
  exact .ite (skims_skipGroup.bind fun _ => .pure id ()) (.pure id ())

theorem skims_baseTypes : Skims (List.map TypeExpr.lined) baseTypes baseTypes :=
  (skims_eat .colon).bind fun _ => .ite
    (skims_commaSeparated (skims_typeExpr.bind fun type => skims_skipArguments.bind fun _ =>
      .pure TypeExpr.lined type))
    (.pure _ [])

theorem skims_typeDecl (start : Cursor) (modifiers : Modifiers) :
    Skims TypeDecl.lined (typeDecl start modifiers) (typeDecl start.lined modifiers) := by
  refine skims_typeWord.bind fun kind => skims_expectIdentifier.bind fun name =>
    skims_typeParameters.bind fun typeParams => skims_skipArguments.bind fun _ =>
      skims_baseTypes.bind fun bases => (skims_skipConstraints _).bind fun _ => .here_bind fun inside => ?_
  have hend : Skims TypeDecl.lined
      (here >>= fun stop => Pure.pure
        (⟨modifiers, kind, name, typeParams, bases, start.spanSince stop⟩ : TypeDecl))
      (here >>= fun stop => Pure.pure (⟨modifiers, kind, name.lined, typeParams.map Ident.lined,
        bases.map TypeExpr.lined, start.lined.spanSince stop⟩ : TypeDecl)) := by
    refine .here_bind fun stop => ?_
    rw [Cursor.spanSince_lined]
    exact .pure TypeDecl.lined ⟨modifiers, kind, name, typeParams, bases, start.spanSince stop⟩
  rw [Cursor.isAt_lined]
  exact .ite (skims_skipGroup.bind fun _ => (skims_eat .semicolon).bind fun _ => hend)
    ((skims_expect .semicolon).bind fun _ => hend)

theorem skims_aliasName? : Skims (Option.map Ident.lined) aliasName? aliasName? := by
  intro c
  unfold aliasName?
  rw [Cursor.rest_lined]
  rcases c.rest with _ | ⟨t, _ | ⟨eq, r⟩⟩
  · rfl
  · rfl
  · simp only [List.map_cons, Token.kind_lined, Token.ofToken_lined, Cursor.goto_lined]
    by_cases h : t.kind = .identifier ∧ eq.kind = .equal
    · rw [if_pos h, if_pos h]
      rfl
    · rw [if_neg h, if_neg h]
      rfl

@[simp] theorem TypeExpr.path_lined (t : TypeExpr) : t.lined.path = t.path.map Ident.lined := by
  cases t
  rfl

theorem skims_usingDirective : Skims UsingDirective.lined usingDirective usingDirective := by
  refine .here_bind fun start => (skims_expect _).bind fun _ => (skims_eat _).bind fun isStatic =>
    skims_aliasName?.bind fun alias? => skims_typeExpr.bind fun target => (skims_expect _).bind fun _ =>
      .here_bind fun stop => ?_
  rw [Cursor.spanSince_lined, TypeExpr.path_lined]
  exact .pure UsingDirective.lined ⟨target.path, isStatic, alias?, start.spanSince stop⟩

/-! ### Turns -/

/-- A turn without columns. -/
def Turn.lined (now : Turn) : Turn :=
  ⟨now.item?.map Item.lined, now.error?.map ParseError.lined, now.next.lined⟩

theorem resume_lined : ∀ (depth : Nat) (r : List Token),
    resume depth (r.map Token.lined) = (resume depth r).map Token.lined
  | depth, [] => by simp [resume]
  | depth, t :: r => by
    simp only [List.map_cons, resume, Token.kind_lined]
    split
    · exact resume_lined _ r
    · split
      · rfl
      · split
        · rfl
        · exact resume_lined 0 r
      · exact resume_lined _ r
    · by_cases hd : depth = 0
      · rw [if_pos hd, if_pos hd]
      · rw [if_neg hd, if_neg hd, resume_lined]
    · by_cases hd : depth = 0 ∧ startsItem t.kind
      · rw [if_pos hd, if_pos hd, List.map_cons]
      · rw [if_neg hd, if_neg hd, resume_lined]

theorem recover_lined (c : Cursor) (e : ParseError) (d : Cursor) :
    Turn.recover c.lined e.lined d.lined = (Turn.recover c e d).lined := by
  simp only [Turn.recover, Cursor.rest_lined, List.length_map]
  split <;> simp [Turn.lined, resume_lined]

theorem ofReply_lined (c : Cursor) (reply : Reply Item) :
    Turn.ofReply c.lined (reply.lined Item.lined) = (Turn.ofReply c reply).lined := by
  cases reply with
  | done item d => rfl
  | failed e d => exact recover_lined c e d

theorem statementEndWithin_lined : ∀ (n : Nat) (c : Cursor),
    statementEndWithin n c.lined =
      ((statementEndWithin n c).1.map ParseError.lined, (statementEndWithin n c).2.lined)
  | 0, c => rfl
  | n + 1, c => by
    simp only [statementEndWithin, Cursor.rest_lined]
    cases c.rest with
    | nil => rfl
    | cons t r =>
      simp only [List.map_cons, Token.kind_lined, Token.span_lined, Cursor.goto_lined]
      split
      · rfl
      · rw [skims_skipGroup c]
        cases skipGroup c with
        | failed e d => rfl
        | done closer d =>
          simp only [Reply.lined, Cursor.isAtWord_lined]
          split
          · rfl
          · exact statementEndWithin_lined n d
      · rfl
      · exact statementEndWithin_lined n (c.goto r)

theorem statement_lined (c : Cursor) : statement c.lined = (statement c).lined := by
  simp only [statement, Cursor.rest_lined, List.length_map, statementEndWithin_lined,
    Cursor.bodySince_lined]
  rfl

theorem skims_reference (declared : Bool) (start : Cursor) :
    Skims Item.lined (reference declared start) (reference declared start.lined) := by
  refine (skims_expect .stringLiteral).bind fun literal => .here_bind fun stop => ?_
  rw [Cursor.spanSince_lined, Token.lexeme_lined]
  exact .ite (fun c => rfl) (.pure Item.lined _)

/-- **A directive goes by the lines of its tokens**, not by their columns. -/
theorem directive_lined (declared : Bool) (c : Cursor) (sharp : Token) (r : List Token) :
    directive declared c.lined sharp.lined (r.map Token.lined) =
      (directive declared c sharp r).lined := by
  have hline (d : Cursor) :
      d.lined.goto (d.lined.rest.dropWhile fun t => t.start.line == sharp.lined.start.line) =
        (d.goto (d.rest.dropWhile fun t => t.start.line == sharp.start.line)).lined := by
    have htest : ((fun t : Token => t.start.line == sharp.lined.start.line) ∘ Token.lined) =
        fun t => t.start.line == sharp.start.line :=
      funext fun t => by rw [Function.comp_apply, Token.line_lined, Token.line_lined]
    rw [Cursor.rest_lined, List.dropWhile_map, htest, Cursor.goto_lined]
  unfold directive
  cases r with
  | nil => rfl
  | cons name r' =>
    simp only [List.map_cons, Token.kind_lined, Token.lexeme_lined, Token.span_lined, Cursor.goto_lined]
    have hhash : c.lined.goto (name.lined :: r'.map Token.lined) = (c.goto (name :: r')).lined := rfl
    by_cases hname : name.kind = .identifier ∧ name.start.line = sharp.start.line
    · rw [if_pos hname, if_pos (show name.kind = .identifier ∧
        name.lined.start.line = sharp.lined.start.line from hname)]
      by_cases hr : name.lexeme = "r"
      · rw [if_pos hr, if_pos hr, skims_reference]
        cases reference declared c (c.goto r') with
        | done item d =>
          simp only [Reply.lined, hline]
          rfl
        | failed e d =>
          simp only [Reply.lined, hline]
          rfl
      · rw [if_neg hr, if_neg hr, hhash, hline]
        split <;> rfl
    · rw [if_neg hname, if_neg (show ¬ (name.kind = .identifier ∧
        name.lined.start.line = sharp.lined.start.line) from hname), hhash, hline]
      rfl

theorem isUsingDirective_lined (c : Cursor) : isUsingDirective c.lined = isUsingDirective c := by
  unfold isUsingDirective
  rw [Cursor.rest_lined]
  rcases c.rest with _ | ⟨t, _ | ⟨second, r⟩⟩
  · rfl
  · rfl
  · simp only [List.map_cons, Token.kind_lined, Token.lexeme_lined, List.head?_map, Option.map_map]
    rfl

theorem mayDeclare_lined (t : Token) : mayDeclare t.lined = mayDeclare t := by
  simp only [mayDeclare, Token.kind_lined, Token.lexeme_lined]

theorem declaration_lined (first : Token) (c : Cursor) :
    declaration first.lined c.lined = (declaration first c).lined := by
  unfold declaration
  rw [skims_skipAttributes c]
  cases skipAttributes c with
  | failed e d => exact recover_lined c e d
  | done _ start =>
    simp only [Reply.lined]
    rw [skims_modifiers start]
    cases modifiers start with
    | failed e d => exact recover_lined c e d
    | done modifiers d =>
      simp only [Reply.lined, Cursor.kind?_lined]
      split
      · have hdecl : Skims Item.lined (Item.typeDecl <$> typeDecl start modifiers)
            (Item.typeDecl <$> typeDecl start.lined modifiers) :=
          (skims_typeDecl start modifiers).map fun _ => rfl
        exact (congrArg _ (hdecl d)).trans (ofReply_lined c _)
      · rw [id, skims_member? start modifiers d]
        cases member? start modifiers d with
        | failed e d' => exact recover_lined c e d'
        | done item? d' =>
          cases item? with
          | some item => rfl
          | none =>
            simp only [Reply.lined, Option.map_none, Cursor.rest_lined, List.length_map,
              Token.lexeme_lined, statement_lined, Cursor.span_lined]
            split
            · rfl
            · exact recover_lined c ⟨.expectedDeclaration d.kind?, d.span⟩ d

/-- **A turn does not look at columns.** -/
theorem turn_lined (declared : Bool) (c : Cursor) : turn declared c.lined = (turn declared c).lined := by
  unfold turn
  rw [Cursor.rest_lined]
  cases c.rest with
  | nil => rfl
  | cons t r =>
    simp only [List.map_cons, Token.kind_lined, isUsingDirective_lined, mayDeclare_lined,
      Cursor.goto_lined]
    split
    · rfl
    · exact directive_lined declared c t r
    · split
      · have husing : Skims Item.lined (Item.usingDirective <$> usingDirective)
            (Item.usingDirective <$> usingDirective) := skims_usingDirective.map fun _ => rfl
        exact (congrArg _ (husing c)).trans (ofReply_lined c _)
      · exact statement_lined c
    · split
      · exact declaration_lined t c
      · exact statement_lined c

theorem itemsWithin_lined : ∀ (n : Nat) (declared : Bool) (c : Cursor),
    itemsWithin n declared c.lined =
      ((itemsWithin n declared c).1.map Item.lined, (itemsWithin n declared c).2.map ParseError.lined)
  | 0, declared, c => rfl
  | n + 1, declared, c => by
    simp only [itemsWithin, Cursor.rest_lined]
    cases c.rest with
    | nil => rfl
    | cons t r =>
      simp only [List.map_cons, Token.kind_lined, turn_lined, Turn.lined, itemsWithin_lined n,
        List.map_append, Option.toList_map]

/-- **Tokens without columns give the items and problems of the tokens, without columns.** -/
theorem Cursor.items_lined (c : Cursor) :
    c.lined.items = (c.items.1.map Item.lined, c.items.2.map ParseError.lined) := by
  rw [Cursor.items, Cursor.rest_lined, List.length_map, itemsWithin_lined, Cursor.items]

end ScriptHost
