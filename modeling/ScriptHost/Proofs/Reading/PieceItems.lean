/-
# Declarations, read in step

Both versions of a text have the same members, type declarations and usings at the same
pieces, up to places, and the body of a method is at the same place in each.

Key definitions: `Edit.Items`.
Key theorems: `inStep_body`, `inStep_member?`, `inStep_typeDecl`, `inStep_usingDirective`.
-/
import ScriptHost.Proofs.Reading.LocalItems
import ScriptHost.Proofs.Reading.PieceTypes
import ScriptHost.Proofs.Reading.Segments

namespace ScriptHost

open Parse Source

/-! ### Items of both versions -/

/-- An item of both versions: the same up to places, and its code at the same place in each. -/
structure Edit.Items (e : Edit) (a : Side → Item) : Prop where
  bare : Keeps Item.bare a
  code : ∀ b : Side → Body, (∀ s, (a s).code? = some (b s)) → e.Bodies b

variable {e : Edit} {ps qs w : List (Piece e)}

/-! ### Parameters and bodies -/

theorem inStep_parameter (ps : List (Piece e)) :
    InStep (Keeps ParameterDecl.bare) (fun _ => parameter) ps := by
  refine (inStep_skipAttributes ps).bind fun _ _ ps _ _ _ => .here_bind ?_
  refine (inStep_takeKinds rfl ps).bind fun words _ qs _ hwords _ => ?_
  obtain ⟨words, rfl⟩ := hwords
  refine (inStep_typeExpr qs).bind fun type _ rs _ htype _ => ?_
  refine (inStep_expectIdentifier rs).bind fun name _ ts _ hname _ => ?_
  have hkeeps (hasDefault : Bool) (spans : Side → Span) : Keeps ParameterDecl.bare fun s =>
      ⟨.ofKinds words, words.contains .thisWord, type s, name s, hasDefault, spans s⟩ := fun s => by
    simp only [ParameterDecl.bare, htype s, hname s]
  refine .eat_bind (by simp) (fun _ us _ => ?_) ?_
  · refine .ite (fun _ => ?_) fun h => absurd rfl h
    exact (inStep_skipUntil _ us).bind fun _ _ _ _ _ _ => .span_end fun spans => hkeeps true spans
  · exact .ite (fun h => by cases h) fun _ => .span_end fun spans => hkeeps false spans

theorem inStep_parameters (ps : List (Piece e)) :
    InStep (Keeps (List.map ParameterDecl.bare)) (fun _ => parameters) ps := by
  refine .here_bind (.eat_ite (by simp) (fun _ qs _ => ?_) (.complain fun _ => rfl))
  refine .eat_ite (by simp) (fun _ _ _ => .pure (a := fun _ => []) fun _ => rfl) ?_
  refine (inStep_commaSeparated (fun _ => reads_parameter) fun _ rs _ =>
    inStep_parameter rs).bind fun params _ rs _ hparams _ => ?_
  exact (inStep_expect (by simp) rs).bind fun _ _ _ _ _ _ => .pure hparams

/-- A body of both versions, at the same place in each. -/
def Edit.BodyTwins (e : Edit) (b : Side → Body) : Prop := Keeps Body.bare b ∧ e.Bodies b

theorem inStep_bodySince (kind : BodyKind) (hps : ps = w ++ qs) :
    InStep e.BodyTwins
      (fun s => here >>= fun stop => Pure.pure ((e.cursor ps s).bodySince kind stop)) qs :=
  .here_bind (.pure ⟨fun _ => rfl, e.bodies_bodySince kind hps⟩)

/-- **Bodies** are at the same place in both versions. -/
theorem inStep_body (ps : List (Piece e)) : InStep e.BodyTwins (fun _ => body) ps := by
  refine .here_bind ?_
  simp only [Edit.isAt_cursor, Edit.kind?_cursor]
  refine .ite (fun _ => ?_) fun _ => ?_
  · exact (inStep_skipGroup ps).bind fun _ w qs hps _ _ => inStep_bodySince .block hps
  · refine .eat_ite (by simp) (fun p qs hps => ?_) (.complain fun _ => rfl)
    refine (inStep_skipUntil _ qs).bind fun _ w rs hqs _ _ => ?_
    have hrs : ps = (p :: w) ++ rs := by rw [hps, hqs]; rfl
    refine .eat_bind (by simp) (fun q ts hts => ?_) (inStep_bodySince .expression hrs)
    exact inStep_bodySince .expression (w := p :: w ++ [q]) (by rw [hrs, hts]; simp)

/-! ### Members -/

/-- A method of both versions. -/
def Edit.MethodTwins (e : Edit) (m : Side → MethodDecl) : Prop :=
  Keeps MethodDecl.bare m ∧ e.Bodies fun s => (m s).body

theorem inStep_method (start : Side → Cursor) (modifiers : Modifiers) {returns : Side → TypeExpr}
    (hreturns : Keeps TypeExpr.bare returns) (ps : List (Piece e)) :
    InStep e.MethodTwins (fun s => method (start s) modifiers (returns s)) ps := by
  refine (inStep_expectIdentifier ps).bind fun name _ qs _ hname _ => ?_
  refine (inStep_typeParameters qs).bind fun typeParams _ qs _ htypeParams _ => ?_
  refine (inStep_parameters qs).bind fun params _ qs _ hparams _ => ?_
  refine (inStep_skipConstraints _ qs).bind fun _ _ qs _ _ _ => ?_
  refine (inStep_body qs).bind fun body _ qs _ hbody _ => ?_
  refine .span_end fun spans => ⟨fun s => ?_, hbody.2⟩
  simp only [MethodDecl.bare, hreturns s, hname s, htypeParams s, hparams s, hbody.1 s]

theorem inStep_methodShape (ps : List (Piece e)) :
    InStep (fun _ => True) (fun _ => methodShape) ps := by
  refine (inStep_expectIdentifier ps).bind fun _ _ qs _ _ _ => ?_
  refine (inStep_typeParameters qs).bind fun _ _ qs _ _ _ => .here_bind ?_
  simp only [Edit.isAt_cursor, Edit.kind?_cursor]
  refine .ite (fun _ => ?_) fun _ => .complain fun _ => rfl
  refine (inStep_skipGroup qs).bind fun _ _ qs _ _ _ => ?_
  refine (inStep_skipConstraints _ qs).bind fun _ _ qs _ _ _ => .here_bind ?_
  simp only [Edit.isAt_cursor, Edit.kind?_cursor]
  exact .ite (fun _ => .pure (a := fun _ => ()) trivial) fun _ => .complain fun _ => rfl

/-- The look ahead at a method finds the same in both versions. -/
theorem isDone_methodShape_cursor (ps : List (Piece e)) (s : Side) :
    (methodShape (e.cursor ps s)).isDone = (methodShape (e.cursor ps .before)).isDone := by
  cases inStep_methodShape ps with
  | done hps ha h => rw [h s, h .before]; rfl
  | failed hps hf h => rw [h s, h .before]; rfl

theorem inStep_property (start : Side → Cursor) (modifiers : Modifiers) {type : Side → TypeExpr}
    (htype : Keeps TypeExpr.bare type) (ps : List (Piece e)) :
    InStep (Keeps PropertyDecl.bare) (fun s => property (start s) modifiers (type s)) ps := by
  refine (inStep_expectIdentifier ps).bind fun name _ qs _ hname _ => ?_
  have hend (rs : List (Piece e)) : InStep (Keeps PropertyDecl.bare) (fun s => here >>= fun stop =>
      Pure.pure ⟨modifiers, type s, name s, (start s).spanSince stop⟩) rs :=
    .span_end fun spans s => by simp only [PropertyDecl.bare, htype s, hname s]
  refine .here_bind ?_
  simp only [Edit.isAt_cursor]
  refine .ite (fun _ => ?_) fun _ => (inStep_body qs).bind fun _ _ rs _ _ _ => hend rs
  refine (inStep_skipGroup qs).bind fun _ _ rs _ _ _ => ?_
  refine .eat_ite (by simp) (fun _ ts _ => ?_) (hend rs)
  refine (inStep_skipUntil _ ts).bind fun _ _ us _ _ _ => ?_
  exact .eat_bind (by simp) (fun _ vs _ => hend vs) (hend us)

theorem inStep_declarator (ps : List (Piece e)) :
    InStep (Keeps Ident.bare) (fun _ => declarator) ps := by
  refine (inStep_expectIdentifier ps).bind fun name _ qs _ hname _ => ?_
  refine .eat_ite (by simp) (fun _ rs _ => ?_) (.pure hname)
  exact (inStep_skipUntil _ rs).bind fun _ _ _ _ _ _ => .pure hname

theorem inStep_field (start : Side → Cursor) (modifiers : Modifiers) {type : Side → TypeExpr}
    (htype : Keeps TypeExpr.bare type) (ps : List (Piece e)) :
    InStep (Keeps FieldDecl.bare) (fun s => field (start s) modifiers (type s)) ps := by
  refine (inStep_commaSeparated (fun _ => reads_declarator) fun _ rs _ =>
    inStep_declarator rs).bind fun names _ qs _ hnames _ => ?_
  refine (inStep_expect (by simp) qs).bind fun _ _ _ _ _ _ => .span_end fun spans s => ?_
  simp only [FieldDecl.bare, htype s, hnames s]

/-- What a reader gives that may find no item: none in both versions, or one of both. -/
def Edit.MayItem (e : Edit) (a : Side → Option Item) : Prop :=
  (∀ s, a s = none) ∨ ∃ item, e.Items item ∧ ∀ s, a s = some (item s)

theorem Edit.items_of_bare {a : Side → Item} (h : Keeps Item.bare a) (hcode : (a .before).code? = none) :
    e.Items a where
  bare := h
  code b hb := by
    have hb0 := hb .before
    rw [hcode] at hb0
    cases hb0

theorem Edit.items_of_method {m : Side → MethodDecl} (h : e.MethodTwins m) :
    e.Items fun s => .method (m s) where
  bare s := congrArg Item.method (h.1 s)
  code b hb := by
    obtain rfl : (fun s => (m s).body) = b := funext fun s => Option.some.inj (hb s)
    exact h.2

theorem inStep_readMember (start : Side → Cursor) (modifiers : Modifiers) {type : Side → TypeExpr}
    (htype : Keeps TypeExpr.bare type) (ps : List (Piece e)) : ∀ sort,
      InStep e.MayItem (fun s => readMember (start s) modifiers (type s) sort) ps
  | .method => (inStep_method start modifiers htype ps).map fun _ hm =>
      .inr ⟨_, Edit.items_of_method hm, fun _ => rfl⟩
  | .property => (inStep_property start modifiers htype ps).map fun p hp =>
      .inr ⟨fun s => .property (p s), Edit.items_of_bare (fun s => congrArg Item.property (hp s)) rfl,
        fun _ => rfl⟩
  | .field => (inStep_field start modifiers htype ps).map fun f hf =>
      .inr ⟨fun s => .field (f s), Edit.items_of_bare (fun s => congrArg Item.field (hf s)) rfl,
        fun _ => rfl⟩

/-- The kind of the token behind a name is that of the second piece. -/
theorem kindAt?_one_cursor (h : ps.head?.map Piece.kind = some .identifier) (s : Side) :
    (e.cursor ps s).kindAt? 1 = ps.tail.head?.map Piece.kind := by
  obtain ⟨p, hp, hk⟩ := Option.map_eq_some_iff.mp h
  obtain ⟨qs, rfl⟩ := List.head?_eq_some_iff.mp hp
  obtain ⟨t, ht, rfl⟩ := Piece.eq_token (p := p) (by rw [hk]; simp)
  rw [List.tail_cons, ← Edit.kind?_cursor e qs s, Cursor.kind?, List.head?_eq_getElem?]
  rfl

/-- **Members**: the look ahead decides the same, and each sort of member is read in step. -/
theorem inStep_member? (start : Side → Cursor) (modifiers : Modifiers) (ps : List (Piece e)) :
    InStep e.MayItem (fun s => member? (start s) modifiers) ps := by
  have hnone (h : ∀ s, member? (start s) modifiers (e.cursor ps s) = .done none (e.cursor ps s)) :
      InStep e.MayItem (fun s => member? (start s) modifiers) ps :=
    (InStep.pure (a := fun _ => none) (.inl fun _ => rfl)).of_eq h
  cases inStep_typeExpr ps with
  | failed hps hf h => exact hnone fun s => member?_of_failed _ _ (h s)
  | @done type w qs hps htype h =>
    have heq (s : Side) := member?_of_type (start s) modifiers (h s)
    simp only [Edit.isAt_cursor] at heq
    by_cases hi : qs.head?.map Piece.kind = some .identifier
    · have hshape (s : Side) := isDone_methodShape_cursor qs s
      simp only [hi, beq_self_eq_true, ↓reduceIte, kindAt?_one_cursor hi, hshape] at heq
      cases hsort : memberSort? (qs.tail.head?.map Piece.kind)
          (methodShape (e.cursor qs .before)).isDone with
      | none =>
        simp only [hsort] at heq
        exact hnone heq
      | some sort =>
        simp only [hsort] at heq
        exact (inStep_readMember start modifiers htype qs sort).behind hps heq
    · simp only [beq_false_of_ne hi, Bool.false_eq_true, ↓reduceIte] at heq
      exact hnone heq

/-! ### Type declarations and usings -/

theorem inStep_skipArguments (ps : List (Piece e)) :
    InStep (fun _ => True) (fun _ => skipArguments) ps := by
  refine .here_bind ?_
  simp only [Edit.isAt_cursor]
  refine .ite (fun _ => ?_) fun _ => .pure (a := fun _ => ()) trivial
  exact (inStep_skipGroup ps).bind fun _ _ _ _ _ _ => .pure (a := fun _ => ()) trivial

theorem inStep_baseTypes (ps : List (Piece e)) :
    InStep (Keeps (List.map TypeExpr.bare)) (fun _ => baseTypes) ps := by
  have hbase (qs : List (Piece e)) : InStep (Keeps TypeExpr.bare) (fun _ => baseType) qs :=
    (inStep_typeExpr qs).bind fun _ _ rs _ htype _ =>
      (inStep_skipArguments rs).bind fun _ _ _ _ _ _ => .pure htype
  exact .eat_ite (by simp) (fun _ _ _ => inStep_commaSeparated (fun _ => reads_baseType) fun _ rs _ =>
    hbase rs) (.pure (a := fun _ => []) fun _ => rfl)

/-- The word of a type declaration is the same piece, or the same two. -/
theorem inStep_typeWord (h : (ps.head?.map Piece.kind).any TokenKind.isTypeWord) :
    InStep (fun a => ∃ kind, a = fun _ => kind) (fun _ => typeWord) ps := by
  obtain ⟨kind, hk, hword⟩ := (Option.any_eq_true _ _).mp h
  obtain ⟨p, hp, rfl⟩ := Option.map_eq_some_iff.mp hk
  obtain ⟨qs, rfl⟩ := List.head?_eq_some_iff.mp hp
  obtain ⟨t, ht, rfl⟩ := Piece.eq_token (p := p) fun h => by rw [h] at hword; cases hword
  have hbehind : ∃ w rs, qs = w ++ rs ∧ ∀ s,
      behindTypeWord (Piece.token t ht).kind (e.cursor qs s).rest = (e.cursor rs s).rest := by
    cases qs with
    | nil => exact ⟨[], [], rfl, fun _ => rfl⟩
    | cons q rs =>
      by_cases hq : (Piece.token t ht).kind = .recordWord ∧ (q.kind = .structWord ∨ q.kind = .classWord)
      · obtain ⟨u, hu, rfl⟩ := Piece.eq_token (p := q) (by rcases hq.2 with h | h <;> rw [h] <;> simp)
        refine ⟨[_], rs, rfl, fun s => ?_⟩
        rw [Edit.rest_token, behindTypeWord, if_pos]
        rw [Piece.kind_token u hu s]
        exact hq
      · refine ⟨[], _, rfl, fun s => ?_⟩
        obtain ⟨r, hr⟩ := e.rest_cons rs s q
        rw [hr, behindTypeWord, if_neg]
        rw [q.kind_first]
        exact hq
  obtain ⟨w, rs, hrs, hrest⟩ := hbehind
  refine .done (a := fun _ => typeKindOf (Piece.token t ht).kind) (w := _ :: w) (q := rs)
    (by rw [hrs]; rfl) ⟨_, rfl⟩ fun s => ?_
  have hkind := Piece.kind_token t ht s
  have hword := typeWord_eq (e.rest_token qs s t ht) (by rwa [hkind])
  rw [hkind, hrest s] at hword
  exact hword

/-- **Type declarations.** -/
theorem inStep_typeDecl (start : Side → Cursor) (modifiers : Modifiers)
    (h : (ps.head?.map Piece.kind).any TokenKind.isTypeWord) :
    InStep (Keeps TypeDecl.bare) (fun s => typeDecl (start s) modifiers) ps := by
  refine (inStep_typeWord h).bind fun kind _ qs _ hkind _ => ?_
  obtain ⟨kind, rfl⟩ := hkind
  refine (inStep_expectIdentifier qs).bind fun name _ qs _ hname _ => ?_
  refine (inStep_typeParameters qs).bind fun params _ qs _ hparams _ => ?_
  refine (inStep_skipArguments qs).bind fun _ _ qs _ _ _ => ?_
  refine (inStep_baseTypes qs).bind fun bases _ qs _ hbases _ => ?_
  refine (inStep_skipConstraints _ qs).bind fun _ _ qs _ _ _ => .here_bind ?_
  have hend (rs : List (Piece e)) : InStep (Keeps TypeDecl.bare) (fun s => here >>= fun stop =>
      Pure.pure ⟨modifiers, kind, name s, params s, bases s, (start s).spanSince stop⟩) rs :=
    .span_end fun spans s => by simp only [TypeDecl.bare, hname s, hparams s, hbases s]
  simp only [Edit.isAt_cursor]
  refine .ite (fun _ => ?_) fun _ => (inStep_expect (by simp) qs).bind fun _ _ rs _ _ _ => hend rs
  refine (inStep_skipGroup qs).bind fun _ _ rs _ _ _ => ?_
  exact .eat_bind (by simp) (fun _ ts _ => hend ts) (hend rs)

theorem inStep_aliasName? (ps : List (Piece e)) :
    InStep (Keeps (Option.map Ident.bare)) (fun _ => aliasName?) ps := by
  have hnone (h : ∀ s, aliasName? (e.cursor ps s) = .done none (e.cursor ps s)) :
      InStep (Keeps (Option.map Ident.bare)) (fun _ => aliasName?) ps :=
    (InStep.pure (a := fun _ => none) fun _ => rfl).of_eq h
  cases ps with
  | nil => exact hnone fun _ => rfl
  | cons p qs =>
    by_cases hp : p.kind = .identifier
    · obtain ⟨t, ht, rfl⟩ := Piece.eq_token (p := p) (by rw [hp]; simp)
      have ht' (s : Side) : (t s).kind = .identifier := (Piece.kind_token t ht s).trans hp
      cases qs with
      | nil => exact hnone fun _ => rfl
      | cons q rs =>
        by_cases hq : q.kind = .equal
        · obtain ⟨u, hu, rfl⟩ := Piece.eq_token (p := q) (by rw [hq]; simp)
          refine .done (a := fun s => some (.ofToken (t s))) (w := [_, _]) (q := rs) rfl
            (fun s => congrArg (some <| Ident.mk · default) (ht.lexeme s)) fun s => ?_
          have hu' : (u s).kind = .equal := (Piece.kind_token u hu s).trans hq
          simp only [aliasName?, Edit.rest_token, ht', hu', and_self, ↓reduceIte]
          rfl
        · refine hnone fun s => ?_
          obtain ⟨r, hr⟩ := e.rest_cons rs s q
          simp only [aliasName?, Edit.rest_token, hr, q.kind_first, hq, and_false, ↓reduceIte]
    · refine hnone fun s => ?_
      obtain ⟨r, hr⟩ := e.rest_cons qs s p
      exact aliasName?_of_other hr (by rwa [p.kind_first])

/-- **Usings.** -/
theorem inStep_usingDirective (ps : List (Piece e)) :
    InStep (Keeps UsingDirective.bare) (fun _ => usingDirective) ps := by
  refine .here_bind ?_
  refine (inStep_expect (by simp) ps).bind fun _ _ qs _ _ _ => ?_
  have htarget (isStatic : Bool) (rs : List (Piece e)) : InStep (Keeps UsingDirective.bare)
      (fun s => aliasName? >>= fun alias? => typeExpr >>= fun target => expect .semicolon >>= fun _ =>
        here >>= fun stop => Pure.pure
          (UsingDirective.mk target.path isStatic alias? ((e.cursor ps s).spanSince stop))) rs := by
    refine (inStep_aliasName? rs).bind fun alias? _ rs _ halias _ => ?_
    refine (inStep_typeExpr rs).bind fun target _ rs _ htype _ => ?_
    refine (inStep_expect (by simp) rs).bind fun _ _ _ _ _ _ => .span_end fun spans s => ?_
    have hpath := congrArg TypeExpr.path (htype s)
    simp only [TypeExpr.path_bare] at hpath
    simp only [UsingDirective.bare, hpath, halias s]
  exact .eat_bind (by simp) (fun _ rs _ => htarget true rs) (htarget false qs)

end ScriptHost
