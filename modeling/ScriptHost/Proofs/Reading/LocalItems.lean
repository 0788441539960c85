/-
# Declarations are read locally

The readers of members, type declarations and usings, one after the other, end at the latest
with a `;` outside all brackets. One of them cannot be taken apart: the reader of methods
skips constraints up to a body, whatever `;` comes first, and only ends because a look ahead
found the body in front of the `;` (`ends_method`).

Key theorems: `stays_parameters`, `ends_body`, `ends_method`, `ends_member?`,
`ends_typeDecl`, `ends_usingDirective`.
-/
import ScriptHost.Proofs.Reading.LocalTypes

namespace ScriptHost

open Parse Source

variable {k : Continued} {α β : Type} {st : List Delimiter} {s s0 : List Token}

/-! ### Parameters -/

/-- A parameter stands in parentheses, and its default value does not leave them. -/
theorem stays_parameter {pair : Delimiter} (hs : Inside (pair :: st) s) :
    Stays k s parameter parameter := by
  have hwords : isParameterWord .semicolon = false := rfl
  refine (stays_skipAttributes hs).bind reads_skipAttributes hs fun _ s0 hs0 _ => .here_bind ?_
  refine (stays_takeKinds hwords hs0).bind (reads_takeKinds fun k hk => ?_) hs0 fun words r1 h1 _ => ?_
  · cases k <;> simp_all [isParameterWord, TokenKind.isBracket]
  refine (stays_typeExpr h1).bind reads_typeExpr h1 fun type r2 h2 _ => ?_
  refine (stays_expectIdentifier h2).bind reads_expectIdentifier h2 fun name r3 h3 _ => ?_
  refine .eat_plain h3 (by simp) rfl (fun r4 h4 _ => ?_) ?_
  · refine .ite (fun _ => ?_) fun h => absurd rfl h
    refine (stays_skipUntil h4 (.inr (by simp))).bind (reads_skipUntil _) h4 fun _ r5 h5 _ => ?_
    exact .span_bind hs0.ne_nil fun span => .pure h5.ne_nil
      (ParameterDecl.mk (.ofKinds words) (words.contains .thisWord) type name true span)
  · refine .ite (fun h => by cases h) fun _ => ?_
    exact .span_bind hs0.ne_nil fun span => .pure h3.ne_nil
      (ParameterDecl.mk (.ofKinds words) (words.contains .thisWord) type name false span)

theorem stays_parameters (hs : Inside st s) : Stays k s parameters parameters := by
  refine .here_bind ?_
  rw [k.kind?_whole hs.ne_nil]
  refine .eat_opening hs (fun r1 h1 => ?_) ?_
  · refine .ite (fun _ => ?_) fun h => absurd rfl h
    refine .eat_closing h1 (fun r2 h2 => ?_) ?_
    · exact .ite (fun _ => .pure h2.ne_nil []) fun h => absurd rfl h
    · refine .ite (fun h => by cases h) fun _ => ?_
      have hlist : Stays k r1 (commaSeparated parameter) (commaSeparated parameter) :=
        stays_commaSeparated reads_parameter h1 fun q hq _ => stays_parameter hq
      refine hlist.bind (reads_commaSeparated reads_parameter) h1 fun params r2 h2 _ => ?_
      exact .expect_closing h2 fun _ r3 h3 => .pure h3.ne_nil params
  · exact .ite (fun h => by cases h) fun _ => .complain hs.ne_nil _

/-! ### Bodies and members -/

/-- A body from a place to where a reader stands. -/
theorem ends_bodySince (hs0 : s0 ≠ []) (kind : BodyKind) :
    Ends k s (here >>= fun stop => pure ((k.whole s0).bodySince kind stop))
      (here >>= fun stop => pure ((k.part s0).bodySince kind stop)) := by
  refine .here_bind ?_
  rw [k.bodySince_whole hs0]
  exact .pure _

theorem ends_body (hs : Inside st s) : Ends k s body body := by
  refine .here_bind ?_
  rw [k.isAt_whole hs.ne_nil, k.kind?_whole hs.ne_nil]
  refine .ite (fun _ => ?_) fun _ => ?_
  · exact (stays_skipGroup hs).bind_ends reads_skipGroup hs fun _ r hr _ =>
      ends_bodySince hs.ne_nil .block
  · refine .eat_bind hs.ne_nil (fun t r hr ht => ?_) ?_
    · refine .ite (fun _ => ?_) fun h => absurd rfl h
      subst hr
      have hr : Inside st r := hs.tail ht rfl (by simp)
      refine (stays_skipUntil hr (.inl rfl)).bind_ends (reads_skipUntil _) hr fun _ q hq _ => ?_
      exact .eat_bind hq.ne_nil (fun _ _ _ _ => ends_bodySince hs.ne_nil .expression)
        (ends_bodySince hs.ne_nil .expression)
    · exact .ite (fun h => by cases h) fun _ => (Stays.complain hs.ne_nil _).ends

/-- A search that stops at fewer tokens stops at the same place if that is one of them. -/
theorem skipUntilWithin_of_fewer {stops stops' : TokenKind → Bool}
    (hle : ∀ kind, stops kind → stops' kind) : ∀ (n : Nat) {c d : Cursor},
      skipUntilWithin stops' n c = .done () d →
        (∀ t r, d.rest = t :: r → stops' t.kind → stops t.kind) →
          skipUntilWithin stops n c = .done () d
  | 0, c, d, h, _ => h
  | n + 1, c, d, h, hd => by
    cases hr : c.rest with
    | nil => simp [skipUntilWithin, hr, complain] at h
    | cons t r =>
      by_cases hst : stops' t.kind = true
      · rw [skipUntilWithin_stop n hr hst] at h
        obtain rfl : c = d := by simpa using h
        exact skipUntilWithin_stop n hr (hd t r hr hst)
      have hst2 : stops t.kind = false := Bool.not_eq_true _ ▸ fun h2 => hst (hle _ h2)
      have hst : stops' t.kind = false := Bool.not_eq_true _ ▸ hst
      have hplain (hb : t.kind.isBracket = false) : skipUntilWithin stops (n + 1) c = .done () d := by
        rw [skipUntilWithin_plain n hr hst hb] at h
        rw [skipUntilWithin_plain n hr hst2 hb]
        exact skipUntilWithin_of_fewer hle n h hd
      cases hk : t.kind with
      | opening pair =>
        rw [skipUntilWithin_opening n hr hst hk] at h
        rw [skipUntilWithin_opening n hr hst2 hk]
        obtain ⟨closer, d', hg, h⟩ := bind_eq_done.mp h
        exact bind_eq_done.mpr ⟨closer, d', hg, skipUntilWithin_of_fewer hle n h hd⟩
      | closing pair =>
        rw [skipUntilWithin_closing n hr hst hk] at h
        cases h
      | _ => exact hplain (by rw [hk]; rfl)

/-- The tokens that end the constraints of a method: the start of its body. -/
def startsBody (kind : TokenKind) : Bool := kind == .opening .brace || kind == .arrow

/-- Where the constraints end if a `;` ends them, too. -/
def startsBodyOrEnds (kind : TokenKind) : Bool :=
  kind == .opening .brace || kind == .arrow || kind == .semicolon

/-- Constraints that are followed by a body end in front of it, whether a `;` would have
ended them or not. -/
theorem skipConstraints_of_body {c d : Cursor} (h : skipConstraints startsBodyOrEnds c = .done () d)
    (hd : d.isAt (.opening .brace) || d.isAt .arrow) : skipConstraints startsBody c = .done () d := by
  unfold skipConstraints at h ⊢
  simp only [here, bind_apply] at h ⊢
  split at h
  · next hw =>
    rw [if_pos hw]
    refine skipUntilWithin_of_fewer (fun kind hk => ?_) _ h fun t r hr ht => ?_
    · simp only [startsBody, startsBodyOrEnds, Bool.or_eq_true] at hk ⊢
      exact .inl hk
    · simpa [startsBody, Cursor.isAt, Cursor.kind?, hr] using hd
  · next hw =>
    rw [if_neg hw]
    exact h

/-- So they stay, if a body follows them. -/
theorem stays_constraints (hs : Inside st s) {r : List Token}
    (h : skipConstraints startsBodyOrEnds (k.part s) = .done () (k.part r))
    (hr : (k.part r).isAt (.opening .brace) || (k.part r).isAt .arrow) :
    Stays k s (skipConstraints startsBody) (skipConstraints startsBody) := by
  have hstays : Stays k s (skipConstraints startsBodyOrEnds) (skipConstraints startsBodyOrEnds) :=
    stays_skipConstraints hs (.inl rfl)
  have hne : r ≠ [] := by
    have hi := hstays.inside
    rw [h] at hi
    exact hi
  have hwhole := hstays.same
  rw [h, Continued.onto] at hwhole
  have hr' : (k.whole r).isAt (.opening .brace) || (k.whole r).isAt .arrow := by
    rw [k.isAt_whole hne, k.isAt_whole hne]
    exact hr
  exact (Stays.pure hne ()).of_eq (skipConstraints_of_body hwhole hr') (skipConstraints_of_body h hr)

/-- What the look ahead at a method behind its type parameters found. -/
theorem constraints_of_shape {c : Cursor} {name : Ident} {params : List Ident} {d1 d2 d3 : Cursor}
    {ps : List ParameterDecl} (h1 : expectIdentifier c = .done name d1)
    (h2 : typeParameters d1 = .done params d2) (h3 : parameters d2 = .done ps d3)
    (h : (methodShape c).isDone) :
    ∃ d4, skipConstraints startsBodyOrEnds d3 = .done () d4 ∧
      (d4.isAt (.opening .brace) || d4.isAt .arrow) := by
  obtain ⟨closer, h3'⟩ := skipGroup_of_parameters h3
  unfold methodShape at h
  simp only [here, bind_apply, h1, h2] at h
  split at h
  · simp only [bind_apply, h3'] at h
    cases h4 : skipConstraints startsBodyOrEnds d3 with
    | done u d4 =>
      refine ⟨d4, rfl, ?_⟩
      unfold startsBodyOrEnds at h4
      rw [h4] at h
      by_cases hb : (d4.isAt (.opening .brace) || d4.isAt .arrow) = true
      · exact hb
      · simp [here, hb, complain, Reply.isDone] at h
    | failed e d4 =>
      unfold startsBodyOrEnds at h4
      rw [h4] at h
      cases h
  · cases h

/-- **Methods.** The look ahead found the body in front of the `;`. -/
theorem ends_method (hs : Inside st s) (hs0 : s0 ≠ []) (modifiers : Modifiers) (returns : TypeExpr)
    (hshape : (methodShape (k.part s)).isDone) :
    Ends k s (method (k.whole s0) modifiers returns) (method (k.part s0) modifiers returns) := by
  refine (stays_expectIdentifier hs).bind_ends reads_expectIdentifier hs fun name r1 h1 hd1 => ?_
  refine (stays_typeParameters h1).bind_ends reads_typeParameters h1 fun tparams r2 h2 hd2 => ?_
  refine (stays_parameters h2).bind_ends reads_parameters h2 fun params r3 h3 hd3 => ?_
  obtain ⟨d4, hd4, hbody⟩ := constraints_of_shape hd1 hd2 hd3 hshape
  have hd4' : d4 = k.part d4.rest := by
    obtain ⟨w, -, hf, -⟩ := (reads_skipConstraints _).done hd4
    exact k.eq_part hf
  rw [hd4'] at hd4 hbody
  refine (stays_constraints h3 hd4 hbody).bind_ends (reads_skipConstraints _) h3 fun _ r4 h4 _ => ?_
  refine (ends_body h4).bind reads_body fun body r5 => ?_
  exact .span_bind hs0 fun span =>
    .pure (MethodDecl.mk modifiers returns name tparams params body span)

theorem ends_property (hs : Inside st s) (hs0 : s0 ≠ []) (modifiers : Modifiers) (type : TypeExpr) :
    Ends k s (property (k.whole s0) modifiers type) (property (k.part s0) modifiers type) := by
  refine (stays_expectIdentifier hs).bind_ends reads_expectIdentifier hs fun name r1 h1 _ => ?_
  have hend (r : List Token) : Ends k r
      (here >>= fun stop => pure (PropertyDecl.mk modifiers type name ((k.whole s0).spanSince stop)))
      (here >>= fun stop => pure (PropertyDecl.mk modifiers type name ((k.part s0).spanSince stop))) :=
    .span_bind hs0 fun span => .pure (PropertyDecl.mk modifiers type name span)
  refine .here_bind ?_
  rw [k.isAt_whole h1.ne_nil]
  refine .ite (fun _ => ?_) fun _ => (ends_body h1).bind reads_body fun _ r => hend r
  refine (stays_skipGroup h1).bind_ends reads_skipGroup h1 fun _ r2 h2 _ => ?_
  refine .eat_bind h2.ne_nil (fun t r hr ht => ?_) (.ite (fun h => by cases h) fun _ => hend r2)
  refine .ite (fun _ => ?_) fun h => absurd rfl h
  subst hr
  have hr : Inside st r := h2.tail ht rfl (by simp)
  refine (stays_skipUntil hr (.inl rfl)).bind_ends (reads_skipUntil _) hr fun _ q hq _ => ?_
  exact .eat_bind hq.ne_nil (fun _ r _ _ => hend r) (hend q)

theorem stays_declarator (hs : Inside st s) : Stays k s declarator declarator := by
  refine (stays_expectIdentifier hs).bind reads_expectIdentifier hs fun name r hr _ => ?_
  refine .eat_plain hr (by simp) rfl (fun q hq _ => ?_)
    (.ite (fun h => by cases h) fun _ => .pure hr.ne_nil name)
  refine .ite (fun _ => ?_) fun h => absurd rfl h
  exact (stays_skipUntil hq (.inl rfl)).bind (reads_skipUntil _) hq fun _ p hp _ =>
    .pure hp.ne_nil name

theorem ends_field (hs : Inside st s) (hs0 : s0 ≠ []) (modifiers : Modifiers) (type : TypeExpr) :
    Ends k s (field (k.whole s0) modifiers type) (field (k.part s0) modifiers type) := by
  have hlist : Stays k s (commaSeparated declarator) (commaSeparated declarator) :=
    stays_commaSeparated reads_declarator hs fun q hq _ => stays_declarator hq
  refine hlist.bind_ends (reads_commaSeparated reads_declarator) hs fun names r hr _ => ?_
  exact .expect_bind hr.ne_nil fun _ q => .span_bind hs0 fun span =>
    .pure (FieldDecl.mk modifiers type names span)

theorem Ends.map {p q : Parse α} (f : α → β) (h : Ends k s p q) : Ends k s (f <$> p) (f <$> q) := by
  have hsame := h.same
  cases hq : q (k.part s) with
  | done a d =>
    rw [hq, Continued.onto] at hsame
    refine ⟨by rw [map_apply, map_apply, hsame, hq]; rfl, fun e d' hf => ?_⟩
    rw [map_apply, hq] at hf
    cases hf
  | failed e d =>
    have hi := h.inside e d hq
    rw [hq, Continued.onto] at hsame
    refine ⟨by rw [map_apply, map_apply, hsame, hq]; rfl, fun e' d' hf => ?_⟩
    rw [map_apply, hq] at hf
    obtain ⟨-, rfl⟩ : e = e' ∧ d = d' := by simpa using hf
    exact hi

/-- What the second token says about a member is the same where the source goes on. -/
theorem kindAt?_one_whole (hs : Inside st s) (hi : (k.part s).isAt .identifier) :
    (k.whole s).kindAt? 1 = (k.part s).kindAt? 1 := by
  obtain ⟨t, r, rfl⟩ := hs.cons_eq
  have ht : t.kind = .identifier := by
    simpa [Continued.part, Cursor.isAt, Cursor.kind?] using hi
  obtain ⟨u, r', rfl⟩ := (hs.tail ht rfl (by simp)).cons_eq
  rfl

/-- The look ahead at a method finds the same where the source goes on. -/
theorem isDone_methodShape_whole (hs : Inside st s) :
    (methodShape (k.whole s)).isDone = (methodShape (k.part s)).isDone := by
  have h : Stays k s methodShape methodShape := by
    refine (stays_expectIdentifier hs).bind reads_expectIdentifier hs fun _ r1 h1 _ => ?_
    refine (stays_typeParameters h1).bind reads_typeParameters h1 fun _ r2 h2 _ => .here_bind ?_
    rw [k.isAt_whole h2.ne_nil, k.kind?_whole h2.ne_nil]
    refine .ite (fun _ => ?_) fun _ => .complain h2.ne_nil _
    refine (stays_skipGroup h2).bind reads_skipGroup h2 fun _ r3 h3 _ => ?_
    refine (stays_skipConstraints h3 (.inl rfl)).bind (reads_skipConstraints _) h3 fun _ r4 h4 _ => ?_
    refine .here_bind ?_
    rw [k.isAt_whole h4.ne_nil, k.isAt_whole h4.ne_nil, k.kind?_whole h4.ne_nil]
    exact .ite (fun _ => .pure h4.ne_nil ()) fun _ => .complain h4.ne_nil _
  rw [h.same]
  cases methodShape (k.part s) <;> rfl

theorem shape_of_memberSort? {second? : Option TokenKind} {hasShape : Bool}
    (h : memberSort? second? hasShape = some .method) : hasShape := by
  unfold memberSort? at h
  split at h <;> simp_all

/-- A member of the sort that was announced. -/
theorem ends_readMember (hs : Inside st s) (hs0 : s0 ≠ []) (modifiers : Modifiers) (type : TypeExpr)
    {second? : Option TokenKind} : ∀ {sort : MemberSort},
      memberSort? second? (methodShape (k.part s)).isDone = some sort →
        Ends k s (readMember (k.whole s0) modifiers type sort)
          (readMember (k.part s0) modifiers type sort)
  | .method, h => (ends_method hs hs0 modifiers type (shape_of_memberSort? h)).map _
  | .property, _ => (ends_property hs hs0 modifiers type).map _
  | .field, _ => (ends_field hs hs0 modifiers type).map _

/-- **Members**: the look ahead decides the same, and each sort of member is read locally. -/
theorem ends_member? (hs : Inside st s) (hs0 : s0 ≠ []) (modifiers : Modifiers) :
    Ends k s (member? (k.whole s0) modifiers) (member? (k.part s0) modifiers) := by
  have hnone (hp : member? (k.whole s0) modifiers (k.whole s) = .done none (k.whole s))
      (hq : member? (k.part s0) modifiers (k.part s) = .done none (k.part s)) :
      Ends k s (member? (k.whole s0) modifiers) (member? (k.part s0) modifiers) :=
    (Ends.pure none).of_eq hp hq
  have htype := stays_typeExpr (k := k) hs
  have hsame := htype.same
  cases hd : typeExpr (k.part s) with
  | failed e d =>
    rw [hd, Continued.onto] at hsame
    exact hnone (member?_of_failed _ _ hsame) (member?_of_failed _ _ hd)
  | done type named =>
    obtain ⟨w, hw, hnamed, hin⟩ := htype.inside_done reads_typeExpr hs hd
    rw [hd, Continued.onto] at hsame
    rw [hnamed] at hd
    have hp := member?_of_type (k.whole s0) modifiers hsame
    have hq := member?_of_type (k.part s0) modifiers hd
    rw [k.isAt_whole hin.ne_nil] at hp
    cases hi : (k.part named.rest).isAt .identifier with
    | false =>
      rw [hi, if_neg (by simp)] at hp hq
      exact hnone hp hq
    | true =>
      rw [hi, if_pos rfl] at hp hq
      rw [kindAt?_one_whole hin hi, isDone_methodShape_whole hin] at hp
      cases hsort : memberSort? ((k.part named.rest).kindAt? 1)
          (methodShape (k.part named.rest)).isDone with
      | none =>
        rw [hsort] at hp hq
        exact hnone hp hq
      | some sort =>
        rw [hsort] at hp hq
        simp only at hp hq
        have hread := ends_readMember hin hs0 modifiers type hsort
        exact hread.of_eq hp hq

/-! ### Type declarations and usings -/

theorem stays_skipArguments (hs : Inside st s) : Stays k s skipArguments skipArguments := by
  refine .here_bind ?_
  rw [k.isAt_whole hs.ne_nil]
  refine .ite (fun _ => ?_) fun _ => .pure hs.ne_nil ()
  exact (stays_skipGroup hs).bind reads_skipGroup hs fun _ r hr _ => .pure hr.ne_nil ()

theorem stays_baseType (hs : Inside st s) : Stays k s baseType baseType := by
  refine (stays_typeExpr hs).bind reads_typeExpr hs fun type r hr _ => ?_
  exact (stays_skipArguments hr).bind reads_skipArguments hr fun _ q hq _ => .pure hq.ne_nil type

theorem stays_baseTypes (hs : Inside st s) : Stays k s baseTypes baseTypes := by
  refine .eat_plain hs (by simp) rfl (fun r hr _ => ?_)
    (.ite (fun h => by cases h) fun _ => .pure hs.ne_nil [])
  refine .ite (fun _ => ?_) fun h => absurd rfl h
  exact stays_commaSeparated reads_baseType hr fun q hq _ => stays_baseType hq

/-- What stands behind the word of a type declaration is the same where the source goes on. -/
theorem behindTypeWord_append {t : Token} {r : List Token} (more : List Token)
    (hs : Inside st (t :: r)) (ht : t.kind.isTypeWord) :
    behindTypeWord t.kind (r ++ more) = behindTypeWord t.kind r ++ more ∧
      Inside st (behindTypeWord t.kind r) := by
  have hb : t.kind.isBracket = false := by
    cases hk : t.kind <;> simp_all [TokenKind.isTypeWord, TokenKind.isBracket]
  have hr : Inside st r := hs.tail rfl hb fun h => by rw [h] at ht; cases ht
  obtain ⟨u, r', rfl⟩ := hr.cons_eq
  simp only [List.cons_append, behindTypeWord]
  split
  · next h =>
    refine ⟨rfl, ?_⟩
    rcases h.2 with hu | hu
    · exact hr.tail hu rfl (by simp)
    · exact hr.tail hu rfl (by simp)
  · exact ⟨rfl, hr⟩

/-- **Type declarations.** -/
theorem ends_typeDecl {t : Token} {r : List Token} (hs : Inside st (t :: r)) (hs0 : s0 ≠ [])
    (ht : t.kind.isTypeWord) (modifiers : Modifiers) :
    Ends k (t :: r) (typeDecl (k.whole s0) modifiers) (typeDecl (k.part s0) modifiers) := by
  obtain ⟨hmore, hq⟩ := behindTypeWord_append k.more hs ht
  have hp := typeWord_eq (c := k.part (t :: r)) rfl ht
  have hw := typeWord_eq (c := k.whole (t :: r)) rfl ht
  have hgoto : (k.whole (t :: r)).goto (behindTypeWord t.kind (r ++ k.more)) =
      k.whole (behindTypeWord t.kind r) := by
    rw [hmore]
    rfl
  rw [List.append_eq, hgoto] at hw
  unfold typeDecl
  have hend (kind : TypeDeclKind) (name : Ident) (params : List Ident) (bases : List TypeExpr)
      (r : List Token) : Ends k r
      (here >>= fun stop =>
        pure (TypeDecl.mk modifiers kind name params bases ((k.whole s0).spanSince stop)))
      (here >>= fun stop =>
        pure (TypeDecl.mk modifiers kind name params bases ((k.part s0).spanSince stop))) :=
    .span_bind hs0 fun span => .pure (TypeDecl.mk modifiers kind name params bases span)
  refine .bind_of_done hw hp ?_
  refine (stays_expectIdentifier hq).bind_ends reads_expectIdentifier hq fun name r1 h1 _ => ?_
  refine (stays_typeParameters h1).bind_ends reads_typeParameters h1 fun params r2 h2 _ => ?_
  refine (stays_skipArguments h2).bind_ends reads_skipArguments h2 fun _ r3 h3 _ => ?_
  refine (stays_baseTypes h3).bind_ends reads_baseTypes h3 fun bases r4 h4 _ => ?_
  refine (stays_skipConstraints h4 (.inl rfl)).bind_ends (reads_skipConstraints _) h4 fun _ r5 h5 _ => ?_
  refine .here_bind ?_
  rw [k.isAt_whole h5.ne_nil]
  refine .ite (fun _ => ?_) fun _ => ?_
  · refine (stays_skipGroup h5).bind_ends reads_skipGroup h5 fun _ r6 h6 _ => ?_
    exact .eat_bind h6.ne_nil (fun _ r _ _ => hend _ name params bases r) (hend _ name params bases r6)
  · exact .expect_bind h5.ne_nil fun _ r => hend _ name params bases r

/-! ### Usings -/

theorem aliasName?_of_other {c : Cursor} {t : Token} {r : List Token} (hr : c.rest = t :: r)
    (ht : t.kind ≠ .identifier) : aliasName? c = .done none c := by
  unfold aliasName?
  rw [hr]
  cases r with
  | nil => rfl
  | cons u r => simp [ht]

theorem stays_aliasName? (hs : Inside st s) : Stays k s aliasName? aliasName? := by
  obtain ⟨t, r, rfl⟩ := hs.cons_eq
  by_cases ht : t.kind = .identifier
  · have htail := hs.tail ht rfl (by simp)
    obtain ⟨u, q, rfl⟩ := htail.cons_eq
    by_cases hu : u.kind = .equal
    · have hq : q ≠ [] := htail.tail_ne_nil (.inl (by rw [hu]; simp))
      exact ⟨by simp [aliasName?, Continued.whole, Continued.part, Continued.onto, Cursor.goto, ht, hu],
        by simpa [aliasName?, Continued.part, Cursor.goto, ht, hu, Reply.next] using hq⟩
    · exact ⟨by simp [aliasName?, Continued.whole, Continued.part, Continued.onto, hu],
        by simp [aliasName?, Continued.part, hu, Reply.next]⟩
  · have hw := aliasName?_of_other (c := k.whole (t :: r)) rfl ht
    have hp := aliasName?_of_other (c := k.part (t :: r)) rfl ht
    exact (Stays.pure hs.ne_nil none).of_eq hw hp

/-- **Usings.** -/
theorem ends_usingDirective (hs : Inside st s) : Ends k s usingDirective usingDirective := by
  refine .here_bind ?_
  refine (stays_expect hs (by simp)).bind_ends (reads_expect rfl) hs fun _ r1 h1 _ => ?_
  have htarget (isStatic : Bool) {r : List Token} (hr : Inside st r) : Ends k r
      (aliasName? >>= fun alias? => typeExpr >>= fun target => expect .semicolon >>= fun _ =>
        here >>= fun stop =>
          pure (UsingDirective.mk target.path isStatic alias? ((k.whole s).spanSince stop)))
      (aliasName? >>= fun alias? => typeExpr >>= fun target => expect .semicolon >>= fun _ =>
        here >>= fun stop =>
          pure (UsingDirective.mk target.path isStatic alias? ((k.part s).spanSince stop))) := by
    refine (stays_aliasName? hr).bind_ends reads_aliasName? hr fun alias? r2 h2 _ => ?_
    refine (stays_typeExpr h2).bind_ends reads_typeExpr h2 fun target r3 h3 _ => ?_
    exact .expect_bind h3.ne_nil fun _ r => .span_bind hs.ne_nil fun span =>
      .pure (UsingDirective.mk target.path isStatic alias? span)
  refine .eat_bind h1.ne_nil (fun t r hr ht => ?_) (htarget false h1)
  subst hr
  exact htarget true (h1.tail ht rfl (by simp))

end ScriptHost
