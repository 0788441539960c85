/-
# The names in the items of a script

Every name in an item of a script was read off an identifier of its text, so it is a name: in a
written type at any depth, in the head of a declaration and in a using. A reader that is given
tokens whose identifiers are names gives a value in which all names are, and leaves such tokens;
this is proved for each reader from those it is made of, and then for every turn.

Key definitions: `TypeExpr.IsNamed`, `Item.IsNamed`, `Cursor.IsNamed`, `Parse.Yields`.
Key theorems: `Parse.Yields.bind`, `Parse.yields_typeExpr`, `isNamed_of_turn`,
`Script.isNamed_of_mem`.
-/
import Mathlib.Data.List.Basic
import ScriptHost.Proofs.Reading.MethodTurns
import ScriptHost.Proofs.Token.Names

namespace ScriptHost

open Parse

/-! ### Named values -/

/-- The names of a dotted path are names, and there is one. -/
structure IsPath (path : List Ident) : Prop where
  nonempty : path ≠ []
  names : ∀ i ∈ path, IsName i.name

/-- Every name in a written type, at any depth of its arguments, is a name. -/
inductive TypeExpr.IsNamed : TypeExpr → Prop
  | mk {path : List Ident} {args : List TypeExpr} {suffixes : List TypeSuffix} {span : Source.Span}
    (hpath : IsPath path) (hargs : ∀ a ∈ args, IsNamed a) : IsNamed (.mk path args suffixes span)

/-- The last name of a path is a name. -/
theorem TypeExpr.IsNamed.isName {t : TypeExpr} (h : t.IsNamed) : IsName t.name := by
  obtain ⟨hpath, -⟩ := h
  obtain ⟨lead, last, rfl⟩ := (List.eq_nil_or_concat' _).resolve_left hpath.nonempty
  have hlast : IsName last.name :=
    hpath.names last (List.mem_append_right lead (List.mem_singleton_self last))
  rw [TypeExpr.name, TypeExpr.path, List.getLast?_concat]
  exact hlast

structure ParameterDecl.IsNamed (p : ParameterDecl) : Prop where
  type : p.type.IsNamed
  name : IsName p.name.name

structure MethodDecl.IsNamed (m : MethodDecl) : Prop where
  returns : m.returns.IsNamed
  name : IsName m.name.name
  typeParameters : ∀ i ∈ m.typeParameters, IsName i.name
  parameters : ∀ p ∈ m.parameters, p.IsNamed

structure FieldDecl.IsNamed (f : FieldDecl) : Prop where
  type : f.type.IsNamed
  names : ∀ i ∈ f.names, IsName i.name

structure PropertyDecl.IsNamed (p : PropertyDecl) : Prop where
  type : p.type.IsNamed
  name : IsName p.name.name

structure TypeDecl.IsNamed (t : TypeDecl) : Prop where
  name : IsName t.name.name
  typeParameters : ∀ i ∈ t.typeParameters, IsName i.name
  bases : ∀ b ∈ t.bases, b.IsNamed

structure UsingDirective.IsNamed (u : UsingDirective) : Prop where
  path : IsPath u.path
  name : ∀ a ∈ u.alias?, IsName a.name

/-- Every name in an item is a name. -/
def Item.IsNamed : Item → Prop
  | .usingDirective d => d.IsNamed
  | .typeDecl d => d.IsNamed
  | .method d => d.IsNamed
  | .field d => d.IsNamed
  | .property d => d.IsNamed
  | .reference _ | .statement _ => True

/-- The identifiers among the tokens at a cursor are names. -/
def Cursor.IsNamed (c : Cursor) : Prop := ∀ t ∈ c.rest, t.Names

variable {c d : Cursor} {t : Token} {r : List Token}

theorem Cursor.IsNamed.behind {w : List Token} (h : c.IsNamed) (hw : c.rest = w ++ d.rest) :
    d.IsNamed := by
  intro t ht
  refine h t ?_
  rw [hw]
  exact List.mem_append_right w ht

/-- The next token is an identifier: its text is a name. -/
theorem Cursor.IsNamed.head (h : c.IsNamed) (hr : c.rest = t :: r) (hk : t.kind = .identifier) :
    IsName (Ident.ofToken t).name := by
  refine h t ?_ hk
  rw [hr]
  exact List.mem_cons_self

/-! ### Readers -/

namespace Parse

variable {α β : Type} {P : α → Prop} {Q : β → Prop} {p : Parse α} {k : α → Parse β}

/-- Where identifiers are names, what the reader gives has the property, and they are names
behind it. -/
def Yields (P : α → Prop) (p : Parse α) : Prop :=
  ∀ c a d, c.IsNamed → p c = .done a d → P a ∧ d.IsNamed

namespace Yields

theorem pure {a : α} (h : P a) : Yields P (Pure.pure a) := fun _ _ _ hc hdone => by
  cases hdone
  exact ⟨h, hc⟩

theorem complain (complaint : Complaint) : Yields P (Parse.complain complaint) :=
  fun _ _ _ _ hdone => by cases hdone

/-- **Readers in a row.** -/
theorem bind (hp : Yields P p) (hk : ∀ a, P a → Yields Q (k a)) : Yields Q (p >>= k) := by
  intro c b d hc hdone
  obtain ⟨a, e, ha, hb⟩ := bind_eq_done.mp hdone
  obtain ⟨hpa, he⟩ := hp c a e hc ha
  exact hk a hpa e b d he hb

/-- A reader behind one whose value does not matter. -/
theorem after (hp : Reads p) (hk : ∀ a, Yields Q (k a)) : Yields Q (p >>= k) := by
  intro c b d hc hdone
  obtain ⟨a, e, ha, hb⟩ := bind_eq_done.mp hdone
  obtain ⟨w, hw, -, -⟩ := hp.done ha
  exact hk a e b d (hc.behind hw) hb

theorem map {f : α → β} (hp : Yields P p) (hf : ∀ a, P a → Q (f a)) : Yields Q (f <$> p) := by
  intro c b d hc hdone
  obtain ⟨a, ha, rfl⟩ := map_eq_done.mp hdone
  obtain ⟨hpa, hd⟩ := hp c a d hc ha
  exact ⟨hf a hpa, hd⟩

theorem ite {b : Prop} [Decidable b] {q : Parse α} (hp : Yields P p) (hq : Yields P q) :
    Yields P (if b then p else q) := by
  split
  · exact hp
  · exact hq

end Yields

theorem yields_expectIdentifier : Yields (fun i => IsName i.name) expectIdentifier := by
  intro c i d hc hdone
  unfold expectIdentifier at hdone
  split at hdone
  · cases hdone
  next t r hr =>
    split at hdone
    next hk =>
      cases hdone
      exact ⟨hc.head hr hk, hc.behind (w := [t]) hr⟩
    · cases hdone

theorem yields_eat (kind : TokenKind) : Yields (fun _ => True) (eat kind) := by
  intro c b d hc hdone
  rcases eat_eq kind c with ⟨t, r, hr, -, heat⟩ | heat
  · rw [heat] at hdone
    cases hdone
    exact ⟨trivial, hc.behind (w := [t]) hr⟩
  · rw [heat] at hdone
    cases hdone
    exact ⟨trivial, hc⟩

theorem yields_expect (kind : TokenKind) : Yields (fun _ => True) (expect kind) := by
  intro c t d hc hdone
  rcases expect_eq kind c with ⟨t, r, hr, -, hexpect⟩ | ⟨e, hexpect⟩
  · rw [hexpect] at hdone
    cases hdone
    exact ⟨trivial, hc.behind (w := [t]) hr⟩
  · rw [hexpect] at hdone
    cases hdone

theorem yields_commaSeparatedWithin (hp : Yields P p) :
    ∀ n, Yields (fun as => ∀ a ∈ as, P a) (commaSeparatedWithin p n)
  | 0 => hp.bind fun _ ha => .pure (List.forall_mem_singleton.mpr ha)
  | n + 1 => by
    refine hp.bind fun a ha => .after (reads_eat rfl) fun b => ?_
    refine .ite ((yields_commaSeparatedWithin hp n).bind fun as has => ?_) ?_
    · exact .pure (List.forall_mem_cons.mpr ⟨ha, has⟩)
    · exact .pure (List.forall_mem_singleton.mpr ha)

theorem yields_commaSeparated (hp : Yields P p) :
    Yields (fun as => ∀ a ∈ as, P a) (commaSeparated p) :=
  fun c as d hc hdone => yields_commaSeparatedWithin hp _ c as d hc hdone

/-! ### Types -/

theorem names_moreSegments : ∀ {r : List Token}, (∀ t ∈ r, t.Names) →
    ∀ i ∈ (moreSegments r).1, IsName i.name
  | [], _ => by simp [moreSegments]
  | [t], _ => by simp [moreSegments]
  | point :: t :: r, h => by
    obtain ⟨-, h⟩ := List.forall_mem_cons.mp h
    obtain ⟨ht, h⟩ := List.forall_mem_cons.mp h
    unfold moreSegments
    split
    next hk => exact List.forall_mem_cons.mpr ⟨ht hk.2, names_moreSegments h⟩
    · simp

theorem yields_dottedName : Yields IsPath dottedName := by
  refine yields_expectIdentifier.bind fun first hfirst => ?_
  intro c path d hc hdone
  cases hdone
  obtain ⟨w, hw, -⟩ := neutral_moreSegments c.rest
  refine ⟨⟨List.cons_ne_nil _ _, ?_⟩, hc.behind (w := w) hw⟩
  exact List.forall_mem_cons.mpr ⟨hfirst, names_moreSegments hc⟩

theorem yields_typeArguments {type : Parse TypeExpr} (h : Yields TypeExpr.IsNamed type) :
    Yields (fun args => ∀ a ∈ args, TypeExpr.IsNamed a) (typeArguments type) := by
  refine .after .here fun opened => .after (reads_eat rfl) fun b => .ite ?_ ?_
  · refine (yields_commaSeparated h).bind fun args hargs => .after (reads_eat rfl) fun b => ?_
    exact .ite (.pure hargs) (.complain _)
  · exact .pure fun a ha => absurd ha List.not_mem_nil

theorem yields_typeParts {type : Parse TypeExpr} (start : Cursor)
    (h : Yields TypeExpr.IsNamed type) : Yields TypeExpr.IsNamed (typeParts start type) :=
  yields_dottedName.bind fun _ hpath => (yields_typeArguments h).bind fun _ hargs =>
    .after reads_typeSuffixes fun _ => .after .here fun _ => .pure (.mk hpath hargs)

/-- Written types, by induction on the depth of their arguments. -/
theorem yields_typeExprWithin : ∀ n, Yields TypeExpr.IsNamed (typeExprWithin n)
  | 0 => fun _ _ _ _ hdone => by cases hdone
  | n + 1 => by
    intro c type d hc hdone
    unfold typeExprWithin at hdone
    split at hdone
    · have hbehind : (c.goto (dropGlobal c.rest)).IsNamed := by
        rcases dropGlobal_eq c.rest with hd | ⟨t, colons, hd, -⟩
        · exact hc.behind (w := []) (by rw [hd]; rfl)
        · exact hc.behind (w := [t, colons]) hd
      exact yields_typeParts c (yields_typeExprWithin n) _ type d hbehind hdone
    · cases hdone

/-- **Every name in a written type is a name.** -/
theorem yields_typeExpr : Yields TypeExpr.IsNamed typeExpr :=
  fun c type d hc hdone => yields_typeExprWithin _ c type d hc hdone

theorem yields_typeParameter : Yields (fun i => IsName i.name) typeParameter := by
  refine .after reads_skipAttributes fun _ => .after (reads_eat rfl) fun b => ?_
  exact .ite yields_expectIdentifier (.after (reads_eat rfl) fun _ => yields_expectIdentifier)

theorem yields_typeParameters : Yields (fun is => ∀ i ∈ is, IsName i.name) typeParameters := by
  refine .after (reads_eat rfl) fun b => .ite ?_ ?_
  · refine (yields_commaSeparated yields_typeParameter).bind fun names hnames => ?_
    exact .after (reads_expect rfl) fun _ => .pure hnames
  · exact .pure fun i hi => absurd hi List.not_mem_nil

/-! ### Members -/

theorem yields_parameter : Yields ParameterDecl.IsNamed parameter := by
  have hwords : Reads (takeKinds isParameterWord) :=
    reads_takeKinds fun k hk => by cases k <;> simp_all [isParameterWord, TokenKind.isBracket]
  refine .after reads_skipAttributes fun _ => .after .here fun start => .after hwords fun words => ?_
  refine yields_typeExpr.bind fun type htype => yields_expectIdentifier.bind fun name hname => ?_
  refine .after (reads_eat rfl) fun hasDefault => ?_
  have hend : Yields ParameterDecl.IsNamed (here >>= fun stop => Pure.pure (⟨.ofKinds words,
      words.contains .thisWord, type, name, hasDefault, start.spanSince stop⟩ : ParameterDecl)) :=
    .after .here fun _ => .pure ⟨htype, hname⟩
  exact .ite (.after (reads_skipUntil _) fun _ => hend) hend

/-- The parentheses are no neutral tokens by themselves. -/
theorem yields_parameters : Yields (fun ps => ∀ p ∈ ps, ParameterDecl.IsNamed p) parameters := by
  refine .after .here fun start => (yields_eat _).bind fun b _ => .ite ?_ (.complain _)
  refine (yields_eat _).bind fun b _ => .ite ?_ ?_
  · exact .pure fun p hp => absurd hp List.not_mem_nil
  · refine (yields_commaSeparated yields_parameter).bind fun ps hps => ?_
    exact (yields_expect _).bind fun _ _ => .pure hps

theorem yields_method (start : Cursor) (modifiers : Modifiers) {returns : TypeExpr}
    (hreturns : returns.IsNamed) :
    Yields MethodDecl.IsNamed (method start modifiers returns) :=
  yields_expectIdentifier.bind fun _ hname => yields_typeParameters.bind fun _ htypes =>
    yields_parameters.bind fun _ hparameters => .after (reads_skipConstraints _) fun _ =>
      .after reads_body fun _ => .after .here fun _ =>
        .pure ⟨hreturns, hname, htypes, hparameters⟩

theorem yields_property (start : Cursor) (modifiers : Modifiers) {type : TypeExpr}
    (htype : type.IsNamed) : Yields PropertyDecl.IsNamed (property start modifiers type) := by
  refine yields_expectIdentifier.bind fun name hname => .after .here fun accessors => ?_
  have hend : Yields PropertyDecl.IsNamed (here >>= fun stop =>
      Pure.pure (⟨modifiers, type, name, start.spanSince stop⟩ : PropertyDecl)) :=
    .after .here fun _ => .pure ⟨htype, hname⟩
  refine .ite (.after reads_skipGroup fun _ => .after (reads_eat rfl) fun b => ?_)
    (.after reads_body fun _ => hend)
  exact .ite (.after (reads_skipUntil _) fun _ => .after (reads_eat rfl) fun _ => hend) hend

theorem yields_declarator : Yields (fun i => IsName i.name) declarator := by
  refine yields_expectIdentifier.bind fun name hname => .after (reads_eat rfl) fun b => ?_
  exact .ite (.after (reads_skipUntil _) fun _ => .pure hname) (.pure hname)

theorem yields_field (start : Cursor) (modifiers : Modifiers) {type : TypeExpr}
    (htype : type.IsNamed) : Yields FieldDecl.IsNamed (field start modifiers type) :=
  (yields_commaSeparated yields_declarator).bind fun _ hnames =>
    .after (reads_expect rfl) fun _ => .after .here fun _ => .pure ⟨htype, hnames⟩

theorem isNamed_of_member? {start : Cursor} {modifiers : Modifiers} {item : Item} (hc : c.IsNamed)
    (h : member? start modifiers c = .done (some item) d) : item.IsNamed := by
  cases hd : typeExpr c with
  | failed e d' => simp [member?_of_failed start modifiers hd] at h
  | done type named =>
    obtain ⟨htype, hnamed⟩ := yields_typeExpr c type named hc hd
    rw [member?_of_type start modifiers hd] at h
    split at h
    · split at h
      next sort _ =>
        cases sort with
        | method =>
          obtain ⟨m, hm, hi⟩ := map_eq_done.mp h
          obtain rfl := Option.some.inj hi
          exact (yields_method start modifiers htype named m d hnamed hm).1
        | property =>
          obtain ⟨p, hp, hi⟩ := map_eq_done.mp h
          obtain rfl := Option.some.inj hi
          exact (yields_property start modifiers htype named p d hnamed hp).1
        | field =>
          obtain ⟨f, hf, hi⟩ := map_eq_done.mp h
          obtain rfl := Option.some.inj hi
          exact (yields_field start modifiers htype named f d hnamed hf).1
      · simp at h
    · simp at h

/-! ### Type declarations and usings -/

theorem yields_typeWord : Yields (fun _ => True) typeWord := by
  intro c kind d hc hdone
  have htail {e : Cursor} (he : e.IsNamed) : e.tail.IsNamed := fun t ht =>
    he t (List.mem_of_mem_tail ht)
  refine ⟨trivial, ?_⟩
  unfold typeWord at hdone
  split at hdone
  · cases hdone
    exact htail hc
  · cases hdone
    exact htail hc
  · cases hdone
    exact htail hc
  · cases hdone
    exact htail hc
  · simp only at hdone
    split at hdone
    · cases hdone
      exact htail (htail hc)
    · cases hdone
      exact htail hc

theorem yields_baseTypes : Yields (fun bs => ∀ b ∈ bs, TypeExpr.IsNamed b) baseTypes := by
  refine .after (reads_eat rfl) fun b => .ite (yields_commaSeparated ?_) ?_
  · exact yields_typeExpr.bind fun _ htype => .after reads_skipArguments fun _ => .pure htype
  · exact .pure fun i hi => absurd hi List.not_mem_nil

theorem yields_typeDecl (start : Cursor) (modifiers : Modifiers) :
    Yields TypeDecl.IsNamed (typeDecl start modifiers) := by
  refine yields_typeWord.bind fun kind _ => yields_expectIdentifier.bind fun name hname => ?_
  refine yields_typeParameters.bind fun types htypes => .after reads_skipArguments fun _ => ?_
  refine yields_baseTypes.bind fun bases hbases => .after (reads_skipConstraints _) fun _ => ?_
  refine .after .here fun inside => ?_
  have hend : Yields TypeDecl.IsNamed (here >>= fun stop => Pure.pure (⟨modifiers, kind, name, types,
      bases, start.spanSince stop⟩ : TypeDecl)) :=
    .after .here fun _ => .pure ⟨hname, htypes, hbases⟩
  exact .ite (.after reads_skipGroup fun _ => .after (reads_eat rfl) fun _ => hend)
    (.after (reads_expect rfl) fun _ => hend)

theorem yields_aliasName? : Yields (fun alias? => ∀ a ∈ alias?, IsName a.name) aliasName? := by
  intro c alias? d hc hdone
  unfold aliasName? at hdone
  split at hdone
  next t eq r hr =>
    split at hdone
    next hk =>
      cases hdone
      refine ⟨fun a ha => ?_, hc.behind (w := [t, eq]) hr⟩
      obtain rfl := Option.mem_some.mp ha
      exact hc.head hr hk.1
    · cases hdone
      exact ⟨fun a ha => (Option.not_mem_none a ha).elim, hc⟩
  · cases hdone
    exact ⟨fun a ha => (Option.not_mem_none a ha).elim, hc⟩

theorem yields_usingDirective : Yields UsingDirective.IsNamed usingDirective := by
  refine .after .here fun start => .after (reads_expect rfl) fun _ => ?_
  refine .after (reads_eat rfl) fun isStatic => yields_aliasName?.bind fun alias? halias => ?_
  refine yields_typeExpr.bind fun target htarget => .after (reads_expect rfl) fun _ => ?_
  refine .after .here fun stop => .pure ⟨?_, halias⟩
  obtain ⟨hpath, -⟩ := htarget
  exact hpath

end Parse

/-! ### Turns -/

theorem isNamed_of_declaration {item : Item} (hc : c.IsNamed)
    (h : (declaration t c).item? = some item) : item.IsNamed := by
  have hstatement {item : Item} (h : (statement c).item? = some item) : item.IsNamed := by
    obtain rfl := Option.some.inj h
    trivial
  unfold declaration at h
  split at h
  · simp [Turn.recover] at h
  next u start hstart =>
  obtain ⟨w1, hw1, -⟩ := reads_skipAttributes.done hstart
  split at h
  · simp [Turn.recover] at h
  next modifiers d hd =>
  obtain ⟨w2, hw2, -⟩ := reads_modifiers.done hd
  have hnamed : d.IsNamed := (hc.behind hw1).behind hw2
  split at h
  · obtain ⟨e, he⟩ := done_of_ofReply h
    obtain ⟨decl, hdecl, rfl⟩ := map_eq_done.mp he
    exact (yields_typeDecl start modifiers d decl e hnamed hdecl).1
  split at h
  · simp [Turn.recover] at h
  next item' d' hm =>
    obtain rfl := Option.some.inj h
    exact isNamed_of_member? hnamed hm
  · split at h
    · exact hstatement h
    · simp [Turn.recover] at h

/-- **The names in the item of a turn are names.** -/
theorem isNamed_of_turn {declared : Bool} {item : Item} (hc : c.IsNamed) (hr : c.rest = t :: r)
    (h : (turn declared c).item? = some item) : item.IsNamed := by
  have hstatement {item : Item} (h : (statement c).item? = some item) : item.IsNamed := by
    obtain rfl := Option.some.inj h
    trivial
  unfold turn at h
  rw [hr] at h
  simp only at h
  split at h
  · cases h
  next hk =>
    have href := isReference_of_directive hr hk h
    cases item with
    | reference d => trivial
    | _ => cases href
  · split at h
    · obtain ⟨e, he⟩ := done_of_ofReply h
      obtain ⟨u, hu, rfl⟩ := map_eq_done.mp he
      exact (yields_usingDirective c u e hc hu).1
    · exact hstatement h
  · split at h
    · exact isNamed_of_declaration hc h
    · exact hstatement h

/-- The names in the items of a run are names, by induction on its turns. -/
theorem Turns.isNamed {declared after : Bool} {items : List Item} {errors : List ParseError}
    (h : Turns declared c after d items errors) (hc : c.IsNamed) : ∀ item ∈ items, item.IsNamed := by
  induction h with
  | stay declared c => exact fun item hi => absurd hi List.not_mem_nil
  | @turn declared after c d t r items errors hr more ih =>
    obtain ⟨w, -, hw, -⟩ := turn_before declared hr
    intro item hi
    rcases List.mem_append.mp hi with hi | hi
    · exact isNamed_of_turn hc hr (Option.mem_toList.mp hi)
    · exact ih (hc.behind hw) item hi

/-- **The names in the items of a script are names.** -/
theorem Script.isNamed_of_mem {source : String} {item : Item}
    (h : item ∈ (parseLenient source).1.items) : item.IsNamed := by
  obtain ⟨after, d, -, hrun⟩ := Cursor.items_eq_iff.mp
    (show (Cursor.ofLexed (lex source)).items = (_, _) from rfl)
  exact hrun.isNamed (fun t ht => names_of_mem_lex ht) item h

end ScriptHost
