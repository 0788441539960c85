/-
# Fields with a new value of their own type

`T x = new T();` is read as the field it is if no argument list in `T` has two types or more. The
comma of the first list that has is taken for the end of the initial value: the names behind it pass
for names of the field, and the token behind those is reported where a `;` was expected.

Key definitions: `TypeExpr.Every`, `TypeExpr.IsSuffixFree`, `TypeExpr.IsUnary`, `CutTokens`,
`ownField`, `OwnFieldTokens`.
Key theorems: `TypeTokens.kinds`, `TypeTokens.cut`, `lexes_ownField`, `Script.parse_ownField`.
-/
import ScriptHost.Proofs.Grammar.Fields
import ScriptHost.Proofs.Grammar.Printed
import ScriptHost.Proofs.Reading.Turns

namespace ScriptHost

open Parse Source

/-! ### Shapes of types -/

namespace TypeExpr

/-- At any depth, the number of arguments and the suffixes are as `p` says. -/
inductive Every (p : Nat → List TypeSuffix → Prop) : TypeExpr → Prop
  | mk {path : List Ident} {args : List TypeExpr} {suffixes : List TypeSuffix} {span : Span}
    (h : p args.length suffixes) (hargs : ∀ a ∈ args, Every p a) : Every p (.mk path args suffixes span)

/-- No suffix stands in the type. -/
def IsSuffixFree : TypeExpr → Prop := Every fun _ suffixes => suffixes = []

/-- No argument list in the type has two types or more. -/
def IsUnary : TypeExpr → Prop := Every fun n _ => n ≤ 1

variable {p q : Nat → List TypeSuffix → Prop} {type type' : TypeExpr}

theorem Every.and (h : type.Every p) (h' : type.Every q) :
    type.Every fun n suffixes => p n suffixes ∧ q n suffixes := by
  induction h with
  | mk hp _ ih =>
    obtain ⟨hq, hargs⟩ := h'
    exact .mk ⟨hp, hq⟩ fun a ha => ih a ha (hargs a ha)

theorem Every.imp (h : type.Every p) (hpq : ∀ n suffixes, p n suffixes → q n suffixes) :
    type.Every q := by
  induction h with
  | mk hp _ ih => exact .mk (hpq _ _ hp) ih

/-- What holds of every shape holds at any depth. -/
theorem every_of_forall (hp : ∀ n suffixes, p n suffixes) (type : TypeExpr) : type.Every p := by
  cases type with
  | mk path args suffixes span => exact .mk (hp _ _) fun a _ => every_of_forall hp a

/-- The shape does not depend on places. -/
theorem Every.of_bare (h : type.Every p) (hb : type'.bare = type.bare) : type'.Every p := by
  induction h generalizing type' with
  | @mk path args suffixes span hp _ ih =>
    obtain ⟨path', args', suffixes', span'⟩ := type'
    simp only [bare, bareAll_eq_map, mk.injEq] at hb
    obtain ⟨-, hargs, rfl, -⟩ := hb
    have hlength : args'.length = args.length := by
      rw [← List.length_map bare, hargs, List.length_map]
    refine .mk (hlength ▸ hp) fun a' ha' => ?_
    obtain ⟨a, ha, hab⟩ := List.mem_map.mp (hargs ▸ List.mem_map_of_mem ha')
    exact ih a ha hab.symm

end TypeExpr

/-! ### The tokens of a type -/

variable {w v : List Token} {t : Token} {type : TypeExpr} {Q : TokenKind → Prop}

theorem QualifierTokens.kinds (h : QualifierTokens w) (hword : Q .identifier) (hcolons : Q .operator) :
    ∀ t ∈ w, Q t.kind := by
  cases h with
  | none => simp
  | some hw hk _ => simp [Token.kind_of_isWord hw, hk, hword, hcolons]

theorem SegmentTokens.kinds {path : List Ident} (h : SegmentTokens w path) (hpoint : Q .dot)
    (hname : Q .identifier) : ∀ t ∈ w, Q t.kind := by
  induction h with
  | nil => simp
  | cons hp hn _ ih => simpa [hp, hn, hpoint, hname] using ih

theorem SuffixTokens.kinds {suffixes : List TypeSuffix} (h : SuffixTokens w suffixes)
    (hQ : ∀ kind ∈ [.question, .opening .bracket, .comma, .closing .bracket], Q kind) :
    ∀ t ∈ w, Q t.kind := by
  induction h with
  | nil => simp
  | nullable ht _ ih => exact List.forall_mem_cons.mpr ⟨hQ _ (by simp [ht]), ih⟩
  | array ho hcommas hc _ ih =>
    simp only [List.forall_mem_cons, List.forall_mem_append]
    exact ⟨hQ _ (by simp [ho]), fun t ht => hQ _ (by simp [hcommas t ht]), hQ _ (by simp [hc]), ih⟩

theorem Separated.kinds {as : List TypeExpr} (h : Separated TypeTokens w as)
    (hcomma : as.length ≤ 1 ∨ Q .comma)
    (hitem : ∀ a ∈ as, ∀ v, TypeTokens v a → ∀ t ∈ v, Q t.kind) : ∀ t ∈ w, Q t.kind := by
  induction h with
  | last h => exact hitem _ List.mem_cons_self _ h
  | @cons v w comma a as h hc more ih =>
    have hone : ¬ (a :: as).length ≤ 1 := by cases more <;> simp
    have hq := hcomma.resolve_left hone
    obtain ⟨hfirst, hmore⟩ := List.forall_mem_cons.mp hitem
    exact List.forall_mem_append.mpr
      ⟨hfirst _ h, List.forall_mem_cons.mpr ⟨hc ▸ hq, ih (.inr hq) hmore⟩⟩

/-- The kinds of token in a type; a comma stands only between arguments and in the rank of an
array, and marks only in suffixes. -/
theorem TypeTokens.kinds (htype : type.Every fun n suffixes => (suffixes = [] ∨
      ∀ kind ∈ [.question, .opening .bracket, .comma, .closing .bracket], Q kind) ∧ (n ≤ 1 ∨ Q .comma))
    (hQ : ∀ kind ∈ [.identifier, .operator, .dot, .less, .greater], Q kind) (h : TypeTokens w type) :
    ∀ t ∈ w, Q t.kind := by
  induction htype generalizing w with
  | mk hp _ ih =>
    obtain ⟨hmarks, hcomma⟩ := hp
    obtain @⟨qualifier, segments, arguments, suffixes, name, _, _, _, _, hqualifier, hname, hsegments,
      harguments, hsuffixes, -⟩ := h
    have hbehind : ∀ t ∈ arguments, Q t.kind := by
      cases harguments with
      | none => simp
      | some ho hlist hc =>
        have hinside := hlist.kinds hcomma fun a ha v hv => ih a ha hv
        simpa [ho, hc, hQ, or_imp, forall_and] using hinside
    have hlast : ∀ t ∈ suffixes, Q t.kind := by
      rcases hmarks with rfl | hmarks
      · cases hsuffixes
        simp
      · exact hsuffixes.kinds hmarks
    simp only [List.forall_mem_append, List.forall_mem_cons, hname]
    exact ⟨hqualifier.kinds (hQ _ (by simp)) (hQ _ (by simp)), hQ _ (by simp),
      hsegments.kinds (hQ _ (by simp)) (hQ _ (by simp)), hbehind, hlast⟩

theorem TypeTokens.all_kinds (hQ : ∀ kind ∈ [.identifier, .operator, .dot, .less, .greater, .question,
      .opening .bracket, .comma, .closing .bracket], Q kind) (h : TypeTokens w type) :
    ∀ t ∈ w, Q t.kind := by
  simp only [List.forall_mem_cons] at hQ
  obtain ⟨hname, hcolons, hdot, hless, hgreater, hquestion, hopening, hcomma, hclosing, -⟩ := hQ
  exact h.kinds (TypeExpr.every_of_forall (fun _ _ => ⟨.inr (by simp [*]), .inr hcomma⟩) type)
    (by simp [*])

/-- A type begins with a name, and its second token, if there is one, is none. -/
theorem TypeTokens.second (h : TypeTokens w type) :
    ∃ name r, w = name :: r ∧ name.kind = .identifier ∧
      (r = [] ∨ Starts [.operator, .dot, .less, .question, .opening .bracket] r) := by
  obtain @⟨qualifier, segments, arguments, suffixes, name, _, _, _, _, hqualifier, hname, hsegments,
    harguments, hsuffixes, -⟩ := h
  cases hqualifier with
  | some hw hk _ =>
    exact ⟨_, _, rfl, Token.kind_of_isWord hw, .inr (.cons (by simp [hk]) _)⟩
  | none =>
    refine ⟨name, _, rfl, hname, ?_⟩
    have hall := Starts.optionals hsegments.starts (Starts.optionals harguments.starts hsuffixes.starts)
    exact hall.imp_right fun h => h.mono (by simp)

/-! ### Where a comma cuts a type -/

/-- A first comma, names behind it, and a token that is no comma. -/
inductive CutTokens : List Token → Prop
  | mk {u list r : List Token} {comma t : Token} {names : List Ident} (hu : ∀ t ∈ u, t.kind ≠ .comma)
    (hc : comma.kind = .comma) (hnames : Separated NameTokens list names) (ht : t.kind ≠ .comma) :
    CutTokens (u ++ comma :: list ++ t :: r)

theorem CutTokens.append (h : CutTokens w) (v : List Token) : CutTokens (w ++ v) := by
  obtain @⟨u, list, r, comma, t, names, hu, hc, hnames, ht⟩ := h
  have hall := CutTokens.mk (r := r ++ v) hu hc hnames ht
  simpa using hall

theorem CutTokens.behind (h : CutTokens w) (hv : ∀ t ∈ v, t.kind ≠ .comma) : CutTokens (v ++ w) := by
  obtain @⟨u, list, r, comma, t, names, hu, hc, hnames, ht⟩ := h
  have hall := CutTokens.mk (r := r) (List.forall_mem_append.mpr ⟨hv, hu⟩) hc hnames ht
  simpa using hall

/-- Types with commas between them begin with names and a token that is no comma, whatever other
token is behind them; by induction on the list. -/
theorem names_of_separated {as : List TypeExpr} (h : Separated TypeTokens w as) (ht : t.kind ≠ .comma) :
    ∃ list names u r, w ++ [t] = list ++ u :: r ∧ Separated NameTokens list names ∧ u.kind ≠ .comma := by
  have hcomma {r : List Token} {u : Token}
      (h : u :: r = [] ∨ Starts [.operator, .dot, .less, .question, .opening .bracket] (u :: r)) :
      ∀ v ∈ (u :: r).head?, v.kind ≠ .comma :=
    (h.resolve_left (List.cons_ne_nil u r)).kind_ne (by decide)
  induction h with
  | last h =>
    obtain ⟨name, r, rfl, hname, hnext⟩ := h.second
    cases r with
    | nil => exact ⟨[name], _, t, [], rfl, .last (.mk hname), ht⟩
    | cons u r => exact ⟨[name], _, u, r ++ [t], rfl, .last (.mk hname), hcomma hnext u rfl⟩
  | @cons v w comma a as h hc _ ih =>
    obtain ⟨name, r, rfl, hname, hnext⟩ := h.second
    cases r with
    | nil =>
      obtain ⟨list, names, u, r, hall, hnames, hu⟩ := ih
      exact ⟨name :: comma :: list, _, u, r, by simp [hall], .cons (.mk hname) hc hnames, hu⟩
    | cons u r => exact ⟨[name], _, u, _, rfl, .last (.mk hname), hcomma hnext u rfl⟩

/-- **The first list with two types or more has the first comma**, and it cuts the type; by
induction on the type. -/
theorem TypeTokens.cut (hfree : type.IsSuffixFree) (hwide : ¬ type.IsUnary) (h : TypeTokens w type) :
    CutTokens w := by
  induction hfree generalizing w with
  | @mk path args suffixes span hnil hargs ih =>
    subst hnil
    have hplain {a : TypeExpr} {v : List Token} (ha : a ∈ args) (hone : a.IsUnary)
        (hv : TypeTokens v a) : ∀ t ∈ v, t.kind ≠ .comma := by
      have hshape := (hargs a ha).and hone
      exact hv.kinds (Q := (· ≠ .comma)) (hshape.imp fun _ _ h => ⟨.inl h.1, .inl h.2⟩) (by decide)
    obtain @⟨qualifier, segments, arguments, _, name, _, _, _, _, hqualifier, hname, hsegments,
      harguments, hsuffixes, -⟩ := h
    cases hsuffixes
    have hfront : ∀ t ∈ qualifier ++ name :: segments, t.kind ≠ .comma := by
      simp only [List.forall_mem_append, List.forall_mem_cons, hname]
      exact ⟨hqualifier.kinds (Q := (· ≠ .comma)) (by decide) (by decide), by decide,
        hsegments.kinds (Q := (· ≠ .comma)) (by decide) (by decide)⟩
    cases harguments with
    | none => exact absurd (.mk (Nat.zero_le 1) (by simp)) hwide
    | @some opener closer list _ ho hlist hc =>
      have hclose : closer.kind ≠ .comma := by simp [hc]
      have hcut : CutTokens (list ++ [closer]) := by
        cases hlist with
        | @last _ a h =>
          by_cases hone : a.IsUnary
          · exact absurd (.mk (Nat.le_refl 1) (List.forall_mem_singleton.mpr hone)) hwide
          · exact (ih a (by simp) hone h).append [closer]
        | @cons v list comma a as h hcomma more =>
          by_cases hone : a.IsUnary
          · obtain ⟨names, is, u, r, hall, hnames, hu⟩ := names_of_separated more hclose
            have hcut := CutTokens.mk (r := r) (hplain (by simp) hone h) hcomma hnames hu
            simpa [hall] using hcut
          · rw [List.append_assoc]
            exact (ih a (by simp) hone h).append _
      have hopen : ∀ t ∈ qualifier ++ name :: segments ++ [opener], t.kind ≠ .comma :=
        List.forall_mem_append.mpr ⟨hfront, by simp [ho]⟩
      simpa using hcut.behind hopen

/-! ### The text of such a field -/

/-- A field with a new value of its own type. -/
def ownField (type : TypeExpr) (name : String) : String :=
  type.text ++ " " ++ name ++ " = new " ++ type.text ++ "();"

/-- The tokens of such a field, with the types that they make on either side. -/
inductive OwnFieldTokens (type : TypeExpr) (x : String) : List Token → Prop
  | mk {v w : List Token} {left right : TypeExpr} {name equal new opener closer semicolon : Token}
    (hleft : TypeTokens v left) (hl : left.bare = type.bare) (hname : name.kind = .identifier)
    (hx : name.lexeme = x) (he : equal.kind = .equal) (hnew : new.kind = .otherModifier)
    (hright : TypeTokens w right) (hr : right.bare = type.bare) (ho : opener.kind = .opening .paren)
    (hc : closer.kind = .closing .paren) (hs : semicolon.kind = .semicolon) :
    OwnFieldTokens type x (v ++ name :: equal :: new :: (w ++ [opener, closer, semicolon]))

variable {text x : String}

theorem OwnFieldTokens.ne_nil (h : OwnFieldTokens type x w) : w ≠ [] := by
  obtain ⟨⟩ := h
  exact List.append_ne_nil_of_right_ne_nil _ (List.cons_ne_nil _ _)

theorem lexes_ownField (htype : type.IsPlain) (hx : Spells text x) :
    Lexes (ownField type text).toList [] (OwnFieldTokens type x) := by
  have hspace (r : List Char) : ∀ c ∈ (' ' :: r).head?, isIdentContinue c = false ∧ pair? '=' c = none := by
    simp only [List.head?_cons, Option.mem_some, forall_eq']
    decide
  -- from the end of the text to its start, since what stands behind a part decides where it ends
  have hsemicolon := (Lexes.nil [] (P := (· = [])) rfl).cons_lone (c := ';') (by decide) rfl (by decide)
  have hcloser := hsemicolon.cons_lone (c := ')') (by decide) rfl (by decide)
  have hopener := hcloser.cons_lone (c := '(') (by decide) rfl (by decide)
  have hright := (htype.respells _ (endsText_cons (c := '(') (by decide) rfl _)).append hopener
  have hnew := (hright.cons_blank (c := ' ') (by decide) (by
    rw [List.append_assoc]
    exact htype.trivia_text _)).cons_word (by decide : IsWord "new") fun c hc => (hspace _ c hc).1
  have hequal := (hnew.cons_blank (c := ' ') (by decide) (by
    rw [List.append_assoc]
    exact (by decide : IsWord "new").trivia _)).cons_mark (c := '=') (by decide) rfl
      fun c hc => (hspace _ c hc).2
  have hname := (hequal.cons_blank (c := ' ') (by decide) (trivia_mark (by decide) _)).cons_identifier hx
    fun c hc => (hspace _ c hc).1
  have hblank := hname.cons_blank (c := ' ') (by decide) (by
    rw [List.append_assoc]
    exact hx.trivia _)
  have hall := (htype.respells _ (endsText_cons (c := ' ') (by decide) rfl _)).append hblank
  have htext : (ownField type text).toList = type.text.toList ++ ' ' :: (text.toList ++ ' ' :: '=' :: ' ' ::
      ("new".toList ++ ' ' :: (type.text.toList ++ ['(', ')', ';']))) := by
    simp [ownField]
  rw [htext]
  refine hall.imp ?_
  rintro _ ⟨v, _, rfl, ⟨left, hleft, hl⟩, name, _, rfl, hname, hx, equal, _, rfl, he, new, _, rfl, hnew, -,
    w, _, rfl, ⟨right, hright, hr⟩, opener, _, rfl, ho, closer, _, rfl, hc, semicolon, _, rfl, hs, rfl⟩
  exact .mk hleft hl hname hx he hnew hright hr ho hc hs

/-! ### The turn at such a field -/

variable {finish : Position}

/-- The kinds of token in a type without suffixes. -/
def suffixFreeKinds : List TokenKind := [.identifier, .operator, .dot, .less, .greater, .comma]

theorem TypeTokens.suffixFree (hfree : type.IsSuffixFree) (h : TypeTokens w type) :
    ∀ t ∈ w, t.kind ∈ suffixFreeKinds :=
  h.kinds (Q := (· ∈ suffixFreeKinds)) (hfree.imp fun _ _ h => ⟨.inl h, .inr (by decide)⟩) (by decide)

/-- A written type may start an item if its first name does; `global` does. -/
theorem TypeTokens.mayStart (h : TypeTokens w type)
    (hfirst : ∀ i ∈ type.path.head?, i.name ∉ statementWords) (r : List Token) :
    MayStart (w ++ r) := by
  obtain ⟨hqualifier, -, -, -, -, -⟩ := h
  cases hqualifier with
  | none =>
    intro t ht _
    obtain rfl := Option.some.inj ht
    exact hfirst _ rfl
  | @some word colons hw _ _ =>
    intro t ht _
    obtain rfl := Option.some.inj ht
    have hword : word.lexeme = "global" := by simpa using (Bool.and_eq_true_iff.mp hw).2
    rw [hword]
    decide

/-- Recovery passes over a type without suffixes. -/
theorem resume_suffixFree (hw : ∀ t ∈ w, t.kind ∈ suffixFreeKinds) (r : List Token) :
    resume 0 (w ++ r) = resume 0 r := by
  induction w with
  | nil => rfl
  | cons t w ih =>
    obtain ⟨ht, hw⟩ := List.forall_mem_cons.mp hw
    simp only [suffixFreeKinds, List.mem_cons, List.not_mem_nil, or_false] at ht
    rcases ht with ht | ht | ht | ht | ht | ht <;>
      simp [resume, ht, startsItem, TokenKind.isModifier, TokenKind.isTypeWord, ih hw]

theorem first_of_bare {left : TypeExpr} (h : left.bare = type.bare)
    (hfirst : ∀ i ∈ type.path.head?, i.name ∉ statementWords) :
    ∀ i ∈ left.path.head?, i.name ∉ statementWords := by
  have hpath : left.path.head?.map Ident.bare = type.path.head?.map Ident.bare := by
    rw [← List.head?_map, ← List.head?_map, ← TypeExpr.path_bare, ← TypeExpr.path_bare, h]
  intro i hi
  rw [Option.mem_def.mp hi] at hpath
  obtain ⟨j, hj, hij⟩ := Option.map_eq_some_iff.mp hpath.symm
  rw [← Ident.name_bare, ← hij]
  exact hfirst j hj

/-- The initial value of such a field is skipped as a whole if no comma stands in its type. -/
theorem turn_eq_ownField (declared : Bool) (h : OwnFieldTokens type x w) (hfree : type.IsSuffixFree)
    (hunary : type.IsUnary) (hfirst : ∀ i ∈ type.path.head?, i.name ∉ statementWords) :
    ∃ f, turn declared ⟨w, finish⟩ = ⟨some (.field f), none, ⟨[], finish⟩⟩ ∧
      f.bare = ⟨.none, type.bare, [⟨x, default⟩], default⟩ := by
  obtain @⟨v, w, left, right, name, equal, new, opener, closer, semicolon, hleft, hl, hname, hx, he,
    hnew, hright, hr, ho, hc, hs⟩ := h
  have hplain : ∀ t ∈ w, t.kind.isBracket = false ∧ endsValue t.kind = false := by
    have hshape := (hfree.and hunary).of_bare hr
    exact hright.kinds (Q := fun kind => kind.isBracket = false ∧ endsValue kind = false)
      (hshape.imp fun _ _ h => ⟨.inl h.1, .inl h.2⟩) (by decide)
  have hvalue : Clear endsValue (new :: (w ++ [opener, closer])) :=
    .plain (by simp [hnew, TokenKind.isBracket]) (by simp [hnew, endsValue])
      (.append_plain hplain (.group ho (by simp [ho, endsValue]) hc .nil .nil))
  have hspans := List.append_ne_nil_of_right_ne_nil v
    (List.cons_ne_nil name (equal :: new :: (w ++ [opener, closer]) ++ [semicolon]))
  obtain ⟨span, hspan⟩ := exists_spans hspans
  have hfield : FieldTokens ([] ++ (v ++ (name :: equal :: new :: (w ++ [opener, closer]) ++ [semicolon])))
      ⟨.none, left, [.ofToken name], span⟩ :=
    .mk .none hleft (.last (.value hname he hvalue)) hs hspan
  have hturn := @turn_eq_field ⟨_, finish⟩ [] _ [] _ declared rfl .nil hfield
    (hleft.mayStart (first_of_bare hl hfirst) _)
  refine ⟨_, Eq.trans ?_ hturn, ?_⟩
  · simp
  · simp [FieldDecl.bare, Ident.bare, Ident.ofToken, hl, hx]

/-- The initial value is cut at the first comma of its type, and nothing is read behind it. -/
theorem turn_eq_cutOwnField (declared : Bool) (h : OwnFieldTokens type x w) (hfree : type.IsSuffixFree)
    (hwide : ¬ type.IsUnary) (hfirst : ∀ i ∈ type.path.head?, i.name ∉ statementWords) :
    ∃ found span, turn declared ⟨w, finish⟩ =
      ⟨none, some ⟨.expectedToken .semicolon found, span⟩, ⟨[], finish⟩⟩ := by
  obtain @⟨v, w, left, right, name, equal, new, opener, closer, semicolon, hleft, hl, hname, hx, he,
    hnew, hright, hr, ho, hc, hs⟩ := h
  have hfree := hfree.of_bare hr
  have hkinds := hright.suffixFree hfree
  obtain @⟨u, list, r, comma, t, names, hu, hcomma, hnames, ht⟩ :=
    hright.cut hfree fun h => hwide (h.of_bare hr.symm)
  obtain ⟨hfront, hbehind⟩ := List.forall_mem_append.mp hkinds
  have hskipped : ∀ kind ∈ suffixFreeKinds, kind ≠ .comma →
      kind.isBracket = false ∧ endsValue kind = false := by decide
  have hnone : ∀ kind ∈ suffixFreeKinds, kind ≠ .comma → kind ∉ [.comma, .equal, .semicolon] := by
    decide
  have hvalue : Clear endsValue (new :: (u ++ [])) :=
    .plain (by simp [hnew, TokenKind.isBracket]) (by simp [hnew, endsValue])
      (.append_plain (fun t ht => hskipped _ (hfront t (List.mem_append_left _ ht)) (hu t ht)) .nil)
  have hstop := hnone _ (hbehind t List.mem_cons_self) ht
  have hend : resume 0 [opener, closer, semicolon] = [] := by simp [resume, ho, hc, hs]
  have hresume : resume 0 (t :: (r ++ [opener, closer, semicolon])) = [] :=
    (resume_suffixFree hbehind _).trans hend
  have hturn : turn declared ⟨[] ++ ([] ++ v) ++ (name :: equal :: (new :: (u ++ [])) ++ comma :: list ++
      t :: (r ++ [opener, closer, semicolon])), finish⟩ = _ :=
    turn_of_cutField declared .nil .none hleft
      (hleft.mayStart (first_of_bare hl hfirst) []).of_append hname he hvalue hcomma hnames hstop
  rw [hresume] at hturn
  refine ⟨_, _, Eq.trans ?_ hturn⟩
  simp

/-! ### Such a field as a script -/

namespace Script

/-- **A field with a new value of its own type** is the one item of its script if no argument list in
the type has two types or more, and otherwise the script has one problem: a `;` is missing where the
value is cut. The name may be written either way. -/
theorem parse_ownField (htype : type.IsPlain) (hfree : type.IsSuffixFree)
    (hfirst : ∀ i ∈ type.path.head?, i.name ∉ statementWords) (hx : Spells text x) :
    (type.IsUnary → ∃ script, parse (ownField type text) = .ok script ∧
      script.items.map Item.bare = [.field ⟨.none, type.bare, [⟨x, default⟩], default⟩]) ∧
    (¬ type.IsUnary → ∃ found span, parse (ownField type text) =
      .error [⟨.expectedToken .semicolon found, span⟩]) := by
  obtain ⟨hlex, htokens⟩ := (lexes_ownField htype hx).lex
  constructor
  · intro hunary
    obtain ⟨f, hturn, hbare⟩ := turn_eq_ownField false htokens hfree hunary hfirst
    have hitems := Cursor.items_of_turn (c := .ofLexed (lex (ownField type text))) htokens.ne_nil hturn rfl
    obtain ⟨script, hscript, hall⟩ := parse_eq_ok_iff.mpr ⟨hlex, hitems⟩
    exact ⟨script, hscript, by simp [hall, Item.bare, hbare]⟩
  · intro hwide
    obtain ⟨found, span, hturn⟩ := turn_eq_cutOwnField false htokens hfree hwide hfirst
    have hitems := Cursor.items_of_turn (c := .ofLexed (lex (ownField type text))) htokens.ne_nil hturn rfl
    exact ⟨found, span, parse_eq_error hlex (by rw [hitems]; rfl)⟩

end Script

/-- A type that is written with one name. -/
def TypeExpr.named (name : String) (args : List TypeExpr) : TypeExpr :=
  .mk [⟨name, default⟩] args [] default

theorem TypeExpr.IsPlain.named {name : String} {args : List TypeExpr} (h : IsPlainWord name)
    (hargs : ∀ a ∈ args, a.IsPlain) : (TypeExpr.named name args).IsPlain :=
  .mk (List.cons_ne_nil _ _) (List.forall_mem_singleton.mpr h) hargs .nil

/-- A list of lists. -/
def sampleLists : TypeExpr := .named "List" [.named "List" [.named "Order" []]]

/-- A type with two arguments. -/
def sampleDictionary : TypeExpr := .named "Dictionary" [.named "string" [], .named "int" []]

theorem sampleDictionary_isPlain : sampleDictionary.IsPlain := by
  refine .named (by decide) ?_
  simp only [List.forall_mem_cons, List.not_mem_nil, IsEmpty.forall_iff, implies_true, and_true]
  exact ⟨.named (by decide) (by simp), .named (by decide) (by simp)⟩

theorem sampleDictionary_isSuffixFree : sampleDictionary.IsSuffixFree := by
  refine .mk rfl ?_
  simp only [List.forall_mem_cons, List.not_mem_nil, IsEmpty.forall_iff, implies_true, and_true]
  exact ⟨.mk rfl (by simp), .mk rfl (by simp)⟩

namespace Script

theorem sampleFields_parsed :
    (∃ script, parse "List<List<Order>> @class = new List<List<Order>>();" = .ok script ∧
      script.items.map Item.bare = [.field ⟨.none, sampleLists.bare, [⟨"class", default⟩], default⟩]) ∧
    ∃ found span, parse "Dictionary<string, int> x = new Dictionary<string, int>();" =
      .error [⟨.expectedToken .semicolon found, span⟩] := by
  have horder : (TypeExpr.named "Order" []).IsPlain := .named (by decide) (by simp)
  have hinner : (TypeExpr.named "List" [.named "Order" []]).IsPlain :=
    .named (by decide) (List.forall_mem_singleton.mpr horder)
  have hlists : sampleLists.IsPlain := .named (by decide) (List.forall_mem_singleton.mpr hinner)
  have hevery {p : Nat → List TypeSuffix → Prop} (hnone : p 0 []) (hone : p 1 []) : sampleLists.Every p := by
    have hlast : (TypeExpr.named "Order" []).Every p := .mk hnone (by simp)
    have hmore : (TypeExpr.named "List" [.named "Order" []]).Every p :=
      .mk hone (List.forall_mem_singleton.mpr hlast)
    exact .mk hone (List.forall_mem_singleton.mpr hmore)
  have hwide : ¬ sampleDictionary.IsUnary := by
    rintro ⟨h, -⟩
    exact absurd h (by decide)
  have hclass : Spells ("@" ++ "class") "class" := .verbatim (by decide)
  have hread := (parse_ownField hlists (hevery rfl rfl) (by decide) hclass).1
    (hevery (by decide) (by decide))
  have hcut := (parse_ownField sampleDictionary_isPlain sampleDictionary_isSuffixFree (by decide)
    (.plain (by decide : IsPlainWord "x"))).2 hwide
  have hlistsText : ownField sampleLists ("@" ++ "class") =
      "List<List<Order>> @class = new List<List<Order>>();" := by decide +kernel
  have hdictionaryText : ownField sampleDictionary "x" =
      "Dictionary<string, int> x = new Dictionary<string, int>();" := by decide +kernel
  rw [hlistsText] at hread
  rw [hdictionaryText] at hcut
  exact ⟨hread, hcut⟩

/-- A dictionary is as it was asked for, and its field is not read. -/
theorem dictionary_rejected : sampleDictionary.IsPlain ∧ sampleDictionary.IsSuffixFree ∧
    (∀ i ∈ sampleDictionary.path.head?, i.name ∉ statementWords) ∧ Spells "x" "x" ∧
    ¬ ∃ script, parse (ownField sampleDictionary "x") = .ok script := by
  refine ⟨sampleDictionary_isPlain, sampleDictionary_isSuffixFree, by decide, .plain (by decide), ?_⟩
  have hfailed : (match parse (ownField sampleDictionary "x") with
      | .ok _ => false
      | .error _ => true) = true := by
    decide +kernel
  rintro ⟨script, hscript⟩
  rw [hscript] at hfailed
  cases hfailed

end Script

end ScriptHost
