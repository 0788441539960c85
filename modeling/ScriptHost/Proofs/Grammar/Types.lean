/-
# The grammar of written types

A written type is `('global' '::')? NAME ('.' NAME)* ('<' TYPE (',' TYPE)* '>')? ('?' | '[' ','* ']')*`.
The grammar is stated over tokens, with the tree that they make, and the reader of types is exact
for it: what it takes is a type with the tree that it gives, and every type is taken as a whole, in
front of any token that cannot go on with it.

Key definitions: `TypeTokens`, `EndsType`, `TypeParameterTokens`.
Key theorems: `Parse.derives_typeExpr`, `Parse.accepts_typeExpr`, `typeExpr_exact`,
`Parse.accepts_typeParameters`.
-/
import ScriptHost.Proofs.Grammar.Acceptance

namespace ScriptHost

open Parse Source

/-! ### The grammar -/

/-- `global ::`, or nothing. -/
inductive QualifierTokens : List Token → Prop
  | none : QualifierTokens []
  | some {word colons : Token} (hw : word.isWord "global") (hk : colons.kind = .operator)
    (hl : colons.lexeme = "::") : QualifierTokens [word, colons]

/-- The segments of a dotted name behind the first one. -/
inductive SegmentTokens : List Token → List Ident → Prop
  | nil : SegmentTokens [] []
  | cons {point name : Token} {w : List Token} {path : List Ident} (hp : point.kind = .dot)
    (hn : name.kind = .identifier) (more : SegmentTokens w path) :
    SegmentTokens (point :: name :: w) (.ofToken name :: path)

/-- Suffixes; the commas of a rank leave no trace. -/
inductive SuffixTokens : List Token → List TypeSuffix → Prop
  | nil : SuffixTokens [] []
  | nullable {t : Token} {w : List Token} {suffixes : List TypeSuffix} (ht : t.kind = .question)
    (more : SuffixTokens w suffixes) : SuffixTokens (t :: w) (.nullable :: suffixes)
  | array {opener closer : Token} {commas w : List Token} {suffixes : List TypeSuffix}
    (ho : opener.kind = .opening .bracket) (hcommas : ∀ t ∈ commas, t.kind = .comma)
    (hc : closer.kind = .closing .bracket) (more : SuffixTokens w suffixes) :
    SuffixTokens (opener :: (commas ++ closer :: w)) (.array :: suffixes)

/-- The tokens are a written type with the tree. -/
inductive TypeTokens : List Token → TypeExpr → Prop
  | mk {qualifier segments arguments suffixes : List Token} {name : Token} {path : List Ident}
    {args : List TypeExpr} {marks : List TypeSuffix} {span : Span}
    (hqualifier : QualifierTokens qualifier) (hname : name.kind = .identifier)
    (hsegments : SegmentTokens segments path) (harguments : Angled TypeTokens arguments args)
    (hsuffixes : SuffixTokens suffixes marks)
    (hspan : span.Spans (qualifier ++ name :: (segments ++ (arguments ++ suffixes)))) :
    TypeTokens (qualifier ++ name :: (segments ++ (arguments ++ suffixes)))
      (.mk (.ofToken name :: path) args marks span)

/-- The tokens `more` do not go on with the type `w`. -/
structure EndsType (w more : List Token) : Prop where
  dot : ∀ t ∈ more.head?, t.kind ≠ .dot
  less : ∀ t ∈ more.head?, t.kind ≠ .less
  question : ∀ t ∈ more.head?, t.kind ≠ .question
  bracket : ∀ t ∈ more.head?, t.kind ≠ .opening .bracket
  /-- Behind a lone `global` there is no `::`. -/
  colons : ∀ word, w = [word] → word.lexeme = "global" →
    ∀ t ∈ more.head?, ¬ (t.kind = .operator ∧ t.lexeme = "::")

/-- A token of a kind that ends every type follows. -/
theorem EndsType.of_starts {kinds : List TokenKind} {w more : List Token} (h : Starts kinds more)
    (hk : ∀ kind ∈ [.dot, .less, .question, .opening .bracket, .operator], kind ∉ kinds) :
    EndsType w more where
  dot := h.kind_ne (hk _ (by simp))
  less := h.kind_ne (hk _ (by simp))
  question := h.kind_ne (hk _ (by simp))
  bracket := h.kind_ne (hk _ (by simp))
  colons _ _ _ t ht hop := h.kind_ne (hk _ (by simp)) t ht hop.1

variable {c d : Cursor} {w more r : List Token} {t : Token} {finish : Position} {α : Type}
  {P : List Token → α → Prop}

theorem SegmentTokens.starts {path : List Ident} (h : SegmentTokens w path) :
    w = [] ∨ Starts [.dot] w := by
  cases h with
  | nil => exact .inl rfl
  | cons hp _ _ => exact .inr (.of_kind hp _)

theorem SuffixTokens.starts {suffixes : List TypeSuffix} (h : SuffixTokens w suffixes) :
    w = [] ∨ Starts [.question, .opening .bracket] w := by
  cases h with
  | nil => exact .inl rfl
  | nullable ht _ => exact .inr (.cons (by rw [ht]; simp) _)
  | array ho _ _ _ => exact .inr (.cons (by rw [ho]; simp) _)

/-- A type begins with a name. -/
theorem TypeTokens.starts {type : TypeExpr} (h : TypeTokens w type) : Starts [.identifier] w := by
  obtain ⟨hqualifier, hname, -, -, -, -⟩ := h
  cases hqualifier with
  | none => exact .of_kind hname _
  | some hw _ _ => exact .of_kind (Token.kind_of_isWord hw) _

namespace Parse

/-! ### What is read is written so -/

/-- What the reader takes is written so, with what it gives. -/
def Derives (P : List Token → α → Prop) (p : Parse α) : Prop :=
  ∀ c a d, p c = .done a d → ∃ w, c.rest = w ++ d.rest ∧ d.finish = c.finish ∧ P w a

theorem segments_moreSegments : ∀ r : List Token,
    ∃ w, r = w ++ (moreSegments r).2 ∧ SegmentTokens w (moreSegments r).1
  | [] => ⟨[], rfl, .nil⟩
  | [t] => ⟨[], rfl, .nil⟩
  | point :: t :: r => by
    unfold moreSegments
    split
    · next h =>
      obtain ⟨w, hw, hsegments⟩ := segments_moreSegments r
      refine ⟨point :: t :: w, ?_, .cons h.1 h.2 hsegments⟩
      simp only [List.cons_append, ← hw]
    · exact ⟨[], rfl, .nil⟩

theorem commas_closeRank? : ∀ {r rest : List Token}, closeRank? r = some rest →
    ∃ commas closer, r = commas ++ closer :: rest ∧ (∀ t ∈ commas, t.kind = .comma) ∧
      closer.kind = .closing .bracket
  | t :: r, rest, h => by
    unfold closeRank? at h
    split at h
    · next hk =>
      obtain ⟨commas, closer, rfl, hcommas, hc⟩ := commas_closeRank? h
      exact ⟨t :: commas, closer, rfl, List.forall_mem_cons.mpr ⟨hk, hcommas⟩, hc⟩
    · split at h
      · next hk =>
        obtain rfl := Option.some.inj h
        exact ⟨[], t, rfl, by simp, hk⟩
      · cases h

theorem suffixes_typeSuffixesWithin : ∀ (n : Nat) (r : List Token),
    ∃ w, r = w ++ (typeSuffixesWithin n r).2 ∧ SuffixTokens w (typeSuffixesWithin n r).1
  | 0, r => ⟨[], rfl, .nil⟩
  | _ + 1, [] => ⟨[], rfl, .nil⟩
  | n + 1, t :: r => by
    unfold typeSuffixesWithin
    split
    · next hq =>
      obtain ⟨w, hw, hs⟩ := suffixes_typeSuffixesWithin n r
      exact ⟨t :: w, by rw [List.cons_append, ← hw], .nullable hq hs⟩
    · split
      · next ho =>
        split
        · exact ⟨[], rfl, .nil⟩
        · next rest hr =>
          obtain ⟨commas, closer, rfl, hcommas, hc⟩ := commas_closeRank? hr
          obtain ⟨w, hw, hs⟩ := suffixes_typeSuffixesWithin n rest
          refine ⟨t :: (commas ++ closer :: w), ?_, .array ho hcommas hc hs⟩
          simp only [List.append_assoc, List.cons_append, ← hw]
      · exact ⟨[], rfl, .nil⟩

/-- A list that is read is written with commas, by induction on the bound on their number. -/
theorem derives_commaSeparatedWithin {item : Parse α} (h : Derives P item) :
    ∀ n, Derives (Separated P) (commaSeparatedWithin item n)
  | 0 => fun c as d hd => by
    obtain ⟨a, e, ha, hd⟩ := bind_eq_done.mp hd
    obtain ⟨rfl, rfl⟩ := Reply.done.inj hd
    obtain ⟨w, hw, hf, hP⟩ := h c a _ ha
    exact ⟨w, hw, hf, .last hP⟩
  | n + 1 => fun c as d hd => by
    obtain ⟨a, e, ha, hd⟩ := bind_eq_done.mp hd
    obtain ⟨w, hw, hf, hP⟩ := h c a e ha
    obtain ⟨b, e', hb, hd⟩ := bind_eq_done.mp hd
    rcases eat_eq .comma e with ⟨comma, r, hr, hk, heat⟩ | heat
    · obtain ⟨rfl, rfl⟩ := Reply.done.inj (heat.symm.trans hb)
      obtain ⟨more, e'', hmore, hd⟩ := bind_eq_done.mp hd
      obtain ⟨rfl, rfl⟩ := Reply.done.inj hd
      obtain ⟨v, hv, hvf, hsep⟩ := derives_commaSeparatedWithin h n _ _ _ hmore
      have hv : r = v ++ e''.rest := hv
      refine ⟨w ++ comma :: v, ?_, hvf.trans hf, .cons hP hk hsep⟩
      rw [hw, hr, hv, List.append_assoc, List.cons_append]
    · obtain ⟨rfl, rfl⟩ := Reply.done.inj (heat.symm.trans hb)
      obtain ⟨rfl, rfl⟩ := Reply.done.inj hd
      exact ⟨w, hw, hf, .last hP⟩

theorem derives_commaSeparated {item : Parse α} (h : Derives P item) :
    Derives (Separated P) (commaSeparated item) :=
  fun c => derives_commaSeparatedWithin h _ c

theorem derives_typeArguments {type : Parse TypeExpr} {P : List Token → TypeExpr → Prop}
    (h : Derives P type) : Derives (Angled P) (typeArguments type) := by
  intro c args d hd
  obtain ⟨opened, e, hopened, hd⟩ := bind_eq_done.mp hd
  obtain ⟨rfl, rfl⟩ := Reply.done.inj hopened
  obtain ⟨b, e, hb, hd⟩ := bind_eq_done.mp hd
  rcases eat_eq .less c with ⟨opener, r, hr, ho, heat⟩ | heat
  · obtain ⟨rfl, rfl⟩ := Reply.done.inj (heat.symm.trans hb)
    obtain ⟨as, e, has, hd⟩ := bind_eq_done.mp hd
    obtain ⟨w, hw, hf, hsep⟩ := derives_commaSeparated h _ _ _ has
    have hw : r = w ++ e.rest := hw
    obtain ⟨b, e', hb, hd⟩ := bind_eq_done.mp hd
    rcases eat_eq .greater e with ⟨closer, r', hr', hc, heat⟩ | heat
    · obtain ⟨rfl, rfl⟩ := Reply.done.inj (heat.symm.trans hb)
      obtain ⟨rfl, rfl⟩ := Reply.done.inj hd
      exact ⟨opener :: w ++ [closer], by simp [hr, hw, hr', Cursor.goto], hf, .some ho hsep hc⟩
    · obtain ⟨rfl, rfl⟩ := Reply.done.inj (heat.symm.trans hb)
      cases hd
  · obtain ⟨rfl, rfl⟩ := Reply.done.inj (heat.symm.trans hb)
    obtain ⟨rfl, rfl⟩ := Reply.done.inj hd
    exact ⟨[], rfl, rfl, .none⟩

/-- The qualifier that is dropped. -/
theorem qualifier_dropGlobal (h : c.isAt .identifier) :
    ∃ w, c.rest = w ++ dropGlobal c.rest ∧ QualifierTokens w := by
  obtain ⟨word, r, hr, hk⟩ := exists_of_isAt h
  rw [hr]
  unfold dropGlobal
  split
  · next t colons r' heq =>
    split
    · next hg =>
      obtain ⟨rfl, -⟩ := List.cons.inj heq
      exact ⟨[word, colons], heq, .some (by simp [Token.isWord, hk, hg.1]) hg.2.1 hg.2.2⟩
    · exact ⟨[], heq, .none⟩
  · exact ⟨[], rfl, .none⟩

/-- **What is read as a type is written as one**, by induction on how deep arguments may be
nested. -/
theorem derives_typeExprWithin : ∀ n, Derives TypeTokens (typeExprWithin n)
  | 0 => fun c t d hd => by cases hd
  | n + 1 => fun c t d hd => by
    unfold typeExprWithin at hd
    split at hd
    next hat =>
      obtain ⟨qualifier, hqualifier, hq⟩ := qualifier_dropGlobal hat
      obtain ⟨path, c1, h1, hd⟩ := bind_eq_done.mp hd
      obtain ⟨first, c0, h0, h1⟩ := bind_eq_done.mp h1
      obtain ⟨args, c2, h2, hd⟩ := bind_eq_done.mp hd
      obtain ⟨marks, c3, h3, hd⟩ := bind_eq_done.mp hd
      obtain ⟨stop, c4, h4, hd⟩ := bind_eq_done.mp hd
      obtain ⟨rfl, rfl⟩ := Reply.done.inj h4
      obtain ⟨rfl, rfl⟩ := Reply.done.inj hd
      obtain ⟨rfl, rfl⟩ := Reply.done.inj h1
      obtain ⟨rfl, rfl⟩ := Reply.done.inj h3
      obtain ⟨segments, hsegments, hs⟩ := segments_moreSegments c0.rest
      obtain ⟨arguments, hw2, hf2, hargs⟩ := derives_typeArguments (derives_typeExprWithin n) _ _ _ h2
      obtain ⟨suffixes, hsuffixes, hmarks⟩ := suffixes_typeSuffixesWithin c2.rest.length c2.rest
      unfold expectIdentifier at h0
      split at h0
      · cases h0
      next name r hr =>
      split at h0
      next hname =>
        obtain ⟨rfl, rfl⟩ := Reply.done.inj h0
        have hr : dropGlobal c.rest = name :: r := hr
        have hsegments : r = segments ++ (moreSegments r).2 := hsegments
        have hw2 : (moreSegments r).2 = arguments ++ c2.rest := hw2
        have hall : c.rest = qualifier ++ name :: (segments ++ (arguments ++ suffixes)) ++
            (typeSuffixesWithin c2.rest.length c2.rest).2 := by
          simp only [List.append_assoc, List.cons_append]
          rw [← hsuffixes, ← hw2, ← hsegments, ← hr, ← hqualifier]
        exact ⟨_, hall, hf2, .mk hq hname hs hargs hmarks (spans_spanSince hall (by simp))⟩
      · cases h0
    · cases hd

theorem derives_typeExpr : Derives TypeTokens typeExpr := fun c => derives_typeExprWithin _ c

/-! ### What is written is read so -/

theorem moreSegments_segments {path : List Ident} (h : SegmentTokens w path)
    (hmore : ∀ t ∈ more.head?, t.kind ≠ .dot) : moreSegments (w ++ more) = (path, more) := by
  induction h with
  | nil =>
    cases more with
    | nil => rfl
    | cons t r => exact moreSegments_of_kind (hmore t rfl) r
  | cons hp hn _ ih => simp only [List.cons_append, moreSegments, hp, hn, and_self, ↓reduceIte, ih]

theorem accepts_dottedName {path : List Ident} (ht : t.kind = .identifier) (h : SegmentTokens w path)
    (hmore : ∀ t ∈ more.head?, t.kind ≠ .dot) :
    Accepts finish dottedName (t :: w) more (.ofToken t :: path) := by
  refine (accepts_expectIdentifier ht).cons_bind ?_
  simp only [Accepts, moreSegments_segments h hmore]
  rfl

theorem closeRank?_commas {commas : List Token} (h : ∀ t ∈ commas, t.kind = .comma)
    (ht : t.kind = .closing .bracket) : closeRank? (commas ++ t :: more) = some more := by
  induction commas with
  | nil => simp [closeRank?, ht]
  | cons u commas ih =>
    obtain ⟨hu, hmore⟩ := List.forall_mem_cons.mp h
    simp only [List.cons_append, closeRank?, hu, ↓reduceIte, ih hmore]

theorem typeSuffixesWithin_suffixes {suffixes : List TypeSuffix} (h : SuffixTokens w suffixes)
    (hquestion : ∀ t ∈ more.head?, t.kind ≠ .question)
    (hbracket : ∀ t ∈ more.head?, t.kind ≠ .opening .bracket) : ∀ {n : Nat}, w.length ≤ n →
      typeSuffixesWithin n (w ++ more) = (suffixes, more) := by
  induction h with
  | nil =>
    intro n _
    cases n with
    | zero => rfl
    | succ n =>
      cases more with
      | nil => rfl
      | cons t r =>
        simp only [List.nil_append, typeSuffixesWithin, hquestion t rfl, hbracket t rfl, ↓reduceIte]
  | @nullable u w suffixes hu _ ih =>
    intro n hn
    rw [List.length_cons] at hn
    obtain ⟨n, rfl⟩ := Nat.exists_eq_add_one_of_ne_zero (show n ≠ 0 by omega)
    simp only [List.cons_append, typeSuffixesWithin, hu, ↓reduceIte, ih (Nat.le_of_succ_le_succ hn)]
  | @array opener closer commas w suffixes ho hcommas hc _ ih =>
    intro n hn
    simp only [List.length_append, List.length_cons] at hn
    obtain ⟨n, rfl⟩ := Nat.exists_eq_add_one_of_ne_zero (show n ≠ 0 by omega)
    have hrank : closeRank? (commas ++ closer :: (w ++ more)) = some (w ++ more) :=
      closeRank?_commas hcommas hc
    simp only [List.cons_append, List.append_assoc, typeSuffixesWithin, ho, reduceCtorEq, ↓reduceIte,
      hrank, ih (show w.length ≤ n by omega)]

theorem accepts_typeSuffixes {suffixes : List TypeSuffix} (h : SuffixTokens w suffixes)
    (hquestion : ∀ t ∈ more.head?, t.kind ≠ .question)
    (hbracket : ∀ t ∈ more.head?, t.kind ≠ .opening .bracket) :
    Accepts finish typeSuffixes w more suffixes := by
  have hread := typeSuffixesWithin_suffixes h hquestion hbracket (n := (w ++ more).length) (by simp)
  simp only [Accepts, typeSuffixes, hread]
  rfl

theorem accepts_typeArguments {type : Parse TypeExpr} {P : List Token → TypeExpr → Prop}
    {args : List TypeExpr} (h : Angled P w args) (hmore : ∀ t ∈ more.head?, t.kind ≠ .less)
    (hitem : ∀ v rest a, P v a → v ++ rest <:+ w ++ more → Starts [.comma, .greater] rest →
      Accepts finish type v rest a) : Accepts finish (typeArguments type) w more args :=
  .here_bind (accepts_angled h hmore hitem fun _ hc => (accepts_eat hc).bind_end (.pos rfl (.pure args)))

/-- A qualifier is dropped, and a name that is none is kept. -/
theorem dropGlobal_qualifier (h : QualifierTokens w)
    (hmore : w = [] → t.lexeme = "global" → ∀ u ∈ r.head?, ¬ (u.kind = .operator ∧ u.lexeme = "::")) :
    dropGlobal (w ++ t :: r) = t :: r := by
  cases h with
  | none =>
    cases r with
    | nil => rfl
    | cons u r =>
      simp only [List.nil_append, dropGlobal]
      refine if_neg fun hg => hmore rfl hg.1 u rfl hg.2
  | some hw hk hl =>
    have hword := (Bool.and_eq_true_iff.mp hw).2
    rw [beq_iff_eq] at hword
    simp [dropGlobal, hword, hk, hl]

/-- **Every written type is read as it is written**, by induction on how deep arguments may be
nested. -/
theorem accepts_typeExprWithin : ∀ {n : Nat} {w more : List Token} {type : TypeExpr},
    TypeTokens w type → EndsType w more → (w ++ more).length < n →
      Accepts finish (typeExprWithin n) w more type
  | 0, w, more, type, h, hends, hn => by omega
  | n + 1, w, more, type, h, hends, hn => by
    have hat : (⟨w ++ more, finish⟩ : Cursor).isAt .identifier = true :=
      isAt_of_starts (h.starts.append more)
    unfold Accepts typeExprWithin
    rw [if_pos hat]
    obtain @⟨qualifier, segments, arguments, suffixes, name, path, args, marks, span, hqualifier, hname,
      hsegments, harguments, hsuffixes, hspan⟩ := h
    -- what stands behind the first name begins with no `::`
    have hcolons : qualifier = [] → name.lexeme = "global" →
        ∀ u ∈ (segments ++ (arguments ++ suffixes) ++ more).head?,
          ¬ (u.kind = .operator ∧ u.lexeme = "::") := by
      rintro rfl hglobal u hu hop
      have hrest := Starts.optionals hsegments.starts (Starts.optionals harguments.starts hsuffixes.starts)
      rcases hrest with hnil | hstarts
      · rw [hnil, List.nil_append] at hu
        exact hends.colons name (by rw [hnil]; rfl) hglobal u hu hop
      · exact (hstarts.append more).kind_ne (by decide) u hu hop.1
    have hdrop : dropGlobal (qualifier ++ name :: (segments ++ (arguments ++ suffixes)) ++ more) =
        name :: segments ++ (arguments ++ suffixes) ++ more := by
      have hq := dropGlobal_qualifier hqualifier hcolons
      simpa only [List.append_assoc, List.cons_append] using hq
    have hlast : Starts [.question, .opening .bracket] (suffixes ++ more) ∨ suffixes ++ more = more := by
      rcases hsuffixes.starts with rfl | hs
      · exact .inr rfl
      · exact .inl (hs.append more)
    have hpath : Accepts finish dottedName (name :: segments) (arguments ++ suffixes ++ more)
        (.ofToken name :: path) := by
      refine accepts_dottedName hname hsegments ?_
      rw [List.append_assoc]
      rcases hlast with hs | hs
      · exact (Starts.optional harguments.starts hs).kind_ne (by decide)
      · rw [hs]
        rcases harguments.starts with rfl | ha
        · exact hends.dot
        · exact (ha.append more).kind_ne (by decide)
    have hargs : Accepts finish (typeArguments (typeExprWithin n)) arguments (suffixes ++ more) args := by
      refine accepts_typeArguments harguments ?_ fun v rest a ha hsuffix hrest => ?_
      · rcases hlast with hs | hs
        · exact hs.kind_ne (by decide)
        · rw [hs]
          exact hends.less
      · refine accepts_typeExprWithin ha (.of_starts hrest (by decide)) ?_
        have hle := hsuffix.length_le
        simp only [List.length_append, List.length_cons] at hle hn ⊢
        omega
    have hmarks : Accepts finish typeSuffixes suffixes more marks :=
      accepts_typeSuffixes hsuffixes hends.question hends.bracket
    rw [Cursor.goto, hdrop]
    exact hpath.bind (hargs.bind (hmarks.bind_end
      (.span_end _ hspan)))

theorem accepts_typeExpr {type : TypeExpr} (h : TypeTokens w type) (hends : EndsType w more) :
    Accepts finish typeExpr w more type :=
  accepts_typeExprWithin h hends (Nat.lt_succ_self _)

end Parse

/-- **The reader of types is exact for the grammar.** What it takes is a written type, with the tree
that it gives. A written type in front of any tokens that do not go on with it is taken as a whole,
with its tree. If there is none, the reader has moved on in the same tokens and has nothing to show
but its reply; it is up to the caller to report that. -/
theorem typeExpr_exact (c : Cursor) :
    (∀ type d, typeExpr c = .done type d →
      ∃ w, c.rest = w ++ d.rest ∧ d.finish = c.finish ∧ TypeTokens w type) ∧
    (∀ w more type, c.rest = w ++ more → TypeTokens w type → EndsType w more →
      typeExpr c = .done type (c.goto more)) ∧
    (∀ e d, typeExpr c = .failed e d → ∃ r, r <:+ c.rest ∧ d = c.goto r) := by
  refine ⟨fun type d => derives_typeExpr c type d, fun w more type hc htype hends => ?_, fun e d hd => ?_⟩
  · have h : Accepts c.finish typeExpr w more type := accepts_typeExpr htype hends
    rw [Accepts, ← hc] at h
    exact h
  · obtain ⟨w, hw, hf⟩ := reads_typeExpr.failed hd
    refine ⟨d.rest, ⟨w, hw.symm⟩, ?_⟩
    rw [Cursor.goto, ← hf]

/-- A type with a qualifier, nested arguments, a rank and suffixes, in front of a name. -/
def sampleType : Cursor := .ofLexed (lex "global::A.Map<int[,], List<B?>>[]? x")

theorem sampleType_exact :
    ∃ w more type, sampleType.rest = w ++ more ∧ TypeTokens w type ∧ EndsType w more ∧
      typeExpr sampleType = .done type (sampleType.goto more) ∧
      type.text = "A.Map<int[], List<B?>>[]?" := by
  have hread : (match typeExpr sampleType with
      | .done type d => type.text == "A.Map<int[], List<B?>>[]?" && d.isAt .identifier
      | .failed _ _ => false) = true := by
    decide +kernel
  cases htype : typeExpr sampleType with
  | failed e d =>
    rw [htype] at hread
    cases hread
  | done type d =>
    rw [htype, Bool.and_eq_true, beq_iff_eq] at hread
    obtain ⟨w, hw, -, hderived⟩ := (typeExpr_exact sampleType).1 type d htype
    obtain ⟨t, r, hr, hk⟩ := exists_of_isAt hread.2
    have hstarts : Starts [.identifier] d.rest := by
      rw [hr]
      exact .of_kind hk r
    have hends : EndsType w d.rest := .of_starts hstarts (by decide)
    have hback := (typeExpr_exact sampleType).2.1 w d.rest type hw hderived hends
    exact ⟨w, d.rest, type, hw, hderived, hends, htype.symm.trans hback, hread.1⟩

/-! ### Type parameters -/

/-- A type parameter: attribute groups, perhaps `in` or `out`, and a name. -/
inductive TypeParameterTokens : List Token → Ident → Prop
  | invariant {attributes : List Token} {name : Token} (hattributes : AttributeGroups attributes)
    (hname : name.kind = .identifier) : TypeParameterTokens (attributes ++ [name]) (.ofToken name)
  | variant {attributes : List Token} {variance name : Token} (hattributes : AttributeGroups attributes)
    (hvariance : variance.kind = .inWord ∨ variance.kind = .outWord)
    (hname : name.kind = .identifier) :
    TypeParameterTokens (attributes ++ [variance, name]) (.ofToken name)

namespace Parse

theorem accepts_typeParameter {name : Ident} (h : TypeParameterTokens w name) :
    Accepts finish typeParameter w more name := by
  cases h with
  | invariant hattributes hname =>
    refine (accepts_skipAttributes hattributes ?_).bind ?_
    · simp [hname]
    refine (accepts_eat_none (by simp [hname])).then_bind (.neg Bool.false_ne_true ?_)
    exact (accepts_eat_none (by simp [hname])).then_bind (accepts_expectIdentifier hname)
  | variant hattributes hvariance hname =>
    refine (accepts_skipAttributes hattributes ?_).bind ?_
    · rcases hvariance with hv | hv <;> simp [hv]
    rcases hvariance with hv | hv
    · exact (accepts_eat hv).cons_bind (.pos rfl (accepts_expectIdentifier hname))
    · refine (accepts_eat_none (by simp [hv])).then_bind (.neg Bool.false_ne_true ?_)
      exact (accepts_eat hv).cons_bind (accepts_expectIdentifier hname)

theorem accepts_typeParameters {names : List Ident} (h : Angled TypeParameterTokens w names)
    (hmore : ∀ t ∈ more.head?, t.kind ≠ .less) : Accepts finish typeParameters w more names :=
  accepts_angled h hmore (fun _ _ _ hname _ _ => accepts_typeParameter hname)
    fun _ hc => (accepts_expect hc).bind_end (.pure names)

end Parse
end ScriptHost
