/-
# Variables that are disposed of

`using T x = value;` is meant to be a statement, and not a directive, whatever the type. Only two
tokens behind the `using` are looked at, so a type of several tokens is taken for the name in a
directive unless it begins with `var`, and the name of the variable is reported where a `;` was
expected. A statement, where it is taken for one, runs up to its `;`, but for a block outside the
other groups of the value: there it ends, unless a word behind the block goes on with it.

Key definitions: `GoesOn`, `Flows`, `Breaks`, `TypedUsing`, `TypedUsing.IsShort`.
Key theorems: `statementEnd_flows`, `flows_or_breaks`, `TypedUsing.isUsingDirective_iff`,
`TypedUsing.turn_of_short`, `TypedUsing.turn_of_long`, `Script.parse_typedUsing`.
-/
import ScriptHost.Proofs.Grammar.OwnFields
import ScriptHost.Proofs.Reading.Ranges
import ScriptHost.Proofs.Reading.Rounds
import ScriptHost.Proofs.Token.Exchange

namespace ScriptHost

open Parse Source

variable {w v r more : List Token} {t : Token} {finish : Position} {c : Cursor}

/-! ### Where a statement ends -/

/-- The end of the statement at a cursor, and its problem if it has one. -/
def Cursor.statementEnd (c : Cursor) : Option ParseError × Cursor := statementEndWithin c.left c

theorem statement_eq (c : Cursor) : statement c =
    ⟨some (.statement (c.bodySince .statement c.statementEnd.2)), c.statementEnd.1, c.statementEnd.2⟩ :=
  rfl

theorem statementEnd_eq (c : Cursor) : c.statementEnd = statementRound Cursor.statementEnd c :=
  answers_statement.unfold c

/-- A word stands next that goes on with the statement of a block. -/
def GoesOn (r : List Token) : Prop := ∃ word ∈ continuationWords, ∃ t ∈ r.head?, t.isWord word

instance (r : List Token) : Decidable (GoesOn r) :=
  inferInstanceAs (Decidable (∃ word ∈ continuationWords, ∃ t ∈ r.head?, t.isWord word))

theorem not_goesOn_iff (c : Cursor) :
    continuationWords.all (!c.isAtWord ·) = true ↔ ¬ GoesOn c.rest := by
  rw [← Bool.not_eq_false, not_iff_not]
  simp [GoesOn, Cursor.isAtWord, List.all_eq_false, Option.any_eq_true]

/-- The tokens in front of `more` leave a statement open: no `;` stands outside their groups, and
behind every block outside the others a word goes on. -/
inductive Flows (more : List Token) : List Token → Prop
  | nil : Flows more []
  | plain {t : Token} {r : List Token} (ht : t.kind.isBracket = false) (hs : t.kind ≠ .semicolon)
    (hr : Flows more r) : Flows more (t :: r)
  | group {opener closer : Token} {pair : Delimiter} {inner r : List Token}
    (ho : opener.kind = .opening pair) (hc : closer.kind = .closing pair) (hi : Balanced inner)
    (hgoes : pair = .brace → GoesOn (r ++ more)) (hr : Flows more r) :
    Flows more (opener :: inner ++ closer :: r)

theorem statementEnd_plain (ht : t.kind.isBracket = false) (hs : t.kind ≠ .semicolon) :
    (⟨t :: r, finish⟩ : Cursor).statementEnd = (⟨r, finish⟩ : Cursor).statementEnd := by
  rw [statementEnd_eq]
  simp only [statementRound]
  split
  next h => exact absurd h hs
  next h => simp [h, TokenKind.isBracket] at ht
  next h => simp [h, TokenKind.isBracket] at ht
  · rfl

theorem statementEnd_semicolon (ht : t.kind = .semicolon) :
    (⟨t :: r, finish⟩ : Cursor).statementEnd = (none, ⟨r, finish⟩) := by
  rw [statementEnd_eq]
  simp only [statementRound, ht]
  rfl

section Groups

variable {opener closer : Token} {pair : Delimiter} {inner : List Token}

/-- Behind a group the statement ends if that is a block with which nothing goes on. -/
theorem statementEnd_opening (ho : opener.kind = .opening pair) (hc : closer.kind = .closing pair)
    (hi : Balanced inner) : (⟨opener :: inner ++ closer :: r, finish⟩ : Cursor).statementEnd =
      if pair = .brace ∧ ¬ GoesOn r then (none, ⟨r, finish⟩)
      else (⟨r, finish⟩ : Cursor).statementEnd := by
  have hgroup : skipGroup ⟨opener :: inner ++ closer :: r, finish⟩ = .done closer ⟨r, finish⟩ := by
    have haccepts : Accepts finish skipGroup (opener :: inner ++ [closer]) r closer :=
      accepts_skipGroup ho hc hi
    simpa [Accepts] using haccepts
  rw [statementEnd_eq]
  simp only [statementRound, List.cons_append, ho] at hgroup ⊢
  simp only [hgroup, not_goesOn_iff]

end Groups

/-- **What leaves a statement open is passed over**, by induction on it. -/
theorem statementEnd_flows (h : Flows more w) :
    (⟨w ++ more, finish⟩ : Cursor).statementEnd = (⟨more, finish⟩ : Cursor).statementEnd := by
  induction h with
  | nil => rfl
  | plain ht hs _ ih => exact (statementEnd_plain ht hs).trans ih
  | @group opener closer pair inner r ho hc hi hgoes _ ih =>
    have hopen : ¬ (pair = .brace ∧ ¬ GoesOn (r ++ more)) := fun hb => hb.2 (hgoes hb.1)
    have hsplit : opener :: inner ++ closer :: r ++ more =
        opener :: inner ++ closer :: (r ++ more) := by simp
    rw [hsplit, statementEnd_opening ho hc hi, if_neg hopen]
    exact ih

/-- Where no `;` and no block stand a statement stays open. -/
theorem flows_of_kinds (h : Balanced w) (hw : ∀ t ∈ w, t.kind ≠ .semicolon ∧ t.kind ≠ .opening .brace) :
    Flows more w := by
  induction h with
  | nil => exact .nil
  | plain ht _ ih =>
    obtain ⟨hs, hr⟩ := List.forall_mem_cons.mp hw
    exact .plain ht hs.1 (ih hr)
  | @group opener closer pair inner r ho hc hi _ _ ih =>
    have hr : ∀ t ∈ r, t.kind ≠ .semicolon ∧ t.kind ≠ .opening .brace := fun t ht =>
      hw t (by simp [ht])
    refine .group ho hc hi (fun hb => ?_) (ih hr)
    exact absurd (hb ▸ ho) (hw opener (by simp)).2

/-- Behind a block of the tokens a statement ends, and up to that block it stays open. -/
structure Breaks (w front block behind more : List Token) : Prop where
  split : w = front ++ block ++ behind
  flows : Flows (block ++ behind ++ more) front
  block : ∃ opener inner closer, block = opener :: inner ++ [closer] ∧ opener.kind = .opening .brace ∧
    closer.kind = .closing .brace ∧ Balanced inner
  ends : ¬ GoesOn (behind ++ more)

/-- **Tokens without a `;` outside their groups leave a statement open, or a block ends it**; by
induction on the tokens. -/
theorem flows_or_breaks (h : Clear (· == .semicolon) w) :
    Flows more w ∨ ∃ front block behind, Breaks w front block behind more := by
  induction h with
  | nil => exact .inl .nil
  | @plain t r ht hs _ ih =>
    rcases ih with hr | ⟨front, block, behind, rfl, hflows, hblock, hends⟩
    · exact .inl (.plain ht (by simpa using hs) hr)
    · exact .inr ⟨t :: front, block, behind, rfl, .plain ht (by simpa using hs) hflows, hblock, hends⟩
  | @group opener closer pair inner r ho hs hc hi _ ih =>
    by_cases hends : pair = .brace ∧ ¬ GoesOn (r ++ more)
    · obtain ⟨rfl, hends⟩ := hends
      exact .inr ⟨[], opener :: inner ++ [closer], r, by simp, .nil,
        ⟨opener, inner, closer, rfl, ho, hc, hi⟩, hends⟩
    have hgoes (hb : pair = .brace) : GoesOn (r ++ more) := not_not.mp fun hn => hends ⟨hb, hn⟩
    rcases ih with hr | ⟨front, block, behind, rfl, hflows, hblock, hends'⟩
    · exact .inl (.group ho hc hi hgoes hr)
    · refine .inr ⟨opener :: inner ++ closer :: front, block, behind, by simp, ?_, hblock, hends'⟩
      refine .group ho hc hi (fun hb => ?_) hflows
      simpa using hgoes hb

namespace Breaks

variable {front block behind : List Token}

/-- **Behind the block that ends it** is where a statement ends. -/
theorem statementEnd (h : Breaks w front block behind more) :
    (⟨w ++ more, finish⟩ : Cursor).statementEnd = (none, ⟨behind ++ more, finish⟩) := by
  obtain ⟨opener, inner, closer, hblock, ho, hc, hi⟩ := h.block
  have hsplit : w ++ more = front ++ (block ++ behind ++ more) := by simp [h.split]
  have hrest : block ++ behind ++ more = opener :: inner ++ closer :: (behind ++ more) := by
    simp [hblock]
  rw [hsplit, statementEnd_flows h.flows, hrest, statementEnd_opening ho hc hi, if_pos ⟨rfl, h.ends⟩]

/-- In front of a `;` no block ends a statement that the tokens leave open. -/
theorem not_flows (h : Breaks w front block behind (t :: r)) (ht : t.kind = .semicolon) :
    ¬ Flows (t :: r) w := by
  intro hflows
  have hthrough : (⟨w ++ t :: r, .start⟩ : Cursor).statementEnd = (none, ⟨r, .start⟩) :=
    (statementEnd_flows hflows).trans (statementEnd_semicolon ht)
  have hsame := hthrough.symm.trans h.statementEnd
  simp only [Prod.mk.injEq, Cursor.mk.injEq, true_and, and_true] at hsame
  have hlen := congrArg List.length hsame
  simp only [List.length_append, List.length_cons] at hlen
  omega

end Breaks

/-! ### The tokens of a type -/

/-- A type leaves a statement open, since neither `;` nor a block is part of one. -/
theorem TypeTokens.flows {type : TypeExpr} (h : TypeTokens w type) : Flows more w := by
  have hread : Accepts .start typeExpr w [] type :=
    accepts_typeExpr h (endsType_nil w)
  obtain ⟨v, hv, -, hneutral⟩ := reads_typeExpr.done hread
  obtain rfl : w = v := by simpa using hv
  exact flows_of_kinds (balanced_iff_neutral.mpr hneutral)
    (h.all_kinds (Q := fun kind => kind ≠ .semicolon ∧ kind ≠ .opening .brace) (by decide))

/-! ### A variable that is disposed of -/

/-- The tokens of `using T x = value;`, where no `;` stands outside the groups of the value. -/
structure TypedUsing where
  word : Token
  typeTokens : List Token
  type : TypeExpr
  name : Token
  equal : Token
  value : List Token
  semicolon : Token
  word_kind : word.kind = .usingWord
  typeTokens_type : TypeTokens typeTokens type
  name_kind : name.kind = .identifier
  equal_kind : equal.kind = .equal
  value_clear : Clear (· == .semicolon) value
  semicolon_kind : semicolon.kind = .semicolon

namespace TypedUsing

variable {u : TypedUsing}

/-- The tokens in front of the value. -/
def lead (u : TypedUsing) : List Token :=
  u.word :: (u.typeTokens ++ [u.name, u.equal])

def tokens (u : TypedUsing) : List Token :=
  u.lead ++ (u.value ++ [u.semicolon])

/-- The type is a single token or begins with `var`. -/
def IsShort (u : TypedUsing) : Prop :=
  u.typeTokens.length = 1 ∨ ∃ t ∈ u.typeTokens.head?, t.lexeme = "var"

/-- **It is taken for a directive unless the type is short.** -/
theorem isUsingDirective_iff (hr : c.rest = u.tokens ++ more) : isUsingDirective c ↔ ¬ u.IsShort := by
  obtain ⟨first, r, htype, hkind, hnext⟩ := u.typeTokens_type.second
  simp only [isUsingDirective, hr, tokens, lead, IsShort, htype, List.cons_append, hkind]
  rcases hnext with rfl | hnext
  · simp [u.name_kind]
  · obtain ⟨second, r, rfl, hsecond⟩ := hnext.cons_eq
    have hne : second.kind ≠ .identifier := fun heq => by simp [heq] at hsecond
    simp [hne]

theorem starts (u : TypedUsing) (more : List Token) : ∃ r, u.tokens ++ more = u.word :: r :=
  ⟨_, rfl⟩

/-- With a short type it is read as a statement. -/
theorem turn_of_short (declared : Bool) (hshort : u.IsShort) (hr : c.rest = u.tokens ++ more) :
    turn declared c = statement c := by
  have hdirective : isUsingDirective c = false :=
    Bool.eq_false_iff.mpr fun h => (isUsingDirective_iff hr).mp h hshort
  obtain ⟨r, hcons⟩ := u.starts more
  simp only [turn, hr.trans hcons, u.word_kind, hdirective, Bool.false_eq_true, ↓reduceIte]

/-- Of a longer type the second token is no `=`, so it is no alias either. -/
theorem aliasName?_of_long (hlong : ¬ u.IsShort) (r : List Token) :
    aliasName? ⟨u.typeTokens ++ r, finish⟩ = .done none ⟨u.typeTokens ++ r, finish⟩ := by
  obtain ⟨first, s, htype, -, hnext⟩ := u.typeTokens_type.second
  have hne : s ≠ [] := fun hs => hlong (.inl (by rw [htype, hs]; rfl))
  obtain ⟨second, s, rfl, hsecond⟩ := (hnext.resolve_left hne).cons_eq
  have hequal : second.kind ≠ .equal := fun heq => by simp [heq] at hsecond
  simp [aliasName?, htype, hequal]

/-- The reader of directives stops at the name. -/
theorem usingDirective_of_long (hlong : ¬ u.IsShort) (more : List Token) (finish : Position) : ∃ r,
    usingDirective ⟨u.tokens ++ more, finish⟩ =
      .failed ⟨.expectedToken .semicolon .identifier, u.name.span⟩ ⟨u.name :: r, finish⟩ := by
  let r := u.equal :: (u.value ++ [u.semicolon]) ++ more
  have hsplit : u.tokens ++ more = u.word :: (u.typeTokens ++ u.name :: r) := by simp [tokens, lead, r]
  have hword : expect .usingWord ⟨u.word :: (u.typeTokens ++ u.name :: r), finish⟩ =
      .done u.word ⟨u.typeTokens ++ u.name :: r, finish⟩ := accepts_expect u.word_kind
  have hstatic : eat .staticWord ⟨u.typeTokens ++ u.name :: r, finish⟩ =
      .done false ⟨u.typeTokens ++ u.name :: r, finish⟩ :=
    accepts_eat_none ((u.typeTokens_type.starts.append _).kind_ne (by decide))
  have htype : typeExpr ⟨u.typeTokens ++ u.name :: r, finish⟩ = .done u.type ⟨u.name :: r, finish⟩ :=
    accepts_typeExpr u.typeTokens_type (.of_starts (.of_kind u.name_kind r) (by decide))
  have hsemicolon : expect .semicolon ⟨u.name :: r, finish⟩ =
      .failed ⟨.expectedToken .semicolon .identifier, u.name.span⟩ ⟨u.name :: r, finish⟩ := by
    simp [expect, u.name_kind, complain, Cursor.span]
  refine ⟨r, ?_⟩
  simp only [usingDirective, here, bind_apply, hsplit, hword, hstatic, aliasName?_of_long hlong, htype,
    hsemicolon]

/-- **With a longer type the name is reported where a `;` was expected.** -/
theorem turn_of_long (declared : Bool) (hlong : ¬ u.IsShort) (hr : c.rest = u.tokens ++ more) :
    (turn declared c).item? = none ∧
    (turn declared c).error? = some ⟨.expectedToken .semicolon .identifier, u.name.span⟩ := by
  obtain ⟨rest, finish⟩ := c
  obtain rfl : rest = u.tokens ++ more := hr
  obtain ⟨r, hcons⟩ := u.starts more
  have hdirective := (isUsingDirective_iff (c := ⟨u.tokens ++ more, finish⟩) rfl).mpr hlong
  obtain ⟨r', hfailed⟩ := usingDirective_of_long hlong more finish
  have hturn : turn declared ⟨u.tokens ++ more, finish⟩ =
      .ofReply ⟨u.tokens ++ more, finish⟩
        ((Item.usingDirective <$> usingDirective) ⟨u.tokens ++ more, finish⟩) := by
    rw [hcons] at hdirective ⊢
    simp only [turn, u.word_kind, hdirective, ↓reduceIte]
  rw [hturn, map_apply, hfailed]
  exact ⟨rfl, rfl⟩

/-- Up to the value the statement stays open. -/
theorem statementEnd_tokens (hr : c.rest = u.tokens ++ more) :
    c.statementEnd = (c.goto (u.value ++ u.semicolon :: more)).statementEnd := by
  obtain ⟨rest, finish⟩ := c
  let r := u.value ++ u.semicolon :: more
  obtain rfl : rest = u.word :: (u.typeTokens ++ u.name :: u.equal :: r) := by
    simpa [tokens, lead, r] using hr
  have hplain {t : Token} {kind : TokenKind} (ht : t.kind = kind) (hb : kind.isBracket = false)
      (hs : kind ≠ .semicolon) (s : List Token) :
      (⟨t :: s, finish⟩ : Cursor).statementEnd = (⟨s, finish⟩ : Cursor).statementEnd :=
    statementEnd_plain (ht ▸ hb) (ht ▸ hs)
  calc (⟨u.word :: (u.typeTokens ++ u.name :: u.equal :: r), finish⟩ : Cursor).statementEnd
      = (⟨u.typeTokens ++ u.name :: u.equal :: r, finish⟩ : Cursor).statementEnd :=
        hplain u.word_kind rfl (by decide) _
    _ = (⟨u.name :: u.equal :: r, finish⟩ : Cursor).statementEnd :=
        statementEnd_flows u.typeTokens_type.flows
    _ = (⟨u.equal :: r, finish⟩ : Cursor).statementEnd := hplain u.name_kind rfl (by decide) _
    _ = (⟨r, finish⟩ : Cursor).statementEnd := hplain u.equal_kind rfl (by decide) _

/-- A value that leaves the statement open: it runs up to its `;`. -/
theorem statementEnd_of_flows (hflows : Flows (u.semicolon :: more) u.value)
    (hr : c.rest = u.tokens ++ more) : c.statementEnd = (none, c.goto more) := by
  rw [statementEnd_tokens hr, Cursor.goto, statementEnd_flows hflows,
    statementEnd_semicolon u.semicolon_kind]
  rfl

/-- A value with a block that ends the statement: it runs up to that. -/
theorem statementEnd_of_breaks {front block behind : List Token}
    (h : Breaks u.value front block behind (u.semicolon :: more)) (hr : c.rest = u.tokens ++ more) :
    c.statementEnd = (none, c.goto (behind ++ u.semicolon :: more)) := by
  rw [statementEnd_tokens hr, Cursor.goto, h.statementEnd]
  rfl

/-! ### The items of a script -/

/-- A value that leaves the statement open gives one statement, and no problem. -/
theorem items_of_flows (hshort : u.IsShort) (hflows : Flows [u.semicolon] u.value)
    (hr : c.rest = u.tokens) : c.items = ([.statement (c.bodySince .statement (c.goto []))], []) := by
  have hall : c.rest = u.tokens ++ [] := hr.trans (List.append_nil _).symm
  have hturn : turn false c =
      ⟨some (.statement (c.bodySince .statement (c.goto []))), none, c.goto []⟩ := by
    rw [turn_of_short false hshort hall, statement_eq, statementEnd_of_flows hflows hall]
  exact Cursor.items_of_turn (by rw [hr]; simp [tokens, lead]) hturn rfl

/-- A value with a block that ends the statement gives a statement up to that block first. -/
theorem items_of_breaks {front block behind : List Token} (hshort : u.IsShort)
    (h : Breaks u.value front block behind [u.semicolon]) (hr : c.rest = u.tokens) :
    ∃ body items errors, c.items = (.statement body :: items, errors) ∧
      body.Covers (u.lead ++ front ++ block) := by
  have hall : c.rest = u.tokens ++ [] := hr.trans (List.append_nil _).symm
  have hcovers : (c.bodySince .statement (c.goto (behind ++ [u.semicolon]))).Covers
      (u.lead ++ front ++ block) := by
    refine covers_bodySince ?_ (by simp [lead]) (fun _ _ _ _ k hk => by cases hk)
    simp [hr, tokens, h.split, Cursor.goto]
  obtain ⟨r, hcons⟩ := u.starts []
  have hitems := Cursor.itemsFrom_cons false (hall.trans hcons)
  rw [turn_of_short false hshort hall, statement_eq, statementEnd_of_breaks h hall] at hitems
  exact ⟨_, _, _, hitems, hcovers⟩

/-- With a longer type the first problem is at the name. -/
theorem errors_of_long (hlong : ¬ u.IsShort) (hr : c.rest = u.tokens) :
    ∃ errors, c.items.2 = ⟨.expectedToken .semicolon .identifier, u.name.span⟩ :: errors := by
  have hall : c.rest = u.tokens ++ [] := hr.trans (List.append_nil _).symm
  obtain ⟨r, hcons⟩ := u.starts []
  have hitems : c.items = _ := Cursor.itemsFrom_cons false (hall.trans hcons)
  rw [(turn_of_long false hlong hall).2] at hitems
  exact ⟨_, congrArg Prod.snd hitems⟩

end TypedUsing

/-- A body that ends where its tokens end is not that of fewer of them. -/
theorem Body.Covers.eq_nil_of_append {b : Body} {p : Position} {cs : List Char} (hw : b.Covers w)
    (hall : b.Covers (w ++ v)) (htiles : Tiles p cs (w ++ v)) (hpos : ∀ t ∈ w ++ v, 0 < t.length) :
    v = [] := by
  by_contra hne
  obtain ⟨t, u, ht, hu, -, hstop, -⟩ := hw
  obtain ⟨t', u', ht', hu', -, hstop', -⟩ := hall
  obtain rfl : t = t' := by
    rw [List.head?_append, ht] at ht'
    exact Option.some.inj ht'
  have hlast : u' ∈ v := by
    rw [List.getLast?_append_of_ne_nil _ hne] at hu'
    exact List.mem_of_getLast? hu'
  have hbefore := (List.pairwise_append.mp htiles.stops).2.2
  have hfirst := hbefore t (List.mem_of_head? ht) u' hlast
  have hend := hbefore u (List.mem_of_getLast? hu) u' hlast
  have hlong := hpos u' (List.mem_append_right _ hlast)
  simp only [Token.stop] at hfirst hend hstop hstop'
  omega

namespace Script

variable {source : String} {u : TypedUsing}

/-- The first problem of a script whose variable has a longer type. -/
theorem parse_of_long (hlex : (lex source).errors = []) (htokens : (lex source).tokens = u.tokens)
    (hlong : ¬ u.IsShort) : ∃ errors, parse source =
      .error (⟨.expectedToken .semicolon .identifier, u.name.span⟩ :: errors) := by
  obtain ⟨errors, herrors⟩ := TypedUsing.errors_of_long (c := .ofLexed (lex source)) hlong htokens
  exact ⟨errors, parse_eq_error hlex herrors⟩

/-- The first item of a script whose variable has a short type and a value that does not leave the
statement open. -/
theorem head_of_breaks (htokens : (lex source).tokens = u.tokens) (hshort : u.IsShort)
    (hnot : ¬ Flows [u.semicolon] u.value) : ∃ front block behind body,
      Breaks u.value front block behind [u.semicolon] ∧
      (parseLenient source).1.items.head? = some (.statement body) ∧
      body.Covers (u.lead ++ front ++ block) := by
  obtain ⟨front, block, behind, h⟩ := (flows_or_breaks u.value_clear).resolve_left hnot
  obtain ⟨body, items, errors, hitems, hcovers⟩ :=
    TypedUsing.items_of_breaks (c := .ofLexed (lex source)) hshort h htokens
  exact ⟨front, block, behind, body, h, by simp [parseLenient, hitems], hcovers⟩

/-- A script that is one statement has a short type, and its value leaves the statement open. -/
theorem short_flows_of_parse {script : Script} {body : Body} (hlex : (lex source).errors = [])
    (htokens : (lex source).tokens = u.tokens) (hscript : parse source = .ok script)
    (hitems : script.items = [.statement body]) (hcovers : body.Covers u.tokens) :
    u.IsShort ∧ Flows [u.semicolon] u.value := by
  have hshort : u.IsShort := by
    by_contra hlong
    obtain ⟨errors, herrors⟩ := parse_of_long hlex htokens hlong
    rw [herrors] at hscript
    cases hscript
  refine ⟨hshort, ?_⟩
  by_contra hnot
  obtain ⟨front, block, behind, body', h, hhead, hcovers'⟩ := head_of_breaks htokens hshort hnot
  rw [parseLenient_of_parse hscript, hitems] at hhead
  obtain rfl : body = body' := by simpa using hhead
  have hall : u.tokens = (u.lead ++ front ++ block) ++ (behind ++ [u.semicolon]) := by
    simp [TypedUsing.tokens, h.split]
  rw [hall] at hcovers htokens
  have htiles := tiles_lex source
  rw [htokens] at htiles
  have hnone := hcovers'.eq_nil_of_append hcovers htiles fun t ht =>
    length_pos_of_mem_lex (htokens ▸ ht)
  simp at hnone

/-- **A variable that is disposed of** is one statement that covers its script if and only if its type
is short and its value leaves the statement open. With a longer type the name is reported where a `;`
was expected, and otherwise the statement ends at a block of the value. -/
theorem parse_typedUsing (u : TypedUsing) (hlex : (lex source).errors = [])
    (htokens : (lex source).tokens = u.tokens) :
    ((∃ script body, parse source = .ok script ∧ script.items = [.statement body] ∧
        body.Covers u.tokens) ↔ u.IsShort ∧ Flows [u.semicolon] u.value) ∧
    (¬ u.IsShort → ∃ errors, parse source =
      .error (⟨.expectedToken .semicolon .identifier, u.name.span⟩ :: errors)) ∧
    (u.IsShort → ¬ Flows [u.semicolon] u.value → ∃ front block behind body,
      Breaks u.value front block behind [u.semicolon] ∧
      (parseLenient source).1.items.head? = some (.statement body) ∧
      body.Covers (u.lead ++ front ++ block)) := by
  refine ⟨⟨?_, ?_⟩, parse_of_long hlex htokens, head_of_breaks htokens⟩
  · rintro ⟨script, body, hscript, hitems, hcovers⟩
    exact short_flows_of_parse hlex htokens hscript hitems hcovers
  · rintro ⟨hshort, hflows⟩
    have hr : (Cursor.ofLexed (lex source)).rest = u.tokens := htokens
    have hitems := TypedUsing.items_of_flows hshort hflows hr
    obtain ⟨script, hscript, hall⟩ := parse_eq_ok_iff.mpr ⟨hlex, hitems⟩
    refine ⟨script, _, hscript, hall, covers_bodySince ?_ ?_ fun _ _ _ _ k hk => by cases hk⟩
    · simp [hr, Cursor.goto]
    · simp [TypedUsing.tokens, TypedUsing.lead]

end Script

/-- A token on the first line of a source. -/
def Token.onFirstLine (kind : TokenKind) (lexeme : String) (offset : Nat) : Token :=
  ⟨kind, lexeme, ⟨offset, 1, offset + 1⟩, lexeme.utf8ByteSize⟩

/-- A type with an argument in front of the name. -/
def sampleListUsing : TypedUsing where
  word := .onFirstLine .usingWord "using" 0
  typeTokens := [.onFirstLine .identifier "List" 6, .onFirstLine .less "<" 10,
    .onFirstLine .identifier "int" 11, .onFirstLine .greater ">" 14]
  type := .mk [⟨"List", ⟨1, 7, 4⟩⟩] [.mk [⟨"int", ⟨1, 12, 3⟩⟩] [] [] ⟨1, 12, 3⟩] [] ⟨1, 7, 9⟩
  name := .onFirstLine .identifier "x" 16
  equal := .onFirstLine .equal "=" 18
  value := [.onFirstLine .identifier "y" 20]
  semicolon := .onFirstLine .semicolon ";" 21
  word_kind := rfl
  typeTokens_type := by
    refine .mk .none rfl .nil (.some rfl (.last (.mk .none rfl .nil .none .nil ?_)) rfl) .nil ?_
    · exact ⟨_, _, rfl, rfl, rfl⟩
    · exact ⟨_, _, rfl, rfl, rfl⟩
  name_kind := rfl
  equal_kind := rfl
  value_clear := .plain rfl rfl .nil
  semicolon_kind := rfl

/-- A value with a block at its end. -/
def sampleBlockUsing : TypedUsing where
  word := .onFirstLine .usingWord "using" 0
  typeTokens := [.onFirstLine .identifier "Foo" 6]
  type := .mk [⟨"Foo", ⟨1, 7, 3⟩⟩] [] [] ⟨1, 7, 3⟩
  name := .onFirstLine .identifier "x" 10
  equal := .onFirstLine .equal "=" 12
  value := [.onFirstLine .otherModifier "new" 14, .onFirstLine .identifier "Foo" 18,
    .onFirstLine (.opening .brace) "\x7b" 22, .onFirstLine (.closing .brace) "\x7d" 24]
  semicolon := .onFirstLine .semicolon ";" 25
  word_kind := rfl
  typeTokens_type := .mk .none rfl .nil .none .nil ⟨_, _, rfl, rfl, rfl⟩
  name_kind := rfl
  equal_kind := rfl
  value_clear := .plain rfl rfl (.plain rfl rfl (.group rfl rfl rfl .nil .nil))
  semicolon_kind := rfl

namespace Script

theorem sampleUsings_read :
    (∃ errors, parse "using List<int> x = y;" =
      .error (⟨.expectedToken .semicolon .identifier, ⟨1, 17, 1⟩⟩ :: errors)) ∧
    ∃ front block behind body,
      Breaks sampleBlockUsing.value front block behind [sampleBlockUsing.semicolon] ∧
      (parseLenient "using Foo x = new Foo \x7b \x7d;").1.items.head? = some (.statement body) ∧
      body.Covers (sampleBlockUsing.lead ++ front ++ block) := by
  have hlong : ¬ sampleListUsing.IsShort := by
    rintro (h | ⟨t, ht, h⟩)
    · exact absurd h (by decide)
    · obtain rfl : Token.onFirstLine .identifier "List" 6 = t := by simpa [sampleListUsing] using ht
      exact absurd h (by decide)
  have hblock : Breaks sampleBlockUsing.value (sampleBlockUsing.value.take 2)
      (sampleBlockUsing.value.drop 2) [] [sampleBlockUsing.semicolon] :=
    ⟨rfl, .plain rfl (by decide) (.plain rfl (by decide) .nil), ⟨_, [], _, rfl, rfl, rfl, .nil⟩,
      by decide +kernel⟩
  have hlist := parse_typedUsing sampleListUsing
    (by decide +kernel : (lex "using List<int> x = y;").errors = []) (by decide +kernel)
  have hfoo := parse_typedUsing sampleBlockUsing
    (by decide +kernel : (lex "using Foo x = new Foo \x7b \x7d;").errors = []) (by decide +kernel)
  exact ⟨hlist.2.1 hlong, hfoo.2.2 (.inl rfl) (hblock.not_flows rfl)⟩

/-- A variable of a type with an argument is written as it should be, and its script is not read. -/
theorem listUsing_rejected : (lex "using List<int> x = y;").errors = [] ∧
    (lex "using List<int> x = y;").tokens = sampleListUsing.tokens ∧
    ¬ ∃ script, parse "using List<int> x = y;" = .ok script := by
  refine ⟨by decide +kernel, by decide +kernel, ?_⟩
  have hfailed : (match parse "using List<int> x = y;" with
      | .ok _ => false
      | .error _ => true) = true := by
    decide +kernel
  rintro ⟨script, hscript⟩
  rw [hscript] at hfailed
  cases hfailed

end Script

end ScriptHost
