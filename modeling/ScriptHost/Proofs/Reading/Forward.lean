/-
# Readers only go forward

A reader leaves an end of the tokens it was given, whether it succeeds or not, and what a
successful one took is balanced. So a reader that succeeds never stops inside a group that
it entered. A member takes one token at least.

Key definitions: `Parse.Reads`, `Parse.Takes`.
Key theorems: `Parse.Reads.bind`, `Parse.reads_commaSeparated`, `Parse.reads_typeExpr`,
`Parse.reads_member?`, `Parse.takes_member?`.
-/
import ScriptHost.Proofs.Reading.Brackets
import ScriptHost.Script.Basic

namespace ScriptHost
namespace Parse

/-- The reply leaves an end of the tokens at `c`, and took neutral tokens if it is a success. -/
def Leaves {α : Type} (c : Cursor) (r : Reply α) : Prop :=
  ∃ w, c.rest = w ++ r.next.rest ∧ r.next.finish = c.finish ∧ (r.isDone → Neutral w)

/-- The reader leaves an end of its tokens, and takes neutral tokens if it succeeds. -/
def Reads {α : Type} (p : Parse α) : Prop := ∀ c, Leaves c (p c)

variable {α β : Type}

/-- Readers in a row succeed if both do. -/
theorem bind_eq_done {p : Parse α} {k : α → Parse β} {c d : Cursor} {b : β} :
    (p >>= k) c = .done b d ↔ ∃ a e, p c = .done a e ∧ k a e = .done b d := by
  rw [bind_apply]
  constructor
  · intro h
    split at h
    · next a e he => exact ⟨a, e, he, h⟩
    · cases h
  · rintro ⟨a, e, he, h⟩
    rw [he]
    exact h

theorem map_eq_done {p : Parse α} {f : α → β} {c d : Cursor} {b : β} :
    (f <$> p) c = .done b d ↔ ∃ a, p c = .done a d ∧ f a = b := by
  rw [map_apply]
  constructor
  · intro h
    split at h
    · next a e he =>
      obtain ⟨rfl, rfl⟩ : f a = b ∧ e = d := by simpa using h
      exact ⟨a, he, rfl⟩
    · cases h
  · rintro ⟨a, he, rfl⟩
    rw [he]

/-- A reply behind neutral tokens. -/
theorem Leaves.behind {c d : Cursor} {w : List Token} {r : Reply α} (hw : c.rest = w ++ d.rest)
    (hf : d.finish = c.finish) (hn : Neutral w) (h : Leaves d r) : Leaves c r := by
  obtain ⟨v, hv, hvf, hvd⟩ := h
  exact ⟨w ++ v, by rw [List.append_assoc, ← hv, hw], hvf.trans hf, fun hr => hn.append (hvd hr)⟩

theorem Leaves.map {p : Parse α} {f : α → β} {c : Cursor} (h : Leaves c (p c)) :
    Leaves c ((f <$> p) c) := by
  obtain ⟨w, hw, hf, hn⟩ := h
  rw [map_apply]
  cases hp : p c with
  | done a d =>
    rw [hp] at hw hf hn
    exact ⟨w, hw, hf, fun _ => hn rfl⟩
  | failed e d =>
    rw [hp] at hw hf
    exact ⟨w, hw, hf, fun h => by cases h⟩

namespace Reads

theorem pure (a : α) : Reads (pure a : Parse α) := fun _ => ⟨[], rfl, rfl, fun _ => .nil⟩

/-- A reader that fails where it stands. -/
theorem complain (complaint : Complaint) : Reads (complain complaint : Parse α) :=
  fun _ => ⟨[], rfl, rfl, fun h => by cases h⟩

theorem here : Reads here := fun _ => ⟨[], rfl, rfl, fun _ => .nil⟩

/-- What a successful reader took and left. -/
theorem done {p : Parse α} (hp : Reads p) {c d : Cursor} {a : α} (h : p c = .done a d) :
    ∃ w, c.rest = w ++ d.rest ∧ d.finish = c.finish ∧ Neutral w := by
  obtain ⟨w, hw, hf, hd⟩ := hp c
  rw [h] at hw hf hd
  exact ⟨w, hw, hf, hd rfl⟩

/-- What a failed reader left. -/
theorem failed {p : Parse α} (hp : Reads p) {c d : Cursor} {e : ParseError}
    (h : p c = .failed e d) : ∃ w, c.rest = w ++ d.rest ∧ d.finish = c.finish := by
  obtain ⟨w, hw, hf, -⟩ := hp c
  rw [h] at hw hf
  exact ⟨w, hw, hf⟩

/-- The reply of another reader behind a successful one. -/
theorem then_leaves {p : Parse α} (hp : Reads p) {c d : Cursor} {a : α} {r : Reply β}
    (h : p c = .done a d) (hr : Leaves d r) : Leaves c r := by
  obtain ⟨w, hw, hf, hn⟩ := hp.done h
  exact hr.behind hw hf hn

/-- A problem that is handed on. -/
theorem failed_leaves {p : Parse α} (hp : Reads p) {c d : Cursor} {e : ParseError}
    (h : p c = .failed e d) : Leaves c (.failed e d : Reply β) := by
  obtain ⟨w, hw, hf⟩ := hp.failed h
  exact ⟨w, hw, hf, fun h => by cases h⟩

/-- **Readers in a row go forward, and take neutral tokens if both succeed.** -/
theorem bind {p : Parse α} {k : α → Parse β} (hp : Reads p) (hk : ∀ a, Reads (k a)) :
    Reads (p >>= k) := by
  intro c
  rw [bind_apply]
  split
  · next a d h => exact hp.then_leaves h (hk a d)
  · next e d h => exact hp.failed_leaves h

theorem map {p : Parse α} (f : α → β) (hp : Reads p) : Reads (f <$> p) := fun c => (hp c).map

theorem ite {b : Prop} [Decidable b] {p q : Parse α} (hp : Reads p) (hq : Reads q) :
    Reads (if b then p else q) := by
  split
  · exact hp
  · exact hq

end Reads

/-! ### Single tokens -/

theorem exists_of_isAt {kind : TokenKind} {c : Cursor} (h : c.isAt kind) :
    ∃ t r, c.rest = t :: r ∧ t.kind = kind := by
  cases hr : c.rest with
  | nil => simp [Cursor.isAt, Cursor.kind?, hr] at h
  | cons t r => exact ⟨t, r, rfl, by simpa [Cursor.isAt, Cursor.kind?, hr] using h⟩

theorem eat_eq (kind : TokenKind) (c : Cursor) :
    (∃ t r, c.rest = t :: r ∧ t.kind = kind ∧ eat kind c = .done true (c.goto r)) ∨
      eat kind c = .done false c := by
  unfold eat
  split
  · next h =>
    obtain ⟨t, r, hr, hk⟩ := exists_of_isAt h
    exact .inl ⟨t, r, hr, hk, by simp [Cursor.tail, hr]⟩
  · exact .inr rfl

theorem reads_eat {kind : TokenKind} (hk : kind.isBracket = false) : Reads (eat kind) := by
  intro c
  rcases eat_eq kind c with ⟨t, r, hr, ht, h⟩ | h
  · rw [h]
    exact ⟨[t], hr, rfl, fun _ => .single (by rw [ht]; exact hk)⟩
  · rw [h]
    exact ⟨[], rfl, rfl, fun _ => .nil⟩

theorem expect_eq (kind : TokenKind) (c : Cursor) :
    (∃ t r, c.rest = t :: r ∧ t.kind = kind ∧ expect kind c = .done t (c.goto r)) ∨
      ∃ e, expect kind c = .failed e c := by
  unfold expect
  split
  · exact .inr ⟨_, rfl⟩
  · next t r hr =>
    split
    · next ht => exact .inl ⟨t, r, hr, ht, rfl⟩
    · exact .inr ⟨_, rfl⟩

theorem reads_expect {kind : TokenKind} (hk : kind.isBracket = false) : Reads (expect kind) := by
  intro c
  rcases expect_eq kind c with ⟨t, r, hr, ht, h⟩ | ⟨e, h⟩
  · rw [h]
    exact ⟨[t], hr, rfl, fun _ => .single (by rw [ht]; exact hk)⟩
  · rw [h]
    exact ⟨[], rfl, rfl, fun h => by cases h⟩

theorem reads_expectIdentifier : Reads expectIdentifier := by
  intro c
  unfold expectIdentifier
  split
  · exact Reads.complain _ c
  · next t r hr =>
    split
    · next ht => exact ⟨[t], hr, rfl, fun _ => .single (by rw [ht]; rfl)⟩
    · exact Reads.complain _ c

theorem neutral_takeWhile {test : Token → Bool} (h : ∀ t, test t → t.kind.isBracket = false) :
    ∀ r : List Token, Neutral (r.takeWhile test)
  | [] => .nil
  | t :: r => by
    rw [List.takeWhile_cons]
    split
    · next ht => exact .cons (h t ht) (neutral_takeWhile h r)
    · exact .nil

theorem reads_takeKinds {test : TokenKind → Bool} (h : ∀ k, test k → k.isBracket = false) :
    Reads (takeKinds test) := fun c =>
  ⟨c.rest.takeWhile fun t => test t.kind, (List.takeWhile_append_dropWhile ..).symm, rfl,
    fun _ => neutral_takeWhile (fun t => h t.kind) _⟩

theorem reads_modifiers : Reads modifiers := by
  refine (reads_takeKinds fun k hk => ?_).bind fun kinds => .pure _
  cases k <;> simp_all [TokenKind.isModifier, TokenKind.isBracket]

/-! ### Lists and groups -/

theorem reads_commaSeparatedWithin {item : Parse α} (h : Reads item) :
    ∀ n, Reads (commaSeparatedWithin item n)
  | 0 => h.bind fun _ => .pure _
  | n + 1 => h.bind fun _ => (reads_eat rfl).bind fun _ =>
    .ite ((reads_commaSeparatedWithin h n).bind fun _ => .pure _) (.pure _)

theorem reads_commaSeparated {item : Parse α} (h : Reads item) : Reads (commaSeparated item) :=
  fun c => reads_commaSeparatedWithin h _ c

theorem reads_skipGroup : Reads skipGroup := by
  intro c
  unfold skipGroup
  split
  · exact Reads.complain _ c
  next t r hr =>
  split
  · next pair hk =>
    split
    · next closer rest hc =>
      obtain ⟨w, last, rfl, hw, hcl⟩ := nest_of_closed hc
      refine ⟨t :: w ++ [closer], by simp [hr, Reply.next, Cursor.goto], rfl, fun _ => ?_⟩
      rw [Neutral, List.cons_append, nest_opening hk, nest_append, hw]
      exact nest_closing hcl
    · next closer other rest hc =>
      obtain ⟨w, rfl⟩ := suffix_of_mismatched hc
      exact ⟨t :: w, by simp [hr, Reply.next, Cursor.goto], rfl, fun h => by cases h⟩
    · exact ⟨t :: r, by simp [hr, Reply.next, Cursor.goto], rfl, fun h => by cases h⟩
  · exact Reads.complain _ c

theorem reads_skipUntilWithin (stops : TokenKind → Bool) : ∀ n, Reads (skipUntilWithin stops n)
  | 0 => .pure ()
  | n + 1 => by
    intro c
    unfold skipUntilWithin
    split
    · exact Reads.complain _ c
    next t r hr =>
    split
    · exact Reads.pure () c
    split
    · split
      · next a d h => exact reads_skipGroup.then_leaves h (reads_skipUntilWithin stops n d)
      · next e d h => exact reads_skipGroup.failed_leaves h
    · exact Reads.complain _ c
    · next h1 h2 =>
      have ht : t.kind.isBracket = false := by
        cases hk : t.kind with
        | opening pair => exact absurd hk (h1 pair)
        | closing pair => exact absurd hk (h2 pair)
        | _ => rfl
      have hleft : c.rest = [t] ++ (c.goto r).rest := hr
      exact (reads_skipUntilWithin stops n (c.goto r)).behind hleft rfl (.single ht)

theorem reads_skipUntil (stops : TokenKind → Bool) : Reads (skipUntil stops) :=
  fun c => reads_skipUntilWithin stops _ c

theorem reads_skipAttributesWithin : ∀ n, Reads (skipAttributesWithin n)
  | 0 => .pure ()
  | n + 1 => by
    intro c
    unfold skipAttributesWithin
    split
    · split
      · next a d h => exact reads_skipGroup.then_leaves h (reads_skipAttributesWithin n d)
      · next e d h => exact reads_skipGroup.failed_leaves h
    · exact Reads.pure () c

theorem reads_skipAttributes : Reads skipAttributes := fun c => reads_skipAttributesWithin _ c

theorem reads_skipConstraints (stops : TokenKind → Bool) : Reads (skipConstraints stops) :=
  Reads.here.bind fun _ => .ite (reads_skipUntil stops) (.pure ())

/-! ### Types -/

theorem moreSegments_of_kind {t : Token} (h : t.kind ≠ .dot) (r : List Token) :
    moreSegments (t :: r) = ([], t :: r) := by
  cases r with
  | nil => rfl
  | cons u r => simp [moreSegments, h]

theorem moreSegments_of_next {t u : Token} (h : u.kind ≠ .identifier) (r : List Token) :
    moreSegments (t :: u :: r) = ([], t :: u :: r) := by
  simp [moreSegments, h]

theorem neutral_moreSegments : ∀ r : List Token, ∃ w, r = w ++ (moreSegments r).2 ∧ Neutral w
  | [] => ⟨[], rfl, .nil⟩
  | [t] => ⟨[], rfl, .nil⟩
  | point :: t :: r => by
    unfold moreSegments
    split
    · next h =>
      obtain ⟨w, hw, hn⟩ := neutral_moreSegments r
      refine ⟨point :: t :: w, ?_, .cons (by rw [h.1]; rfl) (.cons (by rw [h.2]; rfl) hn)⟩
      simp only [List.cons_append, ← hw]
    · exact ⟨[], rfl, .nil⟩

theorem reads_dottedName : Reads dottedName := by
  refine reads_expectIdentifier.bind fun first c => ?_
  obtain ⟨w, hw, hn⟩ := neutral_moreSegments c.rest
  exact ⟨w, hw, rfl, fun _ => hn⟩

theorem reads_typeArguments {type : Parse TypeExpr} (h : Reads type) : Reads (typeArguments type) := by
  refine Reads.here.bind fun opened => (reads_eat rfl).bind fun b => .ite ?_ (.pure _)
  exact (reads_commaSeparated h).bind fun args => (reads_eat rfl).bind fun b =>
    .ite (.pure _) (.complain _)

/-- A rank is closed by a bracket behind commas. -/
theorem neutral_closeRank? : ∀ {r rest : List Token}, closeRank? r = some rest →
    ∃ w closer, r = w ++ closer :: rest ∧ Neutral w ∧ closer.kind = .closing .bracket
  | t :: r, rest, h => by
    unfold closeRank? at h
    split at h
    · next hc =>
      obtain ⟨w, closer, rfl, hn, hk⟩ := neutral_closeRank? h
      exact ⟨t :: w, closer, rfl, .cons (by rw [hc]; rfl) hn, hk⟩
    · split at h
      · next hk =>
        obtain rfl := Option.some.inj h
        exact ⟨[], t, rfl, .nil, hk⟩
      · cases h

theorem neutral_typeSuffixesWithin : ∀ (n : Nat) (r : List Token),
    ∃ w, r = w ++ (typeSuffixesWithin n r).2 ∧ Neutral w
  | 0, r => ⟨[], rfl, .nil⟩
  | _ + 1, [] => ⟨[], rfl, .nil⟩
  | n + 1, t :: r => by
    unfold typeSuffixesWithin
    split
    · next hq =>
      obtain ⟨w, hw, hn⟩ := neutral_typeSuffixesWithin n r
      exact ⟨t :: w, by rw [List.cons_append, ← hw], .cons (by rw [hq]; rfl) hn⟩
    · split
      · next ho =>
        split
        · exact ⟨[], rfl, .nil⟩
        · next rest hr =>
          obtain ⟨v, closer, rfl, hv, hk⟩ := neutral_closeRank? hr
          obtain ⟨w, hw, hn⟩ := neutral_typeSuffixesWithin n rest
          refine ⟨t :: v ++ [closer] ++ w, ?_, (Neutral.group ho hk hv).append hn⟩
          simp only [List.append_assoc, List.cons_append, List.nil_append, ← hw]
      · exact ⟨[], rfl, .nil⟩

theorem reads_typeSuffixes : Reads typeSuffixes := fun c => by
  obtain ⟨w, hw, hn⟩ := neutral_typeSuffixesWithin c.rest.length c.rest
  exact ⟨w, hw, rfl, fun _ => hn⟩

theorem reads_typeParts {type : Parse TypeExpr} (start : Cursor) (h : Reads type) :
    Reads (typeParts start type) :=
  reads_dottedName.bind fun _ => (reads_typeArguments h).bind fun _ =>
    reads_typeSuffixes.bind fun _ => Reads.here.bind fun _ => .pure _

/-- In front of a type's name `global::` may stand. -/
theorem dropGlobal_eq (r : List Token) :
    dropGlobal r = r ∨ ∃ t colons, r = t :: colons :: dropGlobal r ∧ colons.kind = .operator := by
  unfold dropGlobal
  split
  · next t colons r =>
    split
    · next h => exact .inr ⟨t, colons, rfl, h.2.1⟩
    · exact .inl rfl
  · exact .inl rfl

theorem reads_typeExprWithin : ∀ n, Reads (typeExprWithin n)
  | 0 => fun c => Reads.complain _ c
  | n + 1 => fun c => by
    unfold typeExprWithin
    split
    · next h =>
      have hw : ∃ w, c.rest = w ++ (c.goto (dropGlobal c.rest)).rest ∧ Neutral w := by
        rcases dropGlobal_eq c.rest with hd | ⟨t, colons, hd, hk⟩
        · exact ⟨[], by rw [hd]; rfl, .nil⟩
        · have ht : t.kind = .identifier := by
            rw [Cursor.isAt, Cursor.kind?, hd] at h
            simpa using h
          exact ⟨[t, colons], hd, .cons (by rw [ht]; rfl) (.single (by rw [hk]; rfl))⟩
      obtain ⟨w, hw, hn⟩ := hw
      exact (reads_typeParts c (reads_typeExprWithin n) _).behind hw rfl hn
    · exact Reads.complain _ c

theorem reads_typeExpr : Reads typeExpr := fun c => reads_typeExprWithin _ c

theorem reads_typeParameter : Reads typeParameter := by
  refine reads_skipAttributes.bind fun _ => (reads_eat rfl).bind fun b => ?_
  exact .ite reads_expectIdentifier ((reads_eat rfl).bind fun _ => reads_expectIdentifier)

theorem reads_typeParameters : Reads typeParameters := by
  refine (reads_eat rfl).bind fun b => .ite ?_ (.pure _)
  exact (reads_commaSeparated reads_typeParameter).bind fun _ => (reads_expect rfl).bind fun _ =>
    .pure _

/-! ### Members -/

theorem reads_parameter : Reads parameter := by
  have hwords : Reads (takeKinds isParameterWord) :=
    reads_takeKinds fun k hk => by cases k <;> simp_all [isParameterWord, TokenKind.isBracket]
  refine reads_skipAttributes.bind fun _ => Reads.here.bind fun start => hwords.bind fun words =>
    reads_typeExpr.bind fun type => reads_expectIdentifier.bind fun name =>
      (reads_eat rfl).bind fun hasDefault => ?_
  have hend : Reads (here >>= fun stop => Pure.pure (⟨.ofKinds words, words.contains .thisWord, type,
      name, hasDefault, start.spanSince stop⟩ : ParameterDecl)) :=
    Reads.here.bind fun _ => .pure _
  exact .ite ((reads_skipUntil _).bind fun _ => hend) hend

/-- A parameter list takes its parentheses and neutral tokens in them. -/
theorem parameters_eq (c : Cursor) :
    (∃ ps d t w u, parameters c = .done ps d ∧ c.rest = t :: w ++ u :: d.rest ∧
      d.finish = c.finish ∧ t.kind = .opening .paren ∧ u.kind = .closing .paren ∧ Neutral w) ∨
    ∃ e d w, parameters c = .failed e d ∧ c.rest = w ++ d.rest ∧ d.finish = c.finish := by
  unfold parameters
  simp only [here, bind_apply]
  rcases eat_eq (.opening .paren) c with ⟨t, r, hr, ht, he⟩ | he
  · rw [he]
    simp only [↓reduceIte, bind_apply]
    rcases eat_eq (.closing .paren) (c.goto r) with ⟨u, r', hr', hu, he'⟩ | he'
    · rw [he']
      obtain rfl : r = u :: r' := hr'
      exact .inl ⟨[], _, t, [], u, rfl, hr, rfl, ht, hu, .nil⟩
    · rw [he']
      simp only [Bool.false_eq_true, ↓reduceIte, bind_apply]
      have hlist := reads_commaSeparated reads_parameter
      split
      · next params d hd =>
        obtain ⟨w, hw, hf, hn⟩ := hlist.done hd
        obtain rfl : r = w ++ d.rest := hw
        rcases expect_eq (.closing .paren) d with ⟨u, r', hu, hk, hx⟩ | ⟨e, hx⟩
        · rw [hx]
          exact .inl ⟨params, _, t, w, u, rfl, by rw [hr, hu]; rfl, hf, ht, hk, hn⟩
        · rw [hx]
          exact .inr ⟨e, d, t :: w, rfl, hr, hf⟩
      · next e d hd =>
        obtain ⟨w, hw, hf⟩ := hlist.failed hd
        obtain rfl : r = w ++ d.rest := hw
        exact .inr ⟨e, d, t :: w, rfl, hr, hf⟩
  · rw [he]
    exact .inr ⟨_, c, [], rfl, rfl, rfl⟩

theorem reads_parameters : Reads parameters := by
  intro c
  rcases parameters_eq c with ⟨ps, d, t, w, u, hp, hc, hf, ht, hu, hn⟩ | ⟨e, d, w, hp, hw, hf⟩
  · rw [hp]
    exact ⟨t :: w ++ [u], by simp [hc, Reply.next], hf, fun _ => Neutral.group ht hu hn⟩
  · rw [hp]
    exact ⟨w, hw, hf, fun h => by cases h⟩

/-- A parameter list that can be read is the group that stands there. -/
theorem skipGroup_of_parameters {c d : Cursor} {ps : List ParameterDecl}
    (h : parameters c = .done ps d) : ∃ closer, skipGroup c = .done closer d := by
  rcases parameters_eq c with ⟨ps', d', t, w, u, hp, hc, hf, ht, hu, hn⟩ | ⟨e, d', w, hp, -, -⟩
  · rw [hp] at h
    obtain ⟨-, rfl⟩ : ps' = ps ∧ d' = d := by simpa using h
    refine ⟨u, ?_⟩
    have hclose : closeGroup .paren [] (w ++ u :: d'.rest) = .closed u d'.rest := by
      rw [closeGroup_neutral hn]
      simp [closeGroup, hu]
    rw [List.cons_append] at hc
    simp only [skipGroup, hc, ht, hclose, Cursor.goto, ← hf]
  · rw [hp] at h
    cases h

theorem reads_body : Reads body := by
  refine Reads.here.bind fun start => .ite ?_ ?_
  · exact reads_skipGroup.bind fun _ => Reads.here.bind fun _ => .pure _
  · refine (reads_eat rfl).bind fun b => .ite ?_ (.complain _)
    exact (reads_skipUntil _).bind fun _ => (reads_eat rfl).bind fun _ => Reads.here.bind fun _ =>
      .pure _

theorem reads_method (start : Cursor) (modifiers : Modifiers) (returns : TypeExpr) :
    Reads (method start modifiers returns) :=
  reads_expectIdentifier.bind fun _ => reads_typeParameters.bind fun _ =>
    reads_parameters.bind fun _ => (reads_skipConstraints _).bind fun _ => reads_body.bind fun _ =>
      Reads.here.bind fun _ => .pure _

/-- The rest of a property behind its name. -/
theorem reads_accessors (start : Cursor) (modifiers : Modifiers) (type : TypeExpr) :
    ∃ k, property start modifiers type = expectIdentifier >>= k ∧ ∀ name, Reads (k name) := by
  refine ⟨_, rfl, fun name => Reads.here.bind fun accessors => ?_⟩
  have hend : Reads (here >>= fun stop => Pure.pure (⟨modifiers, type, name, start.spanSince stop⟩ :
      PropertyDecl)) :=
    Reads.here.bind fun _ => .pure _
  refine .ite (reads_skipGroup.bind fun _ => (reads_eat rfl).bind fun b => .ite ?_ hend)
    (reads_body.bind fun _ => hend)
  exact (reads_skipUntil _).bind fun _ => (reads_eat rfl).bind fun _ => hend

theorem reads_property (start : Cursor) (modifiers : Modifiers) (type : TypeExpr) :
    Reads (property start modifiers type) := by
  obtain ⟨k, hk, hr⟩ := reads_accessors start modifiers type
  rw [hk]
  exact reads_expectIdentifier.bind hr

theorem reads_declarator : Reads declarator := by
  refine reads_expectIdentifier.bind fun name => (reads_eat rfl).bind fun b => ?_
  exact .ite ((reads_skipUntil _).bind fun _ => .pure _) (.pure _)

theorem reads_field (start : Cursor) (modifiers : Modifiers) (type : TypeExpr) :
    Reads (field start modifiers type) :=
  (reads_commaSeparated reads_declarator).bind fun _ => (reads_expect rfl).bind fun _ =>
    Reads.here.bind fun _ => .pure _

/-- The sorts of member. -/
inductive MemberSort where
  | method
  | property
  | field

/-- The sort of member that a name and the kind of token behind it announce, if any;
`hasShape` says whether the shape of a method is found there. -/
def memberSort? (second? : Option TokenKind) (hasShape : Bool) : Option MemberSort :=
  match second? with
  | some (.opening .paren) | some .less => if hasShape then some .method else none
  | some (.opening .brace) | some .arrow => some .property
  | some .semicolon | some .equal | some .comma => some .field
  | _ => none

/-- The rest of a member of a sort from its name on. -/
def readMember (start : Cursor) (modifiers : Modifiers) (type : TypeExpr) :
    MemberSort → Parse (Option Item)
  | .method => (some ∘ .method) <$> method start modifiers type
  | .property => (some ∘ .property) <$> property start modifiers type
  | .field => (some ∘ .field) <$> field start modifiers type

/-- What stands next is no member, or a type and the rest of a member of some sort. -/
theorem member?_of_type {c named : Cursor} {type : TypeExpr} (start : Cursor) (modifiers : Modifiers)
    (h : typeExpr c = .done type named) :
    member? start modifiers c =
      if named.isAt .identifier then
        match memberSort? (named.kindAt? 1) (methodShape named).isDone with
        | some sort => readMember start modifiers type sort named
        | none => .done none c
      else .done none c := by
  unfold member?
  rw [h]
  simp only
  split
  · cases hk : named.kindAt? 1 with
    | none => rfl
    | some kind =>
      cases kind with
      | opening pair => cases pair <;> cases (methodShape named).isDone <;> rfl
      | less => cases (methodShape named).isDone <;> rfl
      | _ => rfl
  · rfl

theorem member?_of_failed {c d : Cursor} {e : ParseError} (start : Cursor) (modifiers : Modifiers)
    (h : typeExpr c = .failed e d) : member? start modifiers c = .done none c := by
  simp only [member?, h]

theorem reads_readMember (start : Cursor) (modifiers : Modifiers) (type : TypeExpr) :
    ∀ sort, Reads (readMember start modifiers type sort)
  | .method => (reads_method start modifiers type).map _
  | .property => (reads_property start modifiers type).map _
  | .field => (reads_field start modifiers type).map _

/-- A member that does not turn out to be one leaves the tokens as they were. -/
theorem reads_member? (start : Cursor) (modifiers : Modifiers) : Reads (member? start modifiers) := by
  intro c
  have hnone : Leaves c (.done none c : Reply (Option Item)) := ⟨[], rfl, rfl, fun _ => .nil⟩
  cases hd : typeExpr c with
  | failed e d =>
    rw [member?_of_failed start modifiers hd]
    exact hnone
  | done type named =>
    rw [member?_of_type start modifiers hd]
    split
    · split
      · next sort _ =>
        exact reads_typeExpr.then_leaves hd (reads_readMember start modifiers type sort named)
      · exact hnone
    · exact hnone

/-! ### Type declarations and usings -/

theorem reads_skipArguments : Reads skipArguments :=
  Reads.here.bind fun _ => .ite (reads_skipGroup.bind fun _ => .pure _) (.pure _)

theorem reads_baseType : Reads baseType :=
  reads_typeExpr.bind fun _ => reads_skipArguments.bind fun _ => .pure _

theorem reads_baseTypes : Reads baseTypes :=
  (reads_eat rfl).bind fun _ => .ite (reads_commaSeparated reads_baseType) (.pure _)

/-- The kind of type that a word announces. -/
def typeKindOf : TokenKind → TypeDeclKind
  | .classWord => .classDecl
  | .structWord => .structDecl
  | .interfaceWord => .interfaceDecl
  | .enumWord => .enumDecl
  | _ => .recordDecl

/-- The tokens behind the word of a type declaration; `record` may have another word. -/
def behindTypeWord (kind : TokenKind) : List Token → List Token
  | u :: r =>
    if kind = .recordWord ∧ (u.kind = .structWord ∨ u.kind = .classWord) then r else u :: r
  | [] => []

theorem typeWord_eq {c : Cursor} {t : Token} {r : List Token} (hr : c.rest = t :: r)
    (ht : t.kind.isTypeWord) :
    typeWord c = .done (typeKindOf t.kind) (c.goto (behindTypeWord t.kind r)) := by
  have htail : c.tail = c.goto r := by rw [Cursor.tail, hr]; rfl
  have hbehind (h : t.kind ≠ .recordWord) : behindTypeWord t.kind r = r := by
    cases r with
    | nil => rfl
    | cons u r => simp [behindTypeWord, h]
  cases hk : t.kind with
  | classWord | structWord | interfaceWord | enumWord =>
    rw [← hk, hbehind (by rw [hk]; simp)]
    simp [typeWord, Cursor.kind?, hr, hk, htail, typeKindOf]
  | recordWord =>
    simp only [typeWord, Cursor.kind?, hr, hk, htail, List.head?_cons, Option.map_some]
    cases r with
    | nil => rfl
    | cons u r =>
      simp only [Cursor.isAt, Cursor.kind?, Cursor.tail, Cursor.goto, List.head?_cons,
        Option.map_some, behindTypeWord, true_and, List.tail_cons]
      by_cases hu : u.kind = .structWord ∨ u.kind = .classWord
      · simp [hu, typeKindOf]
      · simp [hu, typeKindOf]
  | _ =>
    rw [hk] at ht
    cases ht

/-- The words of a type declaration are no brackets. -/
theorem neutral_behindTypeWord {t : Token} (ht : t.kind.isTypeWord) (r : List Token) :
    ∃ w, r = w ++ behindTypeWord t.kind r ∧ Neutral (t :: w) := by
  have hn : Neutral [t] := .single (by
    cases hk : t.kind <;> simp_all [TokenKind.isTypeWord, TokenKind.isBracket])
  cases r with
  | nil => exact ⟨[], rfl, hn⟩
  | cons u r =>
    simp only [behindTypeWord]
    split
    · next h =>
      refine ⟨[u], rfl, hn.append (.single ?_)⟩
      rcases h.2 with hu | hu <;> rw [hu] <;> rfl
    · exact ⟨[], rfl, hn⟩

theorem reads_aliasName? : Reads aliasName? := by
  intro c
  unfold aliasName?
  split
  · next t eq r hr =>
    split
    · next h =>
      exact ⟨[t, eq], hr, rfl, fun _ => .cons (by rw [h.1]; rfl) (.single (by rw [h.2]; rfl))⟩
    · exact Reads.pure none c
  · exact Reads.pure none c

theorem reads_usingDirective : Reads usingDirective :=
  Reads.here.bind fun _ => (reads_expect rfl).bind fun _ => (reads_eat rfl).bind fun _ =>
    reads_aliasName?.bind fun _ => reads_typeExpr.bind fun _ => (reads_expect rfl).bind fun _ =>
      Reads.here.bind fun _ => .pure _

/-- A type declaration reads on from behind its word. -/
theorem typeDecl_behindWord (start : Cursor) (modifiers : Modifiers) {c : Cursor} {t : Token}
    {r : List Token} (hr : c.rest = t :: r) (ht : t.kind.isTypeWord) :
    ∃ d w, c.rest = t :: w ++ d.rest ∧ d.finish = c.finish ∧ Neutral (t :: w) ∧
      Leaves d (typeDecl start modifiers c) := by
  obtain ⟨w, hw, hn⟩ := neutral_behindTypeWord ht r
  refine ⟨c.goto (behindTypeWord t.kind r), w, ?_, rfl, hn, ?_⟩
  · rw [hr, List.cons_append]
    exact congrArg _ hw
  unfold typeDecl
  rw [bind_apply, typeWord_eq hr ht]
  simp only
  refine (reads_expectIdentifier.bind fun name => reads_typeParameters.bind fun params =>
    reads_skipArguments.bind fun _ => reads_baseTypes.bind fun bases =>
      (reads_skipConstraints _).bind fun _ => Reads.here.bind fun inside => ?_) _
  have hend : Reads (here >>= fun stop => Pure.pure (⟨modifiers, typeKindOf t.kind, name, params,
      bases, start.spanSince stop⟩ : TypeDecl)) :=
    Reads.here.bind fun _ => .pure _
  exact .ite (reads_skipGroup.bind fun _ => (reads_eat rfl).bind fun _ => hend)
    ((reads_expect rfl).bind fun _ => hend)

theorem leaves_typeDecl (start : Cursor) (modifiers : Modifiers) {c : Cursor} {t : Token}
    {r : List Token} (hr : c.rest = t :: r) (ht : t.kind.isTypeWord) :
    Leaves c (typeDecl start modifiers c) := by
  obtain ⟨d, w, hw, hf, hn, hleaves⟩ := typeDecl_behindWord start modifiers hr ht
  exact hleaves.behind hw hf hn

/-! ### Progress -/

/-- A success takes a token at least. -/
def Takes {α : Type} (p : Parse α) : Prop :=
  ∀ c a d, p c = .done a d → d.rest.length < c.rest.length

/-- A reader that goes on behind one that takes a token takes one too. -/
theorem Takes.bind {p : Parse α} {k : α → Parse β} (hp : Takes p) (hk : ∀ a, Reads (k a)) :
    Takes (p >>= k) := by
  intro c b d h
  obtain ⟨a, e, he, hd⟩ := bind_eq_done.mp h
  have h1 := hp c a e he
  obtain ⟨w, hw, -, -⟩ := (hk a).done hd
  rw [hw, List.length_append] at h1
  omega

theorem Takes.map {p : Parse α} (f : α → β) (hp : Takes p) : Takes (f <$> p) := by
  intro c b d h
  obtain ⟨a, ha, -⟩ := map_eq_done.mp h
  exact hp c a d ha

/-- A reader that takes a token takes one behind another reader, too. -/
theorem Takes.after {p : Parse α} {k : α → Parse β} (hp : Reads p) (hk : ∀ a, Takes (k a)) :
    Takes (p >>= k) := by
  intro c b d h
  obtain ⟨a, e, he, hd⟩ := bind_eq_done.mp h
  obtain ⟨w, hw, -, -⟩ := hp.done he
  have h1 := hk a e b d hd
  rw [hw, List.length_append]
  omega

theorem takes_expectIdentifier : Takes expectIdentifier := by
  intro c a d h
  unfold expectIdentifier at h
  split at h
  · cases h
  · next t r hr =>
    split at h
    · obtain ⟨-, rfl⟩ : _ ∧ c.goto r = d := by simpa using h
      simp [Cursor.goto, hr]
    · cases h

theorem takes_dottedName : Takes dottedName :=
  takes_expectIdentifier.bind fun first c => by
    obtain ⟨w, hw, hn⟩ := neutral_moreSegments c.rest
    exact ⟨w, hw, rfl, fun _ => hn⟩

theorem takes_expect (kind : TokenKind) : Takes (expect kind) := by
  intro c a d h
  rcases expect_eq kind c with ⟨t, r, hr, -, hx⟩ | ⟨e, hx⟩
  · rw [hx] at h
    obtain ⟨-, rfl⟩ : t = a ∧ c.goto r = d := by simpa using h
    simp [Cursor.goto, hr]
  · rw [hx] at h
    cases h

theorem takes_skipGroup : Takes skipGroup := by
  intro c a d h
  unfold skipGroup at h
  split at h
  · cases h
  next t r hr =>
  split at h
  · split at h
    · next closer rest hc =>
      obtain ⟨-, rfl⟩ : closer = a ∧ c.goto rest = d := by simpa using h
      obtain ⟨w, last, rfl, -, -⟩ := nest_of_closed hc
      simp only [Cursor.goto, hr, List.length_cons, List.length_append]
      omega
    · cases h
    · cases h
  · cases h

theorem takes_method (start : Cursor) (modifiers : Modifiers) (returns : TypeExpr) :
    Takes (method start modifiers returns) :=
  takes_expectIdentifier.bind fun _ => reads_typeParameters.bind fun _ =>
    reads_parameters.bind fun _ => (reads_skipConstraints _).bind fun _ => reads_body.bind fun _ =>
      Reads.here.bind fun _ => .pure _

theorem takes_property (start : Cursor) (modifiers : Modifiers) (type : TypeExpr) :
    Takes (property start modifiers type) := by
  obtain ⟨k, hk, hr⟩ := reads_accessors start modifiers type
  rw [hk]
  exact takes_expectIdentifier.bind hr

theorem takes_field (start : Cursor) (modifiers : Modifiers) (type : TypeExpr) :
    Takes (field start modifiers type) :=
  .after (reads_commaSeparated reads_declarator) fun _ => (takes_expect _).bind fun _ =>
    Reads.here.bind fun _ => .pure _

theorem takes_usingDirective : Takes usingDirective :=
  .after .here fun _ => (takes_expect _).bind fun _ => (reads_eat rfl).bind fun _ =>
    reads_aliasName?.bind fun _ => reads_typeExpr.bind fun _ => (reads_expect rfl).bind fun _ =>
      Reads.here.bind fun _ => .pure _

theorem takes_readMember (start : Cursor) (modifiers : Modifiers) (type : TypeExpr) :
    ∀ sort, Takes (readMember start modifiers type sort)
  | .method => (takes_method start modifiers type).map _
  | .property => (takes_property start modifiers type).map _
  | .field => (takes_field start modifiers type).map _

/-- A member takes a token at least. -/
theorem takes_member? {start c d : Cursor} {modifiers : Modifiers} {item : Item}
    (h : member? start modifiers c = .done (some item) d) : d.rest.length < c.rest.length := by
  cases hd : typeExpr c with
  | failed e d' => simp [member?_of_failed start modifiers hd] at h
  | done type named =>
    rw [member?_of_type start modifiers hd] at h
    obtain ⟨w, hw, -, -⟩ := reads_typeExpr.done hd
    rw [hw, List.length_append]
    split at h
    · split at h
      · next sort _ =>
        have hlt := takes_readMember start modifiers type sort _ _ _ h
        omega
      · simp at h
    · simp at h

end Parse
end ScriptHost
