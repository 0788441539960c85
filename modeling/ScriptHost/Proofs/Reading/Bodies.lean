/-
# What the bodies of a script are ranges of

The body of a method is the balanced group in braces that stands behind its parameters and
constraints, or what stands there from a `=>` up to and with a `;`. So the range of a body
starts and ends with the tokens that a body is written with, and so does its text.

Key definitions: `BodyKind.Frames`, `Body.Covers`.
Key theorems: `body_cases`, `covers_body`, `body_of_method`, `frames_of_covers`.
-/
import ScriptHost.Proofs.Reading.Turns
import ScriptHost.Proofs.Token.Tiling

namespace ScriptHost

open Parse Source

/-! ### Ranges of tokens -/

/-- The kinds of token that the body of a method starts and ends with. -/
def BodyKind.ends? : BodyKind → Option (TokenKind × TokenKind)
  | .block => some (.opening .brace, .closing .brace)
  | .expression => some (.arrow, .semicolon)
  | .statement => none

/-- The body is the range of the tokens from the first of `w` to the last, and these are of
the kinds that it is written with. -/
def Body.Covers (b : Body) (w : List Token) : Prop :=
  ∃ t u, w.head? = some t ∧ w.getLast? = some u ∧ b.start = t.start.offset ∧
    b.stop = max u.stop t.start.offset ∧ ∀ k, b.kind.ends? = some k → k = (t.kind, u.kind)

variable {c d e : Cursor} {w r : List Token} {t : Token} {kind : BodyKind}

theorem readUpTo_eq (h : c.rest = w ++ d.rest) : c.readUpTo d = w := by
  have hlen : c.rest.length - d.rest.length = w.length := by
    rw [h, List.length_append]
    omega
  unfold Cursor.readUpTo
  rw [hlen, h, List.take_left]

/-- What was read between two places is a range of tokens. -/
theorem covers_bodySince (h : c.rest = w ++ d.rest) (hw : w ≠ [])
    (hends : ∀ t u, w.head? = some t → w.getLast? = some u →
      ∀ k, kind.ends? = some k → k = (t.kind, u.kind)) :
    (c.bodySince kind d).Covers w := by
  obtain ⟨t, r, rfl⟩ := List.exists_cons_of_ne_nil hw
  obtain ⟨u, hu⟩ : ∃ u, (t :: r).getLast? = some u := ⟨_, List.getLast?_eq_some_getLast hw⟩
  have hplace : c.place = t.start := by
    unfold Cursor.place
    rw [h]
    rfl
  have hstop : c.stopSince d = u.stop := by
    unfold Cursor.stopSince
    rw [readUpTo_eq h, hu]
    rfl
  refine ⟨t, u, rfl, hu, ?_, ?_, hends t u rfl hu⟩
  · show c.place.offset = t.start.offset
    rw [hplace]
  · show max (c.stopSince d) c.place.offset = max u.stop t.start.offset
    rw [hstop, hplace]

/-- What was read from one of the tokens that a body is written with to the other. -/
theorem covers_framed {v : List Token} {u : Token} (h : c.rest = (t :: v ++ [u]) ++ d.rest)
    (hk : kind.ends? = some (t.kind, u.kind)) : (c.bodySince kind d).Covers (t :: v ++ [u]) := by
  refine covers_bodySince h (by simp) fun t' u' ht hu k hends => ?_
  obtain rfl : t = t' := by simpa using ht
  obtain rfl : u = u' := by
    rw [List.getLast?_concat] at hu
    exact Option.some.inj hu
  exact Option.some.inj (hends.symm.trans hk)

/-! ### Bodies of methods -/

theorem here_bind_apply {α : Type} (k : Cursor → Parse α) (c : Cursor) : (here >>= k) c = k c c := rfl

/-- What is skipped up to a stop ends at one: there are fewer turns to take than tokens. -/
theorem stops_of_skipUntilWithin {stops : TokenKind → Bool} : ∀ (n : Nat) {c d : Cursor},
    skipUntilWithin stops n c = .done () d → c.rest.length < n →
      ∃ t r, d.rest = t :: r ∧ stops t.kind
  | 0, c, d, h, hn => by omega
  | n + 1, c, d, h, hn => by
    unfold skipUntilWithin at h
    split at h
    · cases h
    next t r hr =>
    rw [hr, List.length_cons] at hn
    split at h
    · next hst =>
      obtain rfl : c = d := by simpa using h
      exact ⟨t, r, hr, hst⟩
    split at h
    · next hst hk =>
      cases hg : skipGroup c with
      | done a g =>
        rw [hg] at h
        have hlt := takes_skipGroup c a g hg
        rw [hr, List.length_cons] at hlt
        exact stops_of_skipUntilWithin n h (by omega)
      | failed err g =>
        rw [hg] at h
        cases h
    · cases h
    · exact stops_of_skipUntilWithin n h (by simp only [Cursor.goto]; omega)

theorem stops_of_skipUntil {stops : TokenKind → Bool} (h : skipUntil stops c = .done () d) :
    ∃ t r, d.rest = t :: r ∧ stops t.kind :=
  stops_of_skipUntilWithin _ h (Nat.lt_succ_self _)

/-- The tokens of a group are its brackets and what is balanced between them. -/
theorem group_of_skipGroup {pair : Delimiter} {closer : Token} (hr : c.rest = t :: r)
    (hk : t.kind = .opening pair) (h : skipGroup c = .done closer d) :
    ∃ v, c.rest = (t :: v ++ [closer]) ++ d.rest ∧ Balanced v ∧ closer.kind = .closing pair := by
  unfold skipGroup at h
  rw [hr] at h
  simp only [hk] at h
  split at h
  · next closer' rest hc =>
    obtain ⟨rfl, rfl⟩ := Reply.done.inj h
    obtain ⟨v, rfl, hv, hcl⟩ := balanced_of_closed hc
    exact ⟨v, by rw [hr]; simp [Cursor.goto], hv, hcl⟩
  · cases h
  · cases h

/-- **The body of a method** is a balanced group in braces, or goes from a `=>` to a `;`. -/
theorem body_cases {b : Body} (h : body c = .done b d) :
    (∃ t v u, c.rest = (t :: v ++ [u]) ++ d.rest ∧ t.kind = .opening .brace ∧
        u.kind = .closing .brace ∧ Balanced v ∧ b = c.bodySince .block d) ∨
      ∃ t v u, c.rest = (t :: v ++ [u]) ++ d.rest ∧ t.kind = .arrow ∧ u.kind = .semicolon ∧
        b = c.bodySince .expression d := by
  unfold body at h
  rw [here_bind_apply] at h
  split at h
  · next hbrace =>
    obtain ⟨t, r, hr, hk⟩ := exists_of_isAt hbrace
    obtain ⟨closer, e, he, h⟩ := bind_eq_done.mp h
    obtain ⟨rfl, rfl⟩ := Reply.done.inj h
    obtain ⟨v, hv, hbalanced, hcl⟩ := group_of_skipGroup hr hk he
    exact .inl ⟨t, v, closer, hv, hk, hcl, hbalanced, rfl⟩
  · obtain ⟨b1, e1, he1, h⟩ := bind_eq_done.mp h
    rcases eat_eq .arrow c with ⟨t, r, hr, ht, he⟩ | he
    · rw [he] at he1
      obtain ⟨rfl, rfl⟩ := Reply.done.inj he1
      obtain ⟨_, e2, he2, h⟩ := bind_eq_done.mp h
      obtain ⟨b3, e3, he3, h⟩ := bind_eq_done.mp h
      obtain ⟨rfl, rfl⟩ := Reply.done.inj h
      obtain ⟨semi, rest, hs, hk⟩ := stops_of_skipUntil he2
      have hk : semi.kind = .semicolon := by simpa using hk
      obtain ⟨v, hv, -, -⟩ := (reads_skipUntil _).done he2
      have hv : r = v ++ e2.rest := hv
      obtain ⟨-, rfl⟩ : b3 = true ∧ e2.goto rest = e3 := by
        simpa [eat, Cursor.isAt, Cursor.kind?, Cursor.tail, hs, hk] using he3
      exact .inr ⟨t, v, semi, by rw [hr, hv, hs]; simp [Cursor.goto], ht, hk, rfl⟩
    · rw [he] at he1
      obtain ⟨rfl, rfl⟩ := Reply.done.inj he1
      cases h

/-- **A body covers the tokens that it is written with.** -/
theorem covers_body {b : Body} (h : body c = .done b d) :
    b.kind.ends? ≠ none ∧ ∃ w, c.rest = w ++ d.rest ∧ b.Covers w := by
  rcases body_cases h with ⟨t, v, u, hw, ht, hu, -, rfl⟩ | ⟨t, v, u, hw, ht, hu, rfl⟩
  · exact ⟨Option.some_ne_none _, _, hw, covers_framed hw (by rw [ht, hu]; rfl)⟩
  · exact ⟨Option.some_ne_none _, _, hw, covers_framed hw (by rw [ht, hu]; rfl)⟩

/-- A method ends with its body. -/
theorem body_of_method {start : Cursor} {modifiers : Modifiers} {returns : TypeExpr} {m : MethodDecl}
    (h : method start modifiers returns c = .done m d) :
    ∃ v e, c.rest = v ++ Cursor.rest e ∧ body e = .done m.body d := by
  obtain ⟨name, c1, h1, h⟩ := bind_eq_done.mp h
  obtain ⟨typeParams, c2, h2, h⟩ := bind_eq_done.mp h
  obtain ⟨params, c3, h3, h⟩ := bind_eq_done.mp h
  obtain ⟨_, c4, h4, h⟩ := bind_eq_done.mp h
  obtain ⟨b, c5, h5, h⟩ := bind_eq_done.mp h
  obtain ⟨rfl, rfl⟩ := Reply.done.inj h
  obtain ⟨w1, hw1, -⟩ := reads_expectIdentifier.done h1
  obtain ⟨w2, hw2, -⟩ := reads_typeParameters.done h2
  obtain ⟨w3, hw3, -⟩ := reads_parameters.done h3
  obtain ⟨w4, hw4, -⟩ := (reads_skipConstraints _).done h4
  refine ⟨w1 ++ w2 ++ w3 ++ w4, c4, ?_, h5⟩
  simp only [hw1, hw2, hw3, hw4, List.append_assoc]

/-! ### How bodies are written -/

/-- The text of a body of the kind starts and ends as it is written. -/
def BodyKind.Frames : BodyKind → List Char → Prop
  | .block, text => ['{'] <+: text ∧ ['}'] <:+ text
  | .expression, text => ['=', '>'] <+: text ∧ [';'] <:+ text
  | .statement, _ => True

/-- The piece of a body is framed by the tokens that it is written with. -/
theorem frames_of_covers {b : Body} {text : List Char} {u : Token} (h : b.Covers w)
    (ht : w.head? = some t) (hu : w.getLast? = some u)
    (hfirst : ∀ x, t.kind.spelling? = some x → x <+: text)
    (hlast : ∀ x, u.kind.spelling? = some x → x <:+ text) : b.kind.Frames text := by
  obtain ⟨t', u', ht', hu', -, -, hends⟩ := h
  obtain rfl : t = t' := Option.some.inj (ht.symm.trans ht')
  obtain rfl : u = u' := Option.some.inj (hu.symm.trans hu')
  cases hk : b.kind with
  | block =>
    obtain ⟨h1, h2⟩ := Prod.mk.inj (hends _ (by rw [hk]; rfl))
    exact ⟨hfirst _ (by rw [← h1]; rfl), hlast _ (by rw [← h2]; rfl)⟩
  | expression =>
    obtain ⟨h1, h2⟩ := Prod.mk.inj (hends _ (by rw [hk]; rfl))
    exact ⟨hfirst _ (by rw [← h1]; rfl), hlast _ (by rw [← h2]; rfl)⟩
  | statement => trivial

end ScriptHost
