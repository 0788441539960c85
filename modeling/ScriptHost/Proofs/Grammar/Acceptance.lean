/-
# Readers that accept what is written

A reader accepts some tokens in front of others if it takes just these and gives the value that is
written with them. Readers in a row accept tokens that stand one behind the other. What ends a
reader is the first token that follows, so this has to be known: groups end by themselves, a
balanced run ends at a stop, attribute groups and lists end where no other one begins.

Key definitions: `Starts`, `Clear`, `ConstraintTokens`, `Separated`, `Angled`, `Parse.Accepts`.
Key theorems: `Parse.Accepts.bind`, `Parse.accepts_skipGroup`, `Parse.accepts_skipUntil`,
`Parse.accepts_skipAttributes`, `Parse.accepts_commaSeparated`, `Parse.accepts_angled`.
-/
import ScriptHost.Proofs.Reading.LocalItems
import ScriptHost.Proofs.Reading.Segments
import ScriptHost.Proofs.Token.Trivia

namespace ScriptHost

open Parse Source

/-! ### What tokens begin with -/

/-- The tokens begin with one of the kinds. -/
def Starts (kinds : List TokenKind) (r : List Token) : Prop := ∃ t ∈ r.head?, t.kind ∈ kinds

variable {kinds kinds' : List TokenKind} {kind : TokenKind} {t : Token} {r w more : List Token}

theorem Token.kind_of_isWord {word : String} (h : t.isWord word) : t.kind = .identifier := by
  rw [Token.isWord, Bool.and_eq_true, beq_iff_eq] at h
  exact h.1

theorem Starts.cons (h : t.kind ∈ kinds) (r : List Token) : Starts kinds (t :: r) := ⟨t, rfl, h⟩

theorem Starts.of_kind (h : t.kind = kind) (r : List Token) : Starts [kind] (t :: r) :=
  .cons (by rw [h]; exact List.mem_singleton_self _) r

theorem Starts.append (h : Starts kinds w) (r : List Token) : Starts kinds (w ++ r) := by
  obtain ⟨t, ht, hk⟩ := h
  obtain ⟨w, rfl⟩ := List.head?_eq_some_iff.mp ht
  exact .cons hk (w ++ r)

theorem Starts.mono (h : Starts kinds r) (hle : kinds ⊆ kinds') : Starts kinds' r := by
  obtain ⟨t, ht, hk⟩ := h
  exact ⟨t, ht, hle hk⟩

/-- A part that may be missing stands in front of another. -/
theorem Starts.optional (hw : w = [] ∨ Starts kinds w) (hr : Starts kinds' r) :
    Starts (kinds ++ kinds') (w ++ r) := by
  rcases hw with rfl | hw
  · exact hr.mono (List.subset_append_right kinds kinds')
  · exact (hw.append r).mono (List.subset_append_left kinds kinds')

/-- Of two parts both may be missing. -/
theorem Starts.optionals (hw : w = [] ∨ Starts kinds w) (hr : r = [] ∨ Starts kinds' r) :
    w ++ r = [] ∨ Starts (kinds ++ kinds') (w ++ r) := by
  rcases hr with rfl | hr
  · rw [List.append_nil]
    exact hw.imp_right fun h => h.mono (List.subset_append_left kinds kinds')
  · exact .inr (.optional hw hr)

theorem Starts.cons_eq (h : Starts kinds r) : ∃ t s, r = t :: s ∧ t.kind ∈ kinds := by
  obtain ⟨t, ht, hk⟩ := h
  obtain ⟨s, rfl⟩ := List.head?_eq_some_iff.mp ht
  exact ⟨t, s, rfl, hk⟩

/-- Tokens do not begin with a kind that is none of those they may begin with. -/
theorem Starts.kind_ne (h : Starts kinds r) (hk : kind ∉ kinds) : ∀ t ∈ r.head?, t.kind ≠ kind := by
  obtain ⟨u, hu, hmem⟩ := h
  rintro t ht rfl
  obtain rfl := Option.some.inj ((Option.mem_def.mp hu).symm.trans ht)
  exact hk hmem

/-! ### Balanced runs and lists -/

/-- Balanced tokens of which none outside the groups passes the test, and no group begins with one
that does. -/
inductive Clear (stops : TokenKind → Bool) : List Token → Prop
  | nil : Clear stops []
  | plain {t : Token} {r : List Token} (ht : t.kind.isBracket = false) (hs : stops t.kind = false)
    (hr : Clear stops r) : Clear stops (t :: r)
  | group {opener closer : Token} {pair : Delimiter} {inner r : List Token}
    (ho : opener.kind = .opening pair) (hs : stops opener.kind = false)
    (hc : closer.kind = .closing pair) (hi : Balanced inner) (hr : Clear stops r) :
    Clear stops (opener :: inner ++ closer :: r)

variable {stops stops' : TokenKind → Bool}

theorem Clear.balanced (h : Clear stops w) : Balanced w := by
  induction h with
  | nil => exact .nil
  | plain ht _ _ ih => exact .plain ht ih
  | group ho _ hc hi _ ih => exact .group ho hc hi ih

/-- A closing bracket does not stand outside the groups, so the test need not be known on it. -/
theorem Clear.mono (h : Clear stops w)
    (hle : ∀ kind, (∀ pair, kind ≠ .closing pair) → stops kind = false → stops' kind = false) :
    Clear stops' w := by
  have hclosing {kind : TokenKind} (hk : kind.isBracket = false) (pair : Delimiter) :
      kind ≠ .closing pair := by
    rintro rfl
    cases hk
  induction h with
  | nil => exact .nil
  | plain ht hs _ ih => exact .plain ht (hle _ (hclosing ht) hs) ih
  | group ho hs hc hi _ ih =>
    refine .group ho (hle _ (fun pair hk => ?_) hs) hc hi ih
    rw [ho] at hk
    cases hk

/-- Plain tokens of which none passes the test stand in front. -/
theorem Clear.append_plain {v : List Token} (hv : ∀ t ∈ v, t.kind.isBracket = false ∧ stops t.kind = false)
    (h : Clear stops w) : Clear stops (v ++ w) := by
  induction v with
  | nil => exact h
  | cons t v ih =>
    obtain ⟨ht, hv⟩ := List.forall_mem_cons.mp hv
    exact .plain ht.1 ht.2 (ih hv)

/-- Constraints: a run without a stop that begins with `where`, or nothing. -/
inductive ConstraintTokens (stops : TokenKind → Bool) : List Token → Prop
  | none : ConstraintTokens stops []
  | some {t : Token} {w : List Token} (ht : t.isWord "where") (h : Clear stops (t :: w)) :
    ConstraintTokens stops (t :: w)

theorem ConstraintTokens.mono (h : ConstraintTokens stops w)
    (hle : ∀ kind, (∀ pair, kind ≠ .closing pair) → stops kind = false → stops' kind = false) :
    ConstraintTokens stops' w := by
  cases h with
  | none => exact .none
  | some ht h => exact .some ht (h.mono hle)

theorem ConstraintTokens.starts (h : ConstraintTokens stops w) : w = [] ∨ Starts [.identifier] w := by
  cases h with
  | none => exact .inl rfl
  | some ht _ => exact .inr (.of_kind (Token.kind_of_isWord ht) _)

variable {α β : Type} {P : List Token → α → Prop}

/-- What is written with the tokens, one behind the other with commas between them. -/
inductive Separated (P : List Token → α → Prop) : List Token → List α → Prop
  | last {w : List Token} {a : α} (h : P w a) : Separated P w [a]
  | cons {v w : List Token} {comma : Token} {a : α} {as : List α} (h : P v a)
    (hc : comma.kind = .comma) (more : Separated P w as) : Separated P (v ++ comma :: w) (a :: as)

/-- A list in angle brackets, or nothing. -/
inductive Angled (P : List Token → α → Prop) : List Token → List α → Prop
  | none : Angled P [] []
  | some {opener closer : Token} {w : List Token} {as : List α} (ho : opener.kind = .less)
    (h : Separated P w as) (hc : closer.kind = .greater) : Angled P (opener :: w ++ [closer]) as

/-- A list begins with its first item. -/
theorem Separated.head {as : List α} {Q : Token → Prop} (h : Separated P w as)
    (hP : ∀ v a, P v a → ∃ t ∈ v.head?, Q t) : ∃ t ∈ w.head?, Q t := by
  cases h with
  | last h => exact hP _ _ h
  | cons h _ _ =>
    obtain ⟨t, ht, hQ⟩ := hP _ _ h
    obtain ⟨v, rfl⟩ := List.head?_eq_some_iff.mp ht
    exact ⟨t, rfl, hQ⟩

theorem Angled.starts {as : List α} (h : Angled P w as) : w = [] ∨ Starts [.less] w := by
  cases h with
  | none => exact .inl rfl
  | some ho _ _ => exact .inr (.of_kind ho _)

theorem AttributeGroups.starts (h : AttributeGroups w) : w = [] ∨ Starts [.opening .bracket] w := by
  cases h with
  | nil => exact .inl rfl
  | group ho _ _ _ => exact .inr (.of_kind ho _)

/-! ### Acceptance -/

namespace Parse

/-- The reader takes just the tokens `w` in front of `more`, and gives `a`. -/
def Accepts (finish : Position) (p : Parse α) (w more : List Token) (a : α) : Prop :=
  p ⟨w ++ more, finish⟩ = .done a ⟨more, finish⟩

variable {finish : Position} {p : Parse α} {k : α → Parse β} {v : List Token} {a : α} {b : β}

namespace Accepts

/-- **Readers in a row accept tokens one behind the other.** -/
theorem bind (hp : Accepts finish p v (w ++ more) a) (hk : Accepts finish (k a) w more b) :
    Accepts finish (p >>= k) (v ++ w) more b := by
  unfold Accepts at hp hk ⊢
  rw [List.append_assoc, bind_apply, hp]
  exact hk

theorem pure (a : α) : Accepts finish (Pure.pure a) [] more a := rfl

/-- A reader that takes nothing, and another one behind it. -/
theorem then_bind (hp : Accepts finish p [] (w ++ more) a) (hk : Accepts finish (k a) w more b) :
    Accepts finish (p >>= k) w more b :=
  hp.bind hk

/-- A reader that takes the first token, and another one behind it. -/
theorem cons_bind (hp : Accepts finish p [t] (w ++ more) a) (hk : Accepts finish (k a) w more b) :
    Accepts finish (p >>= k) (t :: w) more b :=
  hp.bind hk

/-- A reader behind which nothing is taken. -/
theorem bind_end (hp : Accepts finish p w more a) (hk : Accepts finish (k a) [] more b) :
    Accepts finish (p >>= k) w more b := by
  have h := bind (w := []) hp hk
  rwa [List.append_nil] at h

theorem map (f : α → β) (hp : Accepts finish p w more a) : Accepts finish (f <$> p) w more (f a) := by
  unfold Accepts at hp ⊢
  rw [map_apply, hp]

theorem here_bind {k : Cursor → Parse β} (hk : Accepts finish (k ⟨w ++ more, finish⟩) w more b) :
    Accepts finish (here >>= k) w more b :=
  hk

theorem pos {c : Prop} [Decidable c] {p q : Parse α} (hc : c) (h : Accepts finish p w more a) :
    Accepts finish (if c then p else q) w more a := by
  rwa [if_pos hc]

theorem neg {c : Prop} [Decidable c] {p q : Parse α} (hc : ¬ c) (h : Accepts finish q w more a) :
    Accepts finish (if c then p else q) w more a := by
  rwa [if_neg hc]

/-- A value that ends with the span of what was read. -/
theorem span_end (f : Span → α) {s : List Token} {span : Span} (hs : span.Spans s) :
    Accepts finish (here >>= fun stop => Pure.pure (f ((⟨s ++ more, finish⟩ : Cursor).spanSince stop)))
      [] more (f span) := by
  have hne : s ≠ [] := by
    obtain ⟨t, -, ht, -⟩ := hs
    rintro rfl
    cases ht
  have hspan := spans_spanSince (c := ⟨s ++ more, finish⟩) (d := ⟨more, finish⟩) rfl hne
  have heq : (⟨s ++ more, finish⟩ : Cursor).spanSince ⟨more, finish⟩ = span := by
    obtain ⟨t, u, ht, hu, rfl⟩ := hs
    obtain ⟨t', u', ht', hu', h⟩ := hspan
    obtain rfl := Option.some.inj (ht.symm.trans ht')
    obtain rfl := Option.some.inj (hu.symm.trans hu')
    exact h
  rw [← heq]
  rfl

end Accepts

/-! ### Single tokens -/

theorem isAt_of_kind_ne (h : ∀ t ∈ r.head?, t.kind ≠ kind) :
    (⟨r, finish⟩ : Cursor).isAt kind = false := by
  unfold Cursor.isAt Cursor.kind?
  cases hr : r.head? with
  | none => rfl
  | some t => simpa using h t hr

theorem isAt_of_kind (h : t.kind = kind) : (⟨t :: r, finish⟩ : Cursor).isAt kind = true := by
  simp [Cursor.isAt, Cursor.kind?, h]

theorem isAt_of_starts (h : Starts [kind] r) : (⟨r, finish⟩ : Cursor).isAt kind = true := by
  obtain ⟨t, s, rfl, hk⟩ := h.cons_eq
  exact isAt_of_kind (List.mem_singleton.mp hk)

theorem accepts_eat (h : t.kind = kind) : Accepts finish (eat kind) [t] more true := by
  unfold Accepts eat
  rw [List.singleton_append, isAt_of_kind h]
  rfl

theorem accepts_eat_none (h : ∀ t ∈ more.head?, t.kind ≠ kind) :
    Accepts finish (eat kind) [] more false := by
  unfold Accepts eat
  rw [List.nil_append, isAt_of_kind_ne h]
  rfl

theorem accepts_expect (h : t.kind = kind) : Accepts finish (expect kind) [t] more t := by
  simp [Accepts, expect, h, Cursor.goto]

theorem accepts_expectIdentifier (h : t.kind = .identifier) :
    Accepts finish expectIdentifier [t] more (.ofToken t) := by
  simp [Accepts, expectIdentifier, h, Cursor.goto]

/-- Words that pass a test are taken up to a token that does not. -/
theorem accepts_takeKinds {test : TokenKind → Bool} (hw : ∀ t ∈ w, test t.kind = true)
    (hmore : ∀ t ∈ more.head?, test t.kind = false) :
    Accepts finish (takeKinds test) w more (w.map (·.kind)) := by
  obtain ⟨htaken, hleft⟩ := while_exact hw hmore
  simp only [Accepts, takeKinds, Cursor.goto, htaken, hleft]

/-! ### Groups and balanced runs -/

/-- **A group is accepted**, whatever is balanced between its brackets. -/
theorem accepts_skipGroup {opener closer : Token} {pair : Delimiter} {inner : List Token}
    (ho : opener.kind = .opening pair) (hc : closer.kind = .closing pair) (hi : Balanced inner) :
    Accepts finish skipGroup (opener :: inner ++ [closer]) more closer := by
  have hclose : closeGroup pair [] (inner ++ closer :: more) = .closed closer more := by
    rw [closeGroup_neutral (neutral_of_balanced hi)]
    simp [closeGroup, hc]
  simp [Accepts, skipGroup, ho, hclose, Cursor.goto]

/-- A run without a stop is skipped up to the stop behind it, by induction on the run. -/
theorem skipUntilWithin_clear (h : Clear stops w) (ht : stops t.kind = true) : ∀ {n : Nat},
    w.length < n → skipUntilWithin stops n ⟨w ++ t :: more, finish⟩ = .done () ⟨t :: more, finish⟩ := by
  induction h with
  | nil =>
    intro n hn
    obtain ⟨n, rfl⟩ := Nat.exists_eq_add_one_of_ne_zero (Nat.ne_of_gt hn)
    exact skipUntilWithin_stop n rfl ht
  | @plain u r hu hs _ ih =>
    intro n hn
    obtain ⟨n, rfl⟩ := Nat.exists_eq_add_one_of_ne_zero (Nat.ne_of_gt (Nat.zero_lt_of_lt hn))
    rw [List.length_cons] at hn
    rw [List.cons_append, skipUntilWithin_plain n rfl hs hu]
    exact ih (by omega)
  | @group opener closer pair inner r ho hs hc hi _ ih =>
    intro n hn
    obtain ⟨n, rfl⟩ := Nat.exists_eq_add_one_of_ne_zero (Nat.ne_of_gt (Nat.zero_lt_of_lt hn))
    simp only [List.length_append, List.length_cons] at hn
    have hgroup : Accepts finish skipGroup (opener :: inner ++ [closer]) (r ++ t :: more) closer :=
      accepts_skipGroup ho hc hi
    have hsplit : opener :: inner ++ closer :: r ++ t :: more =
        opener :: inner ++ [closer] ++ (r ++ t :: more) := by simp
    rw [hsplit, skipUntilWithin_opening n rfl hs ho, bind_apply, hgroup]
    exact ih (by omega)

/-- **A run without a stop is accepted in front of one.** -/
theorem accepts_skipUntil (h : Clear stops w) (hmore : Starts kinds more)
    (hstops : ∀ kind ∈ kinds, stops kind = true) : Accepts finish (skipUntil stops) w more () := by
  obtain ⟨t, r, rfl, ht⟩ := hmore.cons_eq
  refine skipUntilWithin_clear h (hstops t.kind ht) ?_
  simp only [List.length_append, List.length_cons]
  omega

/-- Attribute groups are skipped up to a token that begins no other one. -/
theorem skipAttributesWithin_groups (h : AttributeGroups w)
    (hmore : ∀ t ∈ more.head?, t.kind ≠ .opening .bracket) : ∀ {n : Nat}, w.length ≤ n →
      skipAttributesWithin n ⟨w ++ more, finish⟩ = .done () ⟨more, finish⟩ := by
  induction h with
  | nil =>
    intro n _
    cases n with
    | zero => rfl
    | succ n => simp [skipAttributesWithin, isAt_of_kind_ne hmore]
  | @group opener closer inner r ho hc hi _ ih =>
    intro n hn
    simp only [List.length_append, List.length_cons] at hn
    obtain ⟨n, rfl⟩ := Nat.exists_eq_add_one_of_ne_zero (show n ≠ 0 by omega)
    have hgroup : Accepts finish skipGroup (opener :: inner ++ [closer]) (r ++ more) closer :=
      accepts_skipGroup ho hc hi
    have hsplit : opener :: inner ++ closer :: r ++ more =
        opener :: inner ++ [closer] ++ (r ++ more) := by simp
    have hat : (⟨opener :: inner ++ [closer] ++ (r ++ more), finish⟩ : Cursor).isAt
        (.opening .bracket) = true := isAt_of_kind ho
    rw [hsplit, skipAttributesWithin]
    simp only [hat, ↓reduceIte]
    rw [hgroup]
    exact ih (by omega)

theorem accepts_skipAttributes (h : AttributeGroups w)
    (hmore : ∀ t ∈ more.head?, t.kind ≠ .opening .bracket) :
    Accepts finish skipAttributes w more () := by
  refine skipAttributesWithin_groups h hmore ?_
  simp

/-- Constraints are accepted in front of a token at which they end, if that is no name. -/
theorem accepts_skipConstraints (h : ConstraintTokens stops w) (hmore : Starts kinds more)
    (hstops : ∀ kind ∈ kinds, stops kind = true ∧ kind ≠ .identifier) :
    Accepts finish (skipConstraints stops) w more () := by
  refine .here_bind ?_
  cases h with
  | none =>
    obtain ⟨t, r, rfl, ht⟩ := hmore.cons_eq
    refine .neg ?_ (.pure ())
    simp [Cursor.isAtWord, Token.isWord, (hstops t.kind ht).2]
  | some hword h => exact .pos hword (accepts_skipUntil h hmore fun kind hk => (hstops kind hk).1)

/-! ### Lists -/

/-- An item, a comma and the list behind it. -/
theorem commaSeparatedWithin_cons {item : Parse α} {n : Nat} {comma : Token} {as : List α}
    (hitem : Accepts finish item v (comma :: w ++ more) a) (hc : comma.kind = .comma)
    (hmore : Accepts finish (commaSeparatedWithin item n) w more as) :
    Accepts finish (commaSeparatedWithin item (n + 1)) (v ++ comma :: w) more (a :: as) :=
  hitem.bind ((accepts_eat hc).cons_bind (.pos rfl (hmore.bind_end (.pure (a :: as)))))

/-- A list with commas, whatever bound beyond its length there is on their number, by induction on
the list. Every item stands in front of what ends the list, or of a comma. -/
theorem commaSeparatedWithin_separated {item : Parse α} {as : List α} (h : Separated P w as)
    (hmore : ∀ t ∈ more.head?, t.kind ≠ .comma)
    (hitem : ∀ v rest a, P v a → v ++ rest <:+ w ++ more → (rest = more ∨ Starts [.comma] rest) →
      Accepts finish item v rest a) : ∀ {n : Nat}, w.length ≤ n →
        Accepts finish (commaSeparatedWithin item n) w more as := by
  induction h with
  | @last w a ha =>
    intro n _
    have hlast := hitem w more a ha List.suffix_rfl (.inl rfl)
    cases n with
    | zero => exact hlast.bind_end (.pure [a])
    | succ n =>
      refine hlast.bind_end ((accepts_eat_none hmore).then_bind ?_)
      exact .neg Bool.false_ne_true (.pure [a])
  | @cons v w comma a as ha hc _ ih =>
    intro n hn
    simp only [List.length_append, List.length_cons] at hn
    obtain ⟨n, rfl⟩ := Nat.exists_eq_add_one_of_ne_zero (show n ≠ 0 by omega)
    have hsuffix : v ++ (comma :: w ++ more) <:+ v ++ comma :: w ++ more :=
      ⟨[], (List.append_assoc v (comma :: w) more).symm⟩
    have hfirst := hitem v (comma :: w ++ more) a ha hsuffix (.inr (.of_kind hc _))
    have hrest : Accepts finish (commaSeparatedWithin item n) w more as := by
      refine ih (fun u rest b hb hsuffix => hitem u rest b hb (hsuffix.trans ?_)) (by omega)
      exact ⟨v ++ [comma], by simp⟩
    exact commaSeparatedWithin_cons hfirst hc hrest

/-- **A list with commas is accepted** where its items are, in front of a comma or what ends it. -/
theorem accepts_commaSeparated {item : Parse α} {as : List α} (h : Separated P w as)
    (hmore : Starts kinds more) (hkinds : .comma ∉ kinds)
    (hitem : ∀ v rest a, P v a → v ++ rest <:+ w ++ more → Starts (.comma :: kinds) rest →
      Accepts finish item v rest a) : Accepts finish (commaSeparated item) w more as := by
  refine commaSeparatedWithin_separated h (hmore.kind_ne hkinds) (fun v rest a ha hs hrest => ?_) (by simp)
  refine hitem v rest a ha hs ?_
  rcases hrest with rfl | hrest
  · exact hmore.mono (List.subset_cons_self .comma kinds)
  · exact hrest.mono (by simp)

/-- **A list in angle brackets is accepted** where its items are in front of a comma or `>`. -/
theorem accepts_angled {item : Parse α} {close : List α → Parse (List α)} {as : List α}
    (h : Angled P w as) (hmore : ∀ t ∈ more.head?, t.kind ≠ .less)
    (hitem : ∀ v rest a, P v a → v ++ rest <:+ w ++ more → Starts [.comma, .greater] rest →
      Accepts finish item v rest a)
    (hclose : ∀ t, t.kind = .greater → Accepts finish (close as) [t] more as) :
    Accepts finish (eat .less >>= fun opened => if opened then commaSeparated item >>= close else
      Pure.pure []) w more as := by
  cases h with
  | none => exact (accepts_eat_none hmore).then_bind (.neg Bool.false_ne_true (.pure _))
  | @some opener closer w as ho hsep hc =>
    have hcloser : Starts [.greater] (closer :: more) := .of_kind hc _
    have hlist : Accepts finish (commaSeparated item) w (closer :: more) as :=
      accepts_commaSeparated hsep hcloser (by decide) fun v rest a ha hs hrest =>
        hitem v rest a ha (hs.trans ⟨[opener], by simp⟩) hrest
    exact (accepts_eat ho).cons_bind (.pos rfl (hlist.bind (hclose closer hc)))

end Parse
end ScriptHost
