/-
# Two versions of a text, read in step

An edit leaves most tokens of a text what they are, up to their places, and may exchange what
stands inside a pair of braces. The tokens of both versions are then the same pieces, a token
or a block in braces each, and a reader treats them alike: on both versions it takes the same
pieces, and gives the same value up to places or a problem of the same kind. This is proved
for each reader from those it is made of; that no reader stops inside a block comes from the
search for the end of a group, which passes over whole blocks.

Key definitions: `Side`, `Edit`, `Piece`, `Edit.cursor`, `Keeps`, `InStep`.
Key theorems: `InStep.bind`, `inStep_commaSeparated`, `inStep_skipGroup`, `inStep_skipUntil`.
-/
import ScriptHost.Proofs.Item.Bare
import ScriptHost.Proofs.Reading.Locality

namespace ScriptHost

open Parse Source

/-- The versions of a text. -/
inductive Side where
  | before
  | after

/-- An edit: which bytes of the two versions are the same place, and where each one ends. -/
structure Edit where
  same : Nat → Nat → Prop
  same_max {i i' j j' : Nat} : same i i' → same j j' → same (max i j) (max i' j')
  finish : Side → Position
  ends : same (finish .before).offset (finish .after).offset

namespace Edit

variable (e : Edit)

/-- A token of both versions, at the same place in each. -/
structure Twins (t : Side → Token) : Prop where
  kind : ∀ s, (t s).kind = (t .before).kind
  lexeme : ∀ s, (t s).lexeme = (t .before).lexeme
  start : e.same (t .before).start.offset (t .after).start.offset
  stop : e.same (t .before).stop (t .after).stop

/-- A pair of braces of both versions, at the same place in each, with balanced tokens between
them that are each version's own. -/
structure Braces (opener closer : Side → Token) (inner : Side → List Token) : Prop where
  opens : ∀ s, (opener s).kind = .opening .brace
  closes : ∀ s, (closer s).kind = .closing .brace
  lexeme : ∀ s, (opener s).lexeme = (opener .before).lexeme
  neutral : ∀ s, Neutral (inner s)
  start : e.same (opener .before).start.offset (opener .after).start.offset
  stop : e.same (closer .before).stop (closer .after).stop

end Edit

/-- What both versions consist of. -/
inductive Piece (e : Edit) where
  | token (t : Side → Token) (h : e.Twins t)
  | block (opener closer : Side → Token) (inner : Side → List Token)
    (h : e.Braces opener closer inner)

variable {e : Edit} {α β γ : Type}

namespace Piece

/-- The tokens of a piece in a version. -/
def tokens (s : Side) : Piece e → List Token
  | token t _ => [t s]
  | block opener closer inner _ => opener s :: inner s ++ [closer s]

/-- The first token of a piece in a version. -/
def first (s : Side) : Piece e → Token
  | token t _ => t s
  | block opener _ _ _ => opener s

/-- The last token of a piece in a version. -/
def last (s : Side) : Piece e → Token
  | token t _ => t s
  | block _ closer _ _ => closer s

/-- The kind of the first token of a piece. -/
def kind (p : Piece e) : TokenKind := (p.first .before).kind

/-- The text of the first token of a piece. -/
def lexeme (p : Piece e) : String := (p.first .before).lexeme

@[simp] theorem kind_token (t : Side → Token) (h : e.Twins t) (s : Side) :
    (t s).kind = (token t h).kind := h.kind s

@[simp] theorem kind_block {opener closer : Side → Token} {inner : Side → List Token}
    (h : e.Braces opener closer inner) : (block opener closer inner h).kind = .opening .brace :=
  h.opens _

variable (p : Piece e) (s : Side)

theorem kind_first : (p.first s).kind = p.kind := by
  cases p with
  | token t h => exact h.kind s
  | block opener closer inner h => exact (h.opens s).trans (h.opens _).symm

theorem lexeme_first : (p.first s).lexeme = p.lexeme := by
  cases p with
  | token t h => exact h.lexeme s
  | block opener closer inner h => exact h.lexeme s

theorem isWord_first (word : String) :
    (p.first s).isWord word = (p.kind == .identifier && p.lexeme == word) := by
  rw [Token.isWord, p.kind_first, p.lexeme_first]

/-- A piece begins with its first token. -/
theorem tokens_eq_cons : ∃ r, p.tokens s = p.first s :: r := by
  cases p <;> exact ⟨_, rfl⟩

theorem getLast?_tokens : (p.tokens s).getLast? = some (p.last s) := by
  cases p with
  | token t h => rfl
  | block opener closer inner h => exact List.getLast?_concat

theorem same_start : e.same (p.first .before).start.offset (p.first .after).start.offset := by
  cases p with
  | token t h => exact h.start
  | block opener closer inner h => exact h.start

theorem same_stop : e.same (p.last .before).stop (p.last .after).stop := by
  cases p with
  | token t h => exact h.stop
  | block opener closer inner h => exact h.stop

/-- Only a brace begins a block. -/
theorem eq_token {p : Piece e} (h : p.kind ≠ .opening .brace) : ∃ t ht, p = token t ht := by
  cases p with
  | token t ht => exact ⟨t, ht, rfl⟩
  | block opener closer inner hb => exact absurd (kind_block hb) h

end Piece

/-! ### The cursors of the versions -/

namespace Edit

variable (e : Edit) (ps qs w : List (Piece e)) (s : Side)

/-- The pieces as a cursor sees them in a version. -/
def cursor (ps : List (Piece e)) (s : Side) : Cursor := ⟨ps.flatMap (Piece.tokens s), e.finish s⟩

theorem rest_append : (e.cursor (w ++ qs) s).rest = w.flatMap (Piece.tokens s) ++ (e.cursor qs s).rest :=
  List.flatMap_append

theorem rest_cons (p : Piece e) : ∃ r, (e.cursor (p :: qs) s).rest = p.first s :: r := by
  obtain ⟨r, hr⟩ := p.tokens_eq_cons s
  exact ⟨r ++ (e.cursor qs s).rest, by rw [cursor, List.flatMap_cons, hr]; rfl⟩

theorem rest_token (t : Side → Token) (ht : e.Twins t) :
    (e.cursor (.token t ht :: qs) s).rest = t s :: (e.cursor qs s).rest := rfl

theorem rest_block {opener closer : Side → Token} {inner : Side → List Token}
    (h : e.Braces opener closer inner) :
    (e.cursor (.block opener closer inner h :: qs) s).rest =
      opener s :: (inner s ++ closer s :: (e.cursor qs s).rest) := by
  simp [cursor, Piece.tokens]

theorem head?_rest : (e.cursor ps s).rest.head? = ps.head?.map (Piece.first s) := by
  cases ps with
  | nil => rfl
  | cons p qs =>
    obtain ⟨r, hr⟩ := e.rest_cons qs s p
    rw [hr]
    rfl

theorem kind?_cursor : (e.cursor ps s).kind? = ps.head?.map Piece.kind := by
  rw [Cursor.kind?, head?_rest, Option.map_map]
  exact congrArg (Option.map · _) (funext fun p => p.kind_first s)

/-- Both versions begin with a token of one kind. -/
theorem exists_cons {t : Token} {r : List Token} (h : (e.cursor ps s).rest = t :: r) (s' : Side) :
    ∃ u r', (e.cursor ps s').rest = u :: r' ∧ u.kind = t.kind := by
  have hkind : (e.cursor ps s').kind? = some t.kind := by
    rw [kind?_cursor, ← kind?_cursor e ps s, Cursor.kind?, h]
    rfl
  cases hr : (e.cursor ps s').rest with
  | nil => simp [Cursor.kind?, hr] at hkind
  | cons u r' =>
    rw [Cursor.kind?, hr] at hkind
    exact ⟨u, r', rfl, Option.some.inj hkind⟩

theorem isAt_cursor (kind : TokenKind) :
    (e.cursor ps s).isAt kind = (ps.head?.map Piece.kind == some kind) := by
  rw [Cursor.isAt, kind?_cursor]

theorem isAtWord_cursor (word : String) :
    (e.cursor ps s).isAtWord word =
      ps.head?.any fun p => p.kind == .identifier && p.lexeme == word := by
  rw [Cursor.isAtWord, head?_rest, Option.any_map]
  exact congrArg (Option.any · _) (funext fun p => p.isWord_first s word)

/-- There are no fewer tokens than pieces. -/
theorem length_le : ps.length ≤ (e.cursor ps s).rest.length := by
  induction ps with
  | nil => exact Nat.le_refl _
  | cons p qs ih =>
    obtain ⟨r, hr⟩ := p.tokens_eq_cons s
    simp only [cursor, List.flatMap_cons, hr, List.length_append, List.length_cons] at ih ⊢
    omega

variable {e ps qs w s}

/-- What is left is fewer pieces if it is fewer tokens. -/
theorem length_lt (hps : ps = w ++ qs)
    (h : (e.cursor qs s).rest.length < (e.cursor ps s).rest.length) : qs.length < ps.length := by
  subst hps
  cases w with
  | nil => exact absurd h (Nat.lt_irrefl _)
  | cons p w =>
    simp only [List.cons_append, List.length_cons, List.length_append]
    omega

/-- As many tokens are left only if all pieces are. -/
theorem length_eq_iff (hps : ps = w ++ qs) :
    (e.cursor qs s).rest.length = (e.cursor ps s).rest.length ↔ w = [] := by
  have hw := e.length_le w s
  subst hps
  rw [rest_append, List.length_append]
  constructor
  · intro h
    refine List.length_eq_zero_iff.mp ?_
    rw [cursor] at hw
    simp only at hw
    omega
  · rintro rfl
    exact (Nat.zero_add _).symm

/-! ### Places -/

theorem same_place (ps : List (Piece e)) :
    e.same (e.cursor ps .before).place.offset (e.cursor ps .after).place.offset := by
  have hplace (s : Side) : (e.cursor ps s).place =
      match ps with
      | [] => e.finish s
      | p :: _ => (p.first s).start := by
    cases ps with
    | nil => rfl
    | cons p qs =>
      obtain ⟨r, hr⟩ := e.rest_cons qs s p
      rw [Cursor.place, hr]
  rw [hplace, hplace]
  cases ps with
  | nil => exact e.ends
  | cons p qs => exact p.same_start

theorem readUpTo_cursor (hps : ps = w ++ qs) (s : Side) :
    (e.cursor ps s).readUpTo (e.cursor qs s) = w.flatMap (Piece.tokens s) := by
  subst hps
  rw [Cursor.readUpTo, rest_append, List.length_append, Nat.add_sub_cancel]
  exact List.take_left

/-- What was read of both versions ends at the same place. -/
theorem same_stopSince (hps : ps = w ++ qs) :
    e.same ((e.cursor ps .before).stopSince (e.cursor qs .before))
      ((e.cursor ps .after).stopSince (e.cursor qs .after)) := by
  have hplace := e.same_place ps
  rcases w.eq_nil_or_concat with rfl | ⟨v, p, rfl⟩
  · simpa only [Cursor.stopSince, readUpTo_cursor hps, List.flatMap_nil, List.getLast?_nil,
      Option.map_none, Option.getD_none] using hplace
  · have hlast (s : Side) :
        ((v.concat p).flatMap (Piece.tokens s)).getLast? = some (p.last s) := by
      rw [List.concat_eq_append, List.flatMap_append, List.flatMap_singleton, List.getLast?_append,
        p.getLast?_tokens, Option.some_or]
    simpa only [Cursor.stopSince, readUpTo_cursor hps, hlast, Option.map_some, Option.getD_some]
      using p.same_stop

/-- A body of both versions, at the same place in each. -/
def Bodies (e : Edit) (b : Side → Body) : Prop :=
  e.same (b .before).start (b .after).start ∧ e.same (b .before).stop (b .after).stop

theorem bodies_bodySince (kind : BodyKind) (hps : ps = w ++ qs) :
    e.Bodies fun s => (e.cursor ps s).bodySince kind (e.cursor qs s) :=
  ⟨same_place ps, e.same_max (same_stopSince hps) (same_place ps)⟩

end Edit

/-! ### Readers in step -/

/-- What `f` makes of a value does not depend on the version. -/
def Keeps (f : α → γ) (a : Side → α) : Prop := ∀ s, f (a s) = f (a .before)

variable {R : (Side → α) → Prop} {S : (Side → β) → Prop} {ps qs w : List (Piece e)}

/-- On both versions the reader takes the same pieces, and gives values that `R` relates or
problems of the same kind. -/
inductive InStep (R : (Side → α) → Prop) (p : Side → Parse α) (ps : List (Piece e)) : Prop
  | done {a : Side → α} {w q : List (Piece e)} (hps : ps = w ++ q) (ha : R a)
    (h : ∀ s, p s (e.cursor ps s) = .done (a s) (e.cursor q s))
  | failed {f : Side → ParseError} {w q : List (Piece e)} (hps : ps = w ++ q)
    (hf : Keeps ParseError.kind f) (h : ∀ s, p s (e.cursor ps s) = .failed (f s) (e.cursor q s))

namespace InStep

variable {p q : Side → Parse α} {k : Side → α → Parse β}

/-- A reader that gives the replies of another, perhaps behind some pieces. -/
theorem behind (h : InStep R q qs) (hps : ps = w ++ qs)
    (heq : ∀ s, p s (e.cursor ps s) = q s (e.cursor qs s)) : InStep R p ps := by
  cases h with
  | @done a v rs hqs ha h =>
    exact .done (by rw [hps, hqs, ← List.append_assoc]) ha fun s => (heq s).trans (h s)
  | @failed f v rs hqs hf h =>
    exact .failed (by rw [hps, hqs, ← List.append_assoc]) hf fun s => (heq s).trans (h s)

theorem of_eq (h : InStep R q ps) (heq : ∀ s, p s (e.cursor ps s) = q s (e.cursor ps s)) :
    InStep R p ps :=
  h.behind (List.nil_append ps).symm heq

theorem pure {a : Side → α} (ha : R a) : InStep R (fun s => Pure.pure (a s)) ps :=
  .done (List.nil_append ps).symm ha fun _ => rfl

theorem complain {c : Side → Complaint} (hc : Keeps Complaint.kind c) :
    InStep R (fun s => (Parse.complain (c s) : Parse α)) ps :=
  .failed (f := fun s => ⟨c s, (e.cursor ps s).span⟩) (List.nil_append ps).symm hc fun _ => rfl

/-- **Readers in a row are in step if each is.** -/
theorem bind (hp : InStep R p ps)
    (hk : ∀ a w qs, ps = w ++ qs → R a →
      (∀ s, p s (e.cursor ps s) = .done (a s) (e.cursor qs s)) → InStep S (fun s => k s (a s)) qs) :
    InStep S (fun s => p s >>= k s) ps := by
  cases hp with
  | @done a w qs hps ha h =>
    refine (hk a w qs hps ha h).behind hps fun s => ?_
    rw [bind_apply, h s]
  | @failed f w qs hps hf h =>
    refine .failed hps hf fun s => ?_
    rw [bind_apply, h s]

theorem map {f : α → β} (hp : InStep R p ps) (hf : ∀ a, R a → S fun s => f (a s)) :
    InStep S (fun s => f <$> p s) ps := by
  cases hp with
  | done hps ha h => exact .done hps (hf _ ha) fun s => by rw [map_apply, h s]
  | failed hps hf h => exact .failed hps hf fun s => by rw [map_apply, h s]

theorem ite {c : Prop} [Decidable c] (hp : c → InStep R p ps) (hq : ¬ c → InStep R q ps) :
    InStep R (fun s => if c then p s else q s) ps := by
  by_cases hc : c
  · exact (hp hc).of_eq fun s => by rw [if_pos hc]
  · exact (hq hc).of_eq fun s => by rw [if_neg hc]

theorem here_bind {k : Side → Cursor → Parse β} (h : InStep S (fun s => k s (e.cursor ps s)) ps) :
    InStep S (fun s => here >>= k s) ps :=
  h.of_eq fun _ => rfl

/-- A reader that ends with what was read since some place, which nobody looks at. -/
theorem span_end {start : Side → Cursor} {f : Side → Span → α}
    (h : ∀ spans : Side → Span, R fun s => f s (spans s)) :
    InStep R (fun s => here >>= fun stop => Pure.pure (f s ((start s).spanSince stop))) ps :=
  .here_bind (.pure (h fun s => (start s).spanSince (e.cursor ps s)))

end InStep

/-! ### Single tokens -/

/-- A token that may stand next, and what follows in either case. -/
theorem InStep.eat_bind {kind : TokenKind} {k : Side → Bool → Parse β} (hk : kind ≠ .opening .brace)
    (ht : ∀ p qs, ps = p :: qs → InStep S (fun s => k s true) qs)
    (hf : InStep S (fun s => k s false) ps) : InStep S (fun s => eat kind >>= k s) ps := by
  by_cases h : ps.head?.map Piece.kind = some kind
  · obtain ⟨p, hp, rfl⟩ := Option.map_eq_some_iff.mp h
    obtain ⟨qs, rfl⟩ := List.head?_eq_some_iff.mp hp
    obtain ⟨t, htw, rfl⟩ := Piece.eq_token hk
    refine (ht _ qs rfl).behind (w := [_]) rfl fun s => ?_
    rw [bind_apply, eat, Edit.isAt_cursor, List.head?_cons, Option.map_some, beq_self_eq_true]
    rfl
  · refine hf.of_eq fun s => ?_
    have hat : (e.cursor ps s).isAt kind = false := by
      rw [Edit.isAt_cursor]
      exact beq_false_of_ne h
    rw [bind_apply, eat, hat]
    rfl

/-- A token that may stand next decides how to go on. -/
theorem InStep.eat_ite {kind : TokenKind} {p q : Side → Parse β} (hk : kind ≠ .opening .brace)
    (ht : ∀ r qs, ps = r :: qs → InStep S p qs) (hf : InStep S q ps) :
    InStep S (fun s => eat kind >>= fun found => if found then p s else q s) ps :=
  .eat_bind hk (fun r qs h => .ite (fun _ => ht r qs h) fun hn => absurd rfl hn)
    (.ite (fun h => by cases h) fun _ => hf)

theorem inStep_expect {kind : TokenKind} (hk : kind ≠ .opening .brace) (ps : List (Piece e)) :
    InStep (Keeps Token.lexeme) (fun _ => expect kind) ps := by
  cases ps with
  | nil => exact (InStep.complain (c := fun _ => .unexpectedEnd) fun _ => rfl).of_eq fun _ => rfl
  | cons p qs =>
    by_cases h : p.kind = kind
    · obtain ⟨t, ht, rfl⟩ := Piece.eq_token (by rwa [h])
      refine .done (w := [_]) (q := qs) rfl ht.lexeme fun s => ?_
      exact expect_of_kind rfl ((Piece.kind_token t ht s).trans h)
    · refine (InStep.complain (c := fun _ => .expectedToken kind p.kind) fun _ => rfl).of_eq fun s => ?_
      obtain ⟨r, hr⟩ := e.rest_cons qs s p
      rw [expect_of_other hr (by rwa [p.kind_first]), p.kind_first]

theorem inStep_expectIdentifier (ps : List (Piece e)) :
    InStep (Keeps Ident.bare) (fun _ => expectIdentifier) ps := by
  cases ps with
  | nil => exact (InStep.complain (c := fun _ => .unexpectedEnd) fun _ => rfl).of_eq fun _ => rfl
  | cons p qs =>
    by_cases h : p.kind = .identifier
    · obtain ⟨t, ht, rfl⟩ := Piece.eq_token (by rw [h]; simp)
      refine .done (w := [_]) (q := qs) (a := fun s => .ofToken (t s)) rfl
        (fun s => congrArg (Ident.mk · default) (ht.lexeme s)) fun s => ?_
      have hk := (Piece.kind_token t ht s).trans h
      simp only [expectIdentifier, Edit.cursor, List.flatMap_cons, Piece.tokens,
        List.singleton_append, hk, ↓reduceIte, Cursor.goto]
    · refine (InStep.complain (c := fun _ => .expectedIdentifier p.kind) fun _ => rfl).of_eq fun s => ?_
      obtain ⟨r, hr⟩ := e.rest_cons qs s p
      simp only [expectIdentifier, hr, p.kind_first, h, ↓reduceIte]

theorem inStep_takeKinds {test : TokenKind → Bool} (htest : test (.opening .brace) = false) :
    ∀ ps : List (Piece e), InStep (fun a => ∃ kinds, a = fun _ => kinds) (fun _ => takeKinds test) ps
  | [] => .done (a := fun _ => []) (w := []) rfl ⟨_, rfl⟩ fun _ => rfl
  | p :: qs => by
    cases hp : test p.kind with
    | false =>
      refine .done (a := fun _ => []) (w := []) (q := p :: qs) rfl ⟨_, rfl⟩ fun s => ?_
      obtain ⟨r, hr⟩ := e.rest_cons qs s p
      simp only [takeKinds, hr, List.takeWhile_cons, List.dropWhile_cons, p.kind_first, hp,
        Bool.false_eq_true, ↓reduceIte, List.map_nil]
      rw [← hr]
      rfl
    | true =>
      obtain ⟨t, ht, rfl⟩ := Piece.eq_token (p := p) fun h => by rw [h, htest] at hp; cases hp
      have hkind (s : Side) : test (t s).kind = true := by rw [Piece.kind_token t ht s]; exact hp
      cases inStep_takeKinds htest qs with
      | @done a w rs hqs ha h =>
        obtain ⟨kinds, rfl⟩ := ha
        refine .done (a := fun _ => (Piece.token t ht).kind :: kinds) (w := _ :: w) (q := rs)
          (by rw [hqs]; rfl) ⟨_, rfl⟩ fun s => ?_
        obtain ⟨hk, hr⟩ := Reply.done.inj (h s)
        have hr' := congrArg Cursor.rest hr
        simp only [Cursor.goto] at hr'
        simp only [takeKinds, Edit.rest_token, List.takeWhile_cons, List.dropWhile_cons, hkind,
          ↓reduceIte, List.map_cons, hk, hr']
        rw [Piece.kind_token t ht s]
        rfl
      | failed hqs hf h => exact absurd (h .before) (by simp [takeKinds])

/-! ### Lists and groups -/

/-- Bounds that are not zero allow for one step more than others. -/
theorem exists_succ {n : Side → Nat} (h : ∀ s, 0 < n s) : ∃ k : Side → Nat, n = fun s => k s + 1 :=
  ⟨fun s => n s - 1, funext fun s => (Nat.succ_pred (Nat.ne_of_gt (h s))).symm⟩

/-- **Lists**, by induction on the pieces that are left: each comma takes one of them, whatever
bound each version sets on their number. -/
theorem inStep_commaSeparatedWithin {f : α → γ} {item : Side → Parse α} (hr : ∀ s, Reads (item s)) :
    ∀ (m : Nat) {n : Side → Nat} {ps : List (Piece e)}, ps.length ≤ m → (∀ s, ps.length ≤ n s) →
      (∀ w qs, ps = w ++ qs → InStep (Keeps f) item qs) →
        InStep (Keeps (List.map f)) (fun s => commaSeparatedWithin (item s) (n s)) ps
  | m, n, [], hm, hn, hi => by
    cases hi [] [] rfl with
    | @done a w qs hps ha h =>
      obtain ⟨rfl, rfl⟩ := List.append_eq_nil_iff.mp hps.symm
      refine .done (a := fun s => [a s]) (w := []) (q := []) rfl
        (fun s => congrArg (fun b => [b]) (ha s)) fun s => ?_
      cases hns : n s with
      | zero => rw [commaSeparatedWithin, bind_apply, h s]; rfl
      | succ k => rw [commaSeparatedWithin, bind_apply, h s]; rfl
    | @failed g w qs hps hg h =>
      refine .failed hps hg fun s => ?_
      cases hns : n s with
      | zero => rw [commaSeparatedWithin, bind_apply, h s]
      | succ k => rw [commaSeparatedWithin, bind_apply, h s]
  | 0, n, p :: ps, hm, hn, hi => by simp at hm
  | m + 1, n, p :: ps, hm, hn, hi => by
    obtain ⟨k, rfl⟩ := exists_succ fun s => Nat.lt_of_lt_of_le (Nat.succ_pos _) (hn s)
    simp only [List.length_cons] at hm hn
    refine (hi [] _ rfl).bind fun a w qs hps ha _ => ?_
    have hlen : qs.length ≤ ps.length + 1 := by
      have hl := congrArg List.length hps
      rw [List.length_cons, List.length_append] at hl
      omega
    refine .eat_bind (by simp) (fun p' rs hrs => ?_) ?_
    · rw [hrs, List.length_cons] at hlen
      refine (inStep_commaSeparatedWithin hr m (n := k) (by omega) (fun s => by have := hn s; omega)
        fun v ts hts => hi (w ++ p' :: v) ts (by rw [hps, hrs, hts]; simp)).bind
          fun b v ts _ hb _ => .pure fun s => ?_
      simp only [List.map_cons, ha s, hb s]
    · exact .pure fun s => congrArg (fun b => [b]) (ha s)

theorem inStep_commaSeparated {f : α → γ} {item : Side → Parse α} (hr : ∀ s, Reads (item s))
    (hi : ∀ w qs, ps = w ++ qs → InStep (Keeps f) item qs) :
    InStep (Keeps (List.map f)) (fun s => commaSeparated (item s)) ps :=
  (inStep_commaSeparatedWithin hr ps.length (n := fun s => (e.cursor ps s).rest.length)
    (Nat.le_refl _) (fun s => e.length_le ps s) hi).of_eq fun _ => rfl

/-- The end of a group in both versions: behind the same pieces, or not at all. -/
inductive GroupEnds (ps : List (Piece e)) (find : Side → GroupEnd) : Prop
  | closed (closer : Side → Token) (w qs : List (Piece e)) (hps : ps = w ++ qs)
    (h : ∀ s, find s = .closed (closer s) (e.cursor qs s).rest)
  | mismatched (closer : Side → Token) (pair : Delimiter) (w qs : List (Piece e)) (hps : ps = w ++ qs)
    (h : ∀ s, find s = .mismatched (closer s) pair (e.cursor qs s).rest)
  | unclosed (h : ∀ s, find s = .unclosed)

theorem GroupEnds.cons {find find' : Side → GroupEnd} (p : Piece e) (h : GroupEnds qs find)
    (heq : ∀ s, find' s = find s) : GroupEnds (p :: qs) find' := by
  obtain rfl : find' = find := funext heq
  cases h with
  | closed closer w rs hps h => exact .closed closer (p :: w) rs (by rw [hps]; rfl) h
  | mismatched closer pair w rs hps h =>
    exact .mismatched closer pair (p :: w) rs (by rw [hps]; rfl) h
  | unclosed h => exact .unclosed h

/-- **A group ends behind the same pieces**: the search for its end passes over a block. -/
theorem groupEnds_closeGroup : ∀ (ps : List (Piece e)) (pair : Delimiter) (outer : List Delimiter),
    GroupEnds ps fun s => closeGroup pair outer (e.cursor ps s).rest
  | [], pair, outer => .unclosed fun _ => rfl
  | .block opener closer inner h :: qs, pair, outer => by
    refine (groupEnds_closeGroup qs pair outer).cons _ fun s => ?_
    exact closeGroup_neutral (Neutral.group (h.opens s) (h.closes s) (h.neutral s)) outer
  | .token t h :: qs, pair, outer => by
    have hkind (s : Side) : (t s).kind = (t .before).kind := h.kind s
    cases hk : (t .before).kind with
    | opening inner =>
      refine (groupEnds_closeGroup qs inner (pair :: outer)).cons _ fun s => ?_
      simp only [Edit.rest_token, closeGroup, hkind, hk]
    | closing other =>
      by_cases ho : other = pair
      · subst ho
        cases outer with
        | nil =>
          refine .closed t [_] qs rfl fun s => ?_
          simp only [Edit.rest_token, closeGroup, hkind, hk, ↓reduceIte]
        | cons next outer =>
          refine (groupEnds_closeGroup qs next outer).cons _ fun s => ?_
          simp only [Edit.rest_token, closeGroup, hkind, hk, ↓reduceIte]
      · refine .mismatched t other [_] qs rfl fun s => ?_
        simp only [Edit.rest_token, closeGroup, hkind, hk, ho, ↓reduceIte]
    | _ =>
      refine (groupEnds_closeGroup qs pair outer).cons _ fun s => ?_
      simp only [Edit.rest_token, closeGroup, hkind, hk]

theorem inStep_skipGroup (ps : List (Piece e)) : InStep (fun _ => True) (fun _ => skipGroup) ps := by
  cases ps with
  | nil => exact (InStep.complain (c := fun _ => .unexpectedEnd) fun _ => rfl).of_eq fun _ => rfl
  | cons p qs =>
    cases p with
    | block opener closer inner h =>
      refine .done (a := closer) (w := [_]) (q := qs) rfl trivial fun s => ?_
      have hclose : closeGroup .brace [] (inner s ++ closer s :: (e.cursor qs s).rest) =
          .closed (closer s) (e.cursor qs s).rest := by
        rw [closeGroup_neutral (h.neutral s)]
        simp only [closeGroup, h.closes s, ↓reduceIte]
      simp only [skipGroup, Edit.rest_block, h.opens s, hclose]
      rfl
    | token t h =>
      have hkind (s : Side) : (t s).kind = (t .before).kind := h.kind s
      cases hk : (t .before).kind with
      | opening pair =>
        cases groupEnds_closeGroup qs pair [] with
        | closed closer w rs hqs hc =>
          refine .done (a := closer) (w := .token t h :: w) (q := rs) (by rw [hqs]; rfl) trivial
            fun s => ?_
          simp only [skipGroup, Edit.rest_token, hkind, hk, hc s]
          rfl
        | mismatched closer other w rs hqs hc =>
          refine .failed (f := fun s => ⟨.unexpectedCloser other, (closer s).span⟩)
            (w := .token t h :: w) (q := rs) (by rw [hqs]; rfl) (fun _ => rfl) fun s => ?_
          simp only [skipGroup, Edit.rest_token, hkind, hk, hc s]
          rfl
        | unclosed hc =>
          refine .failed (f := fun s => ⟨.unclosed pair, (t s).span⟩) (w := .token t h :: qs)
            (q := []) (by simp) (fun _ => rfl) fun s => ?_
          simp only [skipGroup, Edit.rest_token, hkind, hk, hc s]
          rfl
      | _ =>
        refine (InStep.complain (c := fun _ => .expectedToken (.opening .brace) (t .before).kind)
          fun _ => rfl).of_eq fun s => ?_
        simp only [skipGroup, Edit.rest_token, hkind, hk]

/-- A group that is skipped is fewer pieces less. -/
theorem length_lt_of_skipGroup (hps : ps = w ++ qs) {a : Token} {s : Side}
    (h : skipGroup (e.cursor ps s) = .done a (e.cursor qs s)) : qs.length < ps.length :=
  Edit.length_lt hps (takes_skipGroup _ _ _ h)

/-- **What is skipped up to a stop**, by induction on the pieces. -/
theorem inStep_skipUntilWithin (stops : TokenKind → Bool) :
    ∀ (m : Nat) {n : Side → Nat} {ps : List (Piece e)}, ps.length ≤ m → (∀ s, ps.length < n s) →
      InStep (fun _ => True) (fun s => skipUntilWithin stops (n s)) ps
  | m, n, [], hm, hn => by
    refine (InStep.complain (c := fun _ => .unexpectedEnd) fun _ => rfl).of_eq fun s => ?_
    obtain ⟨k, hk⟩ := Nat.exists_eq_add_one_of_ne_zero (Nat.ne_of_gt (hn s))
    rw [hk]
    rfl
  | 0, n, p :: qs, hm, hn => by simp at hm
  | m + 1, n, p :: qs, hm, hn => by
    obtain ⟨k, rfl⟩ := exists_succ fun s => Nat.lt_of_le_of_lt (Nat.zero_le _) (hn s)
    simp only [List.length_cons] at hm hn
    have hcons (s : Side) := e.rest_cons qs s p
    cases hst : stops p.kind with
    | true =>
      refine (InStep.pure (a := fun _ => ()) trivial).of_eq fun s => ?_
      obtain ⟨r, hr⟩ := hcons s
      exact skipUntilWithin_stop (k s) hr (by rw [p.kind_first, hst])
    | false =>
      cases hk : p.kind with
      | opening pair =>
        refine ((inStep_skipGroup (p :: qs)).bind (k := fun s _ => skipUntilWithin stops (k s))
          fun a w rs hps _ hd => ?_).of_eq fun s => ?_
        · have hlt := length_lt_of_skipGroup hps (hd .before)
          rw [List.length_cons] at hlt
          exact inStep_skipUntilWithin stops m (by omega) fun s => by have := hn s; omega
        · obtain ⟨r, hr⟩ := hcons s
          exact skipUntilWithin_opening (k s) hr (by rw [p.kind_first, hst]) (by rw [p.kind_first, hk])
      | closing pair =>
        refine (InStep.complain (c := fun _ => .unexpectedCloser pair) fun _ => rfl).of_eq fun s => ?_
        obtain ⟨r, hr⟩ := hcons s
        exact skipUntilWithin_closing (k s) hr (by rw [p.kind_first, hst]) (by rw [p.kind_first, hk])
      | _ =>
        obtain ⟨t, ht, rfl⟩ := Piece.eq_token (p := p) (by rw [hk]; simp)
        refine (inStep_skipUntilWithin stops m (n := k) (show qs.length ≤ m by omega)
          fun s => by have := hn s; omega).behind (w := [_]) rfl fun s => ?_
        exact skipUntilWithin_plain (k s) rfl (by rw [Piece.kind_token t ht s, hst])
          (by rw [Piece.kind_token t ht s, hk]; rfl)

theorem inStep_skipUntil (stops : TokenKind → Bool) (ps : List (Piece e)) :
    InStep (fun _ => True) (fun _ => skipUntil stops) ps :=
  (inStep_skipUntilWithin stops ps.length (n := fun s => (e.cursor ps s).rest.length + 1)
    (Nat.le_refl _) fun s => Nat.lt_succ_of_le (e.length_le ps s)).of_eq fun _ => rfl

theorem inStep_skipAttributesWithin :
    ∀ (m : Nat) {n : Side → Nat} {ps : List (Piece e)}, ps.length ≤ m → (∀ s, ps.length ≤ n s) →
      InStep (fun _ => True) (fun s => skipAttributesWithin (n s)) ps
  | m, n, [], hm, hn => by
    refine (InStep.pure (a := fun _ => ()) trivial).of_eq fun s => ?_
    cases n s <;> rfl
  | 0, n, p :: qs, hm, hn => by simp at hm
  | m + 1, n, p :: qs, hm, hn => by
    obtain ⟨k, rfl⟩ := exists_succ fun s => Nat.lt_of_lt_of_le (Nat.succ_pos _) (hn s)
    simp only [List.length_cons] at hm hn
    have heq (s : Side) : skipAttributesWithin (k s + 1) (e.cursor (p :: qs) s) =
        (if p.kind = .opening .bracket then skipGroup >>= fun _ => skipAttributesWithin (k s)
          else Pure.pure ()) (e.cursor (p :: qs) s) := by
      simp only [skipAttributesWithin, Edit.isAt_cursor, List.head?_cons, Option.map_some]
      by_cases hp : p.kind = .opening .bracket
      · simp only [hp, beq_self_eq_true, ↓reduceIte, bind_apply]
        cases skipGroup (e.cursor (p :: qs) s) <;> rfl
      · simp [hp]
    refine InStep.of_eq (.ite (fun _ => (inStep_skipGroup (p :: qs)).bind fun a w rs hps _ hd => ?_)
      fun _ => .pure (a := fun _ => ()) trivial) heq
    have hlt := length_lt_of_skipGroup hps (hd .before)
    rw [List.length_cons] at hlt
    exact inStep_skipAttributesWithin m (by omega) fun s => by have := hn s; omega

theorem inStep_skipAttributes (ps : List (Piece e)) :
    InStep (fun _ => True) (fun _ => skipAttributes) ps :=
  (inStep_skipAttributesWithin ps.length (n := fun s => (e.cursor ps s).rest.length)
    (Nat.le_refl _) fun s => e.length_le ps s).of_eq fun _ => rfl

theorem inStep_skipConstraints (stops : TokenKind → Bool) (ps : List (Piece e)) :
    InStep (fun _ => True) (fun _ => skipConstraints stops) ps := by
  refine .here_bind ?_
  simp only [Edit.isAtWord_cursor]
  exact .ite (fun _ => inStep_skipUntil stops ps) fun _ => .pure (a := fun _ => ()) trivial

end ScriptHost
