/-
# Readers do not look past a `;` outside all brackets

Take tokens that end with a `;` outside all brackets, and more tokens behind them. A reader
that starts among the first does the same as if the source ended behind that `;`: it gives
the same value or problem at the same place, and either it stays in front of the `;` or the
`;` is the last token it takes. This is proved for each reader from those it is made of. The
open brackets tell that a search for the end of a group is over in front of the `;`.

Key definitions: `Inside`, `Continued`, `Stays`, `Ends`.
Key theorems: `Stays.bind`, `Ends.bind`, `stays_skipUntil`, `stays_commaSeparated`,
`stays_typeExpr`.
-/
import Mathlib.Data.List.TakeWhile
import ScriptHost.Proofs.Reading.Turns

namespace ScriptHost

open Parse Source

/-! ### Tokens inside brackets -/

/-- Tokens that stand inside the brackets `st`, close them, and end with a `;` outside all. -/
structure Inside (st : List Delimiter) (s : List Token) : Prop where
  nest : nest st s = some []
  last : ∃ t, s.getLast? = some t ∧ t.kind = .semicolon

namespace Inside

variable {st : List Delimiter} {s w r : List Token} {t : Token} {pair : Delimiter}

theorem ne_nil (h : Inside st s) : s ≠ [] := by
  rintro rfl
  obtain ⟨t, ht, -⟩ := h.last
  simp at ht

theorem cons_eq (h : Inside st s) : ∃ t r, s = t :: r := List.exists_cons_of_ne_nil h.ne_nil

theorem last_of_append (h : Inside st (w ++ s)) (hs : s ≠ []) :
    ∃ t, s.getLast? = some t ∧ t.kind = .semicolon := by
  obtain ⟨t, ht, hk⟩ := h.last
  have hl := List.getLast?_eq_some_getLast hs
  rw [List.getLast?_append, hl, Option.some_or] at ht
  exact ⟨t, by rw [hl]; exact ht, hk⟩

/-- What is left of the tokens stands inside some brackets. -/
theorem of_append (h : Inside st (w ++ s)) (hs : s ≠ []) : ∃ st', Inside st' s := by
  have hn := h.nest
  rw [nest_append] at hn
  cases hw : ScriptHost.nest st w with
  | none => rw [hw] at hn; cases hn
  | some st' =>
    rw [hw] at hn
    exact ⟨st', hn, h.last_of_append hs⟩

theorem behind (h : Inside st (w ++ s)) (hw : Neutral w) (hs : s ≠ []) : Inside st s :=
  ⟨by rw [← hw.nest_append]; exact h.nest, h.last_of_append hs⟩

/-- Only the last `;` has nothing behind it. -/
theorem tail_ne_nil (h : Inside st (t :: r)) (hk : t.kind ≠ .semicolon ∨ st ≠ []) : r ≠ [] := by
  rintro rfl
  obtain ⟨u, hu, hs⟩ := h.last
  obtain rfl : t = u := by simpa using hu
  rcases hk with hk | hk
  · exact hk hs
  · have hn := h.nest
    rw [nest_plain (by rw [hs]; rfl)] at hn
    exact hk (by simpa using hn)

theorem plain (h : Inside st (t :: r)) (hb : t.kind.isBracket = false) (hr : r ≠ []) :
    Inside st r :=
  h.behind (w := [t]) (.single hb) hr

/-- A token of a kind that is neither a bracket nor a `;` leaves the open brackets. -/
theorem tail {kind : TokenKind} (h : Inside st (t :: r)) (hk : t.kind = kind)
    (hb : kind.isBracket = false) (hs : kind ≠ .semicolon) : Inside st r := by
  subst hk
  exact h.plain hb (h.tail_ne_nil (.inl hs))

theorem opening (h : Inside st (t :: r)) (hk : t.kind = .opening pair) : Inside (pair :: st) r := by
  have hr : r ≠ [] := h.tail_ne_nil (.inl (by rw [hk]; simp))
  exact ⟨by rw [← nest_opening hk]; exact h.nest, h.last_of_append (w := [t]) hr⟩

theorem closing (h : Inside st (t :: r)) (hk : t.kind = .closing pair) :
    ∃ outer, st = pair :: outer ∧ Inside outer r := by
  have hr : r ≠ [] := h.tail_ne_nil (.inl (by rw [hk]; simp))
  obtain ⟨outer, rfl, hn⟩ := nest_closing_inv hk h.nest
  exact ⟨outer, rfl, hn, h.last_of_append (w := [t]) hr⟩

end Inside

/-! ### Sources that end earlier or later -/

/-- Tokens that go on, where the source ends with them, and where it ends without them. -/
structure Continued where
  more : List Token
  finish : Position
  stop : Position

namespace Continued

variable (k : Continued) {s r : List Token}

/-- The tokens `s` with those that go on. -/
def whole (s : List Token) : Cursor := ⟨s ++ k.more, k.finish⟩

/-- The tokens `s` alone. -/
def part (s : List Token) : Cursor := ⟨s, k.stop⟩

/-- A place where the source ends with the tokens. -/
theorem eq_part {c : Cursor} (h : c.finish = k.stop) : c = k.part c.rest := by
  rw [part, ← h]

theorem kind?_whole (hs : s ≠ []) : (k.whole s).kind? = (k.part s).kind? := by
  obtain ⟨t, r, rfl⟩ := List.exists_cons_of_ne_nil hs
  rfl

theorem isAt_whole (hs : s ≠ []) (kind : TokenKind) : (k.whole s).isAt kind = (k.part s).isAt kind := by
  rw [Cursor.isAt, Cursor.isAt, k.kind?_whole hs]

theorem isAtWord_whole (hs : s ≠ []) (word : String) :
    (k.whole s).isAtWord word = (k.part s).isAtWord word := by
  obtain ⟨t, r, rfl⟩ := List.exists_cons_of_ne_nil hs
  rfl

theorem span_whole (hs : s ≠ []) : (k.whole s).span = (k.part s).span := by
  obtain ⟨t, r, rfl⟩ := List.exists_cons_of_ne_nil hs
  rfl

theorem place_whole (hs : s ≠ []) : (k.whole s).place = (k.part s).place := by
  obtain ⟨t, r, rfl⟩ := List.exists_cons_of_ne_nil hs
  rfl

theorem readUpTo_whole (s r : List Token) :
    (k.whole s).readUpTo (k.whole r) = (k.part s).readUpTo (k.part r) := by
  simp only [Cursor.readUpTo, whole, part, List.length_append]
  rw [Nat.add_sub_add_right, List.take_append_of_le_length (Nat.sub_le _ _)]

theorem stopSince_whole (hs : s ≠ []) (r : List Token) :
    (k.whole s).stopSince (k.whole r) = (k.part s).stopSince (k.part r) := by
  simp only [Cursor.stopSince, k.readUpTo_whole, k.place_whole hs]

/-- What was read between two places does not depend on how the source goes on. -/
theorem spanSince_whole (hs : s ≠ []) (r : List Token) :
    (k.whole s).spanSince (k.whole r) = (k.part s).spanSince (k.part r) := by
  simp only [Cursor.spanSince, k.stopSince_whole hs, k.place_whole hs]

theorem bodySince_whole (hs : s ≠ []) (kind : BodyKind) (r : List Token) :
    (k.whole s).bodySince kind (k.whole r) = (k.part s).bodySince kind (k.part r) := by
  simp only [Cursor.bodySince, k.stopSince_whole hs, k.place_whole hs, k.spanSince_whole hs]

/-- A reply where the source goes on. -/
def onto {α : Type} : Reply α → Reply α
  | .done a d => .done a (k.whole d.rest)
  | .failed e d => .failed e (k.whole d.rest)

end Continued

variable {k : Continued} {α β : Type} {st : List Delimiter} {s : List Token}

/-- Where the source goes on, `p` does what `q` does where it ends, in front of the last `;`. -/
structure Stays (k : Continued) (s : List Token) (p q : Parse α) : Prop where
  same : p (k.whole s) = k.onto (q (k.part s))
  inside : (q (k.part s)).next.rest ≠ []

/-- Where the source goes on, `p` does what `q` does where it ends; if it succeeds it may have
taken the last `;`. -/
structure Ends (k : Continued) (s : List Token) (p q : Parse α) : Prop where
  same : p (k.whole s) = k.onto (q (k.part s))
  inside : ∀ e d, q (k.part s) = .failed e d → d.rest ≠ []

theorem Stays.ends {p q : Parse α} (h : Stays k s p q) : Ends k s p q where
  same := h.same
  inside e d hd := by
    have hi := h.inside
    rw [hd] at hi
    exact hi

/-- Readers that give the replies of others, perhaps behind some tokens, stay as these do. -/
theorem Stays.of_eq {p q p' q' : Parse α} {r : List Token} (hp : p (k.whole s) = p' (k.whole r))
    (hq : q (k.part s) = q' (k.part r)) (h : Stays k r p' q') : Stays k s p q where
  same := by
    rw [hp, hq]
    exact h.same
  inside := by
    rw [hq]
    exact h.inside

theorem Ends.of_eq {p q p' q' : Parse α} {r : List Token} (hp : p (k.whole s) = p' (k.whole r))
    (hq : q (k.part s) = q' (k.part r)) (h : Ends k r p' q') : Ends k s p q where
  same := by
    rw [hp, hq]
    exact h.same
  inside := by
    rw [hq]
    exact h.inside

theorem Stays.pure (hs : s ≠ []) (a : α) : Stays k s (Pure.pure a) (Pure.pure a) := ⟨rfl, hs⟩

theorem Ends.pure (a : α) : Ends k s (Pure.pure a) (Pure.pure a) where
  same := rfl
  inside e d h := by cases h

theorem Stays.complain (hs : s ≠ []) (complaint : Complaint) :
    Stays k s (complain complaint : Parse α) (complain complaint) where
  same := by
    simp only [Parse.complain, Continued.onto]
    rw [k.span_whole hs]
    rfl
  inside := hs

theorem Stays.ite {b : Prop} [Decidable b] {p q p' q' : Parse α} (h : b → Stays k s p q)
    (h' : ¬ b → Stays k s p' q') : Stays k s (if b then p else p') (if b then q else q') := by
  by_cases hb : b
  · rw [if_pos hb, if_pos hb]
    exact h hb
  · rw [if_neg hb, if_neg hb]
    exact h' hb

theorem Ends.ite {b : Prop} [Decidable b] {p q p' q' : Parse α} (h : b → Ends k s p q)
    (h' : ¬ b → Ends k s p' q') : Ends k s (if b then p else p') (if b then q else q') := by
  by_cases hb : b
  · rw [if_pos hb, if_pos hb]
    exact h hb
  · rw [if_neg hb, if_neg hb]
    exact h' hb

/-- A successful reader that stays leaves tokens inside the same brackets. -/
theorem Stays.inside_done {p q : Parse α} (h : Stays k s p q) (hr : Reads q) (hs : Inside st s)
    {a : α} {d : Cursor} (hd : q (k.part s) = .done a d) :
    ∃ w, s = w ++ d.rest ∧ d = k.part d.rest ∧ Inside st d.rest := by
  obtain ⟨w, hw, hf, hn⟩ := hr.done hd
  have hi := h.inside
  rw [hd] at hi
  obtain rfl : s = w ++ d.rest := hw
  exact ⟨w, rfl, k.eq_part hf, hs.behind hn hi⟩

theorem length_le_of_done {q : Parse α} (hr : Reads q) {a : α} {r : List Token}
    (h : q (k.part s) = .done a (k.part r)) : r.length ≤ s.length := by
  obtain ⟨w, hw, -, -⟩ := hr.done h
  have hl := congrArg List.length hw
  rw [List.length_append] at hl
  exact Nat.le.intro ((Nat.add_comm _ _).trans hl.symm)

/-! ### Readers in a row -/

/-- The reply of two readers in a row is that of the second, or the problem of the first. -/
theorem reply_bind {q : Parse α} {h : α → Parse β} {P : Reply β → Prop} (hr : Reads q)
    (hdone : ∀ a r, q (k.part s) = .done a (k.part r) → P (h a (k.part r)))
    (hfailed : ∀ e d, q (k.part s) = .failed e d → P (.failed e d)) :
    P ((q >>= h) (k.part s)) := by
  rw [bind_apply]
  cases hq : q (k.part s) with
  | done a d =>
    obtain ⟨w, -, hf, -⟩ := hr.done hq
    have hd := k.eq_part hf
    rw [hd] at hq ⊢
    exact hdone a d.rest hq
  | failed e d => exact hfailed e d hq

/-- Readers in a row do the same wherever the source ends, if each does. -/
theorem same_bind {p q : Parse α} {g h : α → Parse β} (hr : Reads q)
    (hp : p (k.whole s) = k.onto (q (k.part s)))
    (hk : ∀ a r, q (k.part s) = .done a (k.part r) →
      g a (k.whole r) = k.onto (h a (k.part r))) :
    (p >>= g) (k.whole s) = k.onto ((q >>= h) (k.part s)) := by
  refine reply_bind (P := fun x => (p >>= g) (k.whole s) = k.onto x) hr ?_ ?_
  · intro a r hq
    rw [bind_apply, hp, hq]
    exact hk a r hq
  · intro e d hq
    rw [bind_apply, hp, hq]
    rfl

/-- **A reader that stays, and then one that stays, stay.** -/
theorem Stays.bind {p q : Parse α} {g h : α → Parse β} (hp : Stays k s p q) (hr : Reads q)
    (hs : Inside st s)
    (hk : ∀ a r, Inside st r → q (k.part s) = .done a (k.part r) → Stays k r (g a) (h a)) :
    Stays k s (p >>= g) (q >>= h) := by
  have hnext (a r) (hq : q (k.part s) = .done a (k.part r)) : Stays k r (g a) (h a) := by
    obtain ⟨-, -, -, hi⟩ := hp.inside_done hr hs hq
    exact hk a r hi hq
  refine ⟨same_bind hr hp.same fun a r hq => (hnext a r hq).same, ?_⟩
  refine reply_bind (P := fun x => x.next.rest ≠ []) hr (fun a r hq => (hnext a r hq).inside) ?_
  intro e d hq
  have hi := hp.inside
  rwa [hq] at hi

/-- **A reader that stays, and then one that ends, end.** -/
theorem Stays.bind_ends {p q : Parse α} {g h : α → Parse β} (hp : Stays k s p q) (hr : Reads q)
    (hs : Inside st s)
    (hk : ∀ a r, Inside st r → q (k.part s) = .done a (k.part r) → Ends k r (g a) (h a)) :
    Ends k s (p >>= g) (q >>= h) := by
  have hnext (a r) (hq : q (k.part s) = .done a (k.part r)) : Ends k r (g a) (h a) := by
    obtain ⟨-, -, -, hi⟩ := hp.inside_done hr hs hq
    exact hk a r hi hq
  refine ⟨same_bind hr hp.same fun a r hq => (hnext a r hq).same, ?_⟩
  refine reply_bind (P := fun x => ∀ e d, x = .failed e d → d.rest ≠ []) hr
    (fun a r hq => (hnext a r hq).inside) ?_
  rintro e d hq _ _ ⟨⟩
  exact hp.ends.inside e d hq

/-- A reader that ends, and then one that only looks where it stands. -/
theorem Ends.bind {p q : Parse α} {g h : α → Parse β} (hp : Ends k s p q) (hr : Reads q)
    (hk : ∀ a r, Ends k r (g a) (h a)) : Ends k s (p >>= g) (q >>= h) := by
  refine ⟨same_bind hr hp.same fun a r _ => (hk a r).same, ?_⟩
  refine reply_bind (P := fun x => ∀ e d, x = .failed e d → d.rest ≠ []) hr
    (fun a r _ => (hk a r).inside) ?_
  rintro e d hq _ _ ⟨⟩
  exact hp.inside e d hq

/-- A reader that succeeds, and then one that ends. -/
theorem Ends.bind_of_done {p q : Parse α} {g h : α → Parse β} {a : α} {r : List Token}
    (hp : p (k.whole s) = .done a (k.whole r)) (hq : q (k.part s) = .done a (k.part r))
    (hk : Ends k r (g a) (h a)) : Ends k s (p >>= g) (q >>= h) :=
  hk.of_eq (by rw [bind_apply, hp]) (by rw [bind_apply, hq])

theorem Stays.here_bind {g h : Cursor → Parse β} (hk : Stays k s (g (k.whole s)) (h (k.part s))) :
    Stays k s (here >>= g) (here >>= h) :=
  ⟨hk.same, hk.inside⟩

theorem Ends.here_bind {g h : Cursor → Parse β} (hk : Ends k s (g (k.whole s)) (h (k.part s))) :
    Ends k s (here >>= g) (here >>= h) :=
  ⟨hk.same, hk.inside⟩

/-! ### Single tokens -/

theorem eat_bind_of_kind {kind : TokenKind} {t : Token} {r : List Token} {c : Cursor}
    (hr : c.rest = t :: r) (ht : t.kind = kind) (g : Bool → Parse β) :
    (eat kind >>= g) c = g true (c.goto r) := by
  simp [bind_apply, eat, Cursor.isAt, Cursor.kind?, Cursor.tail, hr, ht]

theorem eat_bind_of_other {kind : TokenKind} {t : Token} {r : List Token} {c : Cursor}
    (hr : c.rest = t :: r) (ht : t.kind ≠ kind) (g : Bool → Parse β) :
    (eat kind >>= g) c = g false c := by
  simp [bind_apply, eat, Cursor.isAt, Cursor.kind?, hr, ht]

/-- A token that may stand next, and what follows in either case. -/
theorem Stays.eat_bind {kind : TokenKind} {g h : Bool → Parse β} (hs : Inside st s)
    (ht : ∀ t r, s = t :: r → t.kind = kind → Stays k r (g true) (h true))
    (hf : Stays k s (g false) (h false)) : Stays k s (eat kind >>= g) (eat kind >>= h) := by
  obtain ⟨t, r, rfl⟩ := hs.cons_eq
  by_cases he : t.kind = kind
  · exact (ht t r rfl he).of_eq (eat_bind_of_kind rfl he g) (eat_bind_of_kind rfl he h)
  · exact hf.of_eq (eat_bind_of_other rfl he g) (eat_bind_of_other rfl he h)

/-- A token that is no bracket leaves those that are open. -/
theorem Stays.eat_plain {kind : TokenKind} {g h : Bool → Parse β} (hs : Inside st s)
    (hk : kind ≠ .semicolon) (hb : kind.isBracket = false)
    (ht : ∀ r, Inside st r → r.length < s.length → Stays k r (g true) (h true))
    (hf : Stays k s (g false) (h false)) : Stays k s (eat kind >>= g) (eat kind >>= h) := by
  refine .eat_bind hs (fun t r hr he => ?_) hf
  subst hr
  exact ht r (hs.tail he hb hk) (by simp)

theorem Stays.eat_opening {pair : Delimiter} {g h : Bool → Parse β} (hs : Inside st s)
    (ht : ∀ r, Inside (pair :: st) r → Stays k r (g true) (h true))
    (hf : Stays k s (g false) (h false)) :
    Stays k s (eat (.opening pair) >>= g) (eat (.opening pair) >>= h) := by
  refine .eat_bind hs (fun t r hr he => ?_) hf
  subst hr
  exact ht r (hs.opening he)

theorem Stays.eat_closing {pair : Delimiter} {g h : Bool → Parse β} (hs : Inside (pair :: st) s)
    (ht : ∀ r, Inside st r → Stays k r (g true) (h true)) (hf : Stays k s (g false) (h false)) :
    Stays k s (eat (.closing pair) >>= g) (eat (.closing pair) >>= h) := by
  refine .eat_bind hs (fun t r hr he => ?_) hf
  subst hr
  obtain ⟨outer, ho, hr⟩ := hs.closing he
  obtain ⟨-, rfl⟩ := List.cons.inj ho
  exact ht r hr

/-- A token that may stand next, perhaps the last, and what follows in either case. -/
theorem Ends.eat_bind {kind : TokenKind} {g h : Bool → Parse β} (hs : s ≠ [])
    (ht : ∀ t r, s = t :: r → t.kind = kind → Ends k r (g true) (h true))
    (hf : Ends k s (g false) (h false)) : Ends k s (eat kind >>= g) (eat kind >>= h) := by
  obtain ⟨t, r, rfl⟩ := List.exists_cons_of_ne_nil hs
  by_cases he : t.kind = kind
  · exact (ht t r rfl he).of_eq (eat_bind_of_kind rfl he g) (eat_bind_of_kind rfl he h)
  · exact hf.of_eq (eat_bind_of_other rfl he g) (eat_bind_of_other rfl he h)

theorem expect_of_kind {kind : TokenKind} {t : Token} {r : List Token} {c : Cursor}
    (hr : c.rest = t :: r) (ht : t.kind = kind) : expect kind c = .done t (c.goto r) := by
  simp only [expect, hr, ht, ↓reduceIte]

theorem expect_of_other {kind : TokenKind} {t : Token} {r : List Token} {c : Cursor}
    (hr : c.rest = t :: r) (ht : t.kind ≠ kind) :
    expect kind c = complain (.expectedToken kind t.kind) c := by
  simp only [expect, hr, ht, ↓reduceIte]

theorem stays_expect {kind : TokenKind} (hs : Inside st s) (hk : kind ≠ .semicolon) :
    Stays k s (expect kind) (expect kind) := by
  obtain ⟨t, r, rfl⟩ := hs.cons_eq
  by_cases he : t.kind = kind
  · have hr : r ≠ [] := hs.tail_ne_nil (.inl (by rw [he]; exact hk))
    exact (Stays.pure hr t).of_eq (expect_of_kind rfl he) (expect_of_kind rfl he)
  · have hc := Stays.complain (k := k) hs.ne_nil (α := Token) (.expectedToken kind t.kind)
    exact hc.of_eq (expect_of_other rfl he) (expect_of_other rfl he)

/-- The closing bracket that has to stand next. -/
theorem Stays.expect_closing {pair : Delimiter} {g h : Token → Parse β} (hs : Inside (pair :: st) s)
    (ht : ∀ a r, Inside st r → Stays k r (g a) (h a)) :
    Stays k s (expect (.closing pair) >>= g) (expect (.closing pair) >>= h) := by
  obtain ⟨t, r, rfl⟩ := hs.cons_eq
  by_cases he : t.kind = .closing pair
  · obtain ⟨outer, ho, hr⟩ := hs.closing he
    obtain ⟨-, rfl⟩ := List.cons.inj ho
    apply (ht t r hr).of_eq
    · rw [bind_apply, expect_of_kind rfl he]
      rfl
    · rw [bind_apply, expect_of_kind rfl he]
      rfl
  · have hc := Stays.complain (k := k) hs.ne_nil (α := β) (.expectedToken (.closing pair) t.kind)
    apply hc.of_eq
    · rw [bind_apply, expect_of_other rfl he]
      rfl
    · rw [bind_apply, expect_of_other rfl he]
      rfl

/-- A token that has to stand next, perhaps the last. -/
theorem Ends.expect_bind {kind : TokenKind} {g h : Token → Parse β} (hs : s ≠ [])
    (ht : ∀ a r, Ends k r (g a) (h a)) : Ends k s (expect kind >>= g) (expect kind >>= h) := by
  obtain ⟨t, r, rfl⟩ := List.exists_cons_of_ne_nil hs
  by_cases he : t.kind = kind
  · exact .bind_of_done (expect_of_kind rfl he) (expect_of_kind rfl he) (ht t r)
  · have hc := Stays.complain (k := k) hs (α := β) (.expectedToken kind t.kind)
    apply hc.ends.of_eq
    · rw [bind_apply, expect_of_other rfl he]
      rfl
    · rw [bind_apply, expect_of_other rfl he]
      rfl

theorem stays_expectIdentifier (hs : Inside st s) :
    Stays k s expectIdentifier expectIdentifier := by
  obtain ⟨t, r, rfl⟩ := hs.cons_eq
  by_cases he : t.kind = .identifier
  · have hdone {c : Cursor} {r : List Token} (hr : c.rest = t :: r) :
        expectIdentifier c = .done (.ofToken t) (c.goto r) := by
      simp only [expectIdentifier, hr, he, ↓reduceIte]
    have hr : r ≠ [] := hs.tail_ne_nil (.inl (by rw [he]; simp))
    exact (Stays.pure hr (Ident.ofToken t)).of_eq (hdone rfl) (hdone rfl)
  · have hfailed {c : Cursor} {r : List Token} (hr : c.rest = t :: r) :
        expectIdentifier c = complain (.expectedIdentifier t.kind) c := by
      simp only [expectIdentifier, hr, he, ↓reduceIte]
    have hc := Stays.complain (k := k) hs.ne_nil (α := Ident) (.expectedIdentifier t.kind)
    exact hc.of_eq (hfailed rfl) (hfailed rfl)

/-- Where a test stops in front of the end, it does not matter what follows. -/
theorem while_append {test : Token → Bool} : ∀ {s : List Token} (more : List Token),
    s.dropWhile test ≠ [] → (s ++ more).takeWhile test = s.takeWhile test ∧
      (s ++ more).dropWhile test = s.dropWhile test ++ more
  | [], more, h => absurd rfl h
  | t :: s, more, h => by
    simp only [List.cons_append, List.takeWhile_cons, List.dropWhile_cons] at h ⊢
    split
    · next ht =>
      simp only [ht, ↓reduceIte] at h
      obtain ⟨h1, h2⟩ := while_append more h
      exact ⟨by rw [h1], h2⟩
    · exact ⟨rfl, rfl⟩

theorem stays_takeKinds {test : TokenKind → Bool} (htest : test .semicolon = false)
    (hs : Inside st s) : Stays k s (takeKinds test) (takeKinds test) := by
  obtain ⟨t, ht, hk⟩ := hs.last
  have hne : s.dropWhile (fun t => test t.kind) ≠ [] := fun h => by
    have hall := List.dropWhile_eq_nil_iff.mp h t (List.mem_of_getLast? ht)
    rw [hk, htest] at hall
    cases hall
  obtain ⟨h1, h2⟩ := while_append k.more hne
  refine ⟨?_, hne⟩
  simp only [takeKinds, Continued.whole, Continued.part, Continued.onto, Cursor.goto, h1, h2]

/-! ### Lists and groups -/

/-- **Lists**, by induction on the number of commas that are allowed for: there are as many
as tokens, whether the source goes on or not. -/
theorem stays_commaSeparatedWithin {item item' : Parse α} (hr : Reads item') :
    ∀ {n m : Nat} {s : List Token}, Inside st s → s.length ≤ n → s.length ≤ m →
      (∀ r, Inside st r → r.length ≤ s.length → Stays k r item item') →
        Stays k s (commaSeparatedWithin item n) (commaSeparatedWithin item' m)
  | 0, m, s, hs, hn, hm, hi => absurd (List.length_eq_zero_iff.mp (by omega)) hs.ne_nil
  | n + 1, 0, s, hs, hn, hm, hi => absurd (List.length_eq_zero_iff.mp (by omega)) hs.ne_nil
  | n + 1, m + 1, s, hs, hn, hm, hi => by
    refine (hi s hs (Nat.le_refl _)).bind hr hs fun a r hrs hd => ?_
    have hlen := length_le_of_done hr hd
    refine .eat_plain hrs (by simp) rfl (fun r' hrs' hlt => ?_) (.pure hrs.ne_nil _)
    refine (stays_commaSeparatedWithin hr hrs' (by omega) (by omega) fun q hq hql =>
      hi q hq (by omega)).bind (reads_commaSeparatedWithin hr m) hrs' fun b q hq _ =>
        .pure hq.ne_nil _

theorem stays_commaSeparated {item item' : Parse α} (hr : Reads item') (hs : Inside st s)
    (hi : ∀ r, Inside st r → r.length ≤ s.length → Stays k r item item') :
    Stays k s (commaSeparated item) (commaSeparated item') := by
  have h := stays_commaSeparatedWithin (n := (s ++ k.more).length) (m := s.length) hr hs
    (by simp) (Nat.le_refl _) hi
  exact ⟨h.same, h.inside⟩

theorem stays_skipGroup (hs : Inside st s) : Stays k s skipGroup skipGroup := by
  obtain ⟨t, r, rfl⟩ := hs.cons_eq
  cases hk : t.kind with
  | opening pair =>
    have hr := hs.opening hk
    obtain ⟨closer, rest, hc⟩ : ∃ closer rest, closeGroup pair [] r = .closed closer rest :=
      closed_of_nest hr.nest
    have hmore := closeGroup_append k.more pair [] r (by rw [hc]; simp)
    rw [hc, GroupEnd.onto] at hmore
    obtain ⟨w, last, rfl, -, hcl⟩ := nest_of_closed hc
    have hrest : rest ≠ [] := by
      obtain ⟨st', hi⟩ := hr.of_append (w := w) (s := closer :: rest) (by simp)
      exact hi.tail_ne_nil (.inl (by rw [hcl]; simp))
    refine ⟨?_, ?_⟩
    · simp only [skipGroup, Continued.whole, Continued.part, List.cons_append, hk, hmore, hc,
        Continued.onto, Cursor.goto]
    · simpa only [skipGroup, Continued.part, hk, hc, Cursor.goto, Reply.next] using hrest
  | _ =>
    have hc := Stays.complain (k := k) hs.ne_nil (α := Token)
      (.expectedToken (.opening .brace) t.kind)
    rw [hk] at hc
    apply hc.of_eq
    · simp only [skipGroup, Continued.whole, List.cons_append, hk]
    · simp only [skipGroup, Continued.part, hk]

section SkipUntil

variable {stops : TokenKind → Bool} {c : Cursor} {t : Token} {r : List Token} {pair : Delimiter}

theorem skipUntilWithin_stop (n : Nat) (hr : c.rest = t :: r) (hst : stops t.kind = true) :
    skipUntilWithin stops (n + 1) c = .done () c := by
  simp only [skipUntilWithin, hr, hst, ↓reduceIte]

theorem skipUntilWithin_opening (n : Nat) (hr : c.rest = t :: r) (hst : stops t.kind = false)
    (hk : t.kind = .opening pair) :
    skipUntilWithin stops (n + 1) c = (skipGroup >>= fun _ => skipUntilWithin stops n) c := by
  rw [hk] at hst
  simp only [skipUntilWithin, hr, hk, hst, bind_apply, Bool.false_eq_true, ↓reduceIte]
  cases skipGroup c <;> rfl

theorem skipUntilWithin_closing (n : Nat) (hr : c.rest = t :: r) (hst : stops t.kind = false)
    (hk : t.kind = .closing pair) :
    skipUntilWithin stops (n + 1) c = complain (.unexpectedCloser pair) c := by
  rw [hk] at hst
  simp only [skipUntilWithin, hr, hk, hst, Bool.false_eq_true, ↓reduceIte]

theorem skipUntilWithin_plain (n : Nat) (hr : c.rest = t :: r) (hst : stops t.kind = false)
    (hk : t.kind.isBracket = false) :
    skipUntilWithin stops (n + 1) c = skipUntilWithin stops n (c.goto r) := by
  simp only [skipUntilWithin, hr, hst, Bool.false_eq_true, ↓reduceIte]
  cases h : t.kind <;> simp_all [TokenKind.isBracket]

/-- **What is skipped up to a stop**: a `;` outside all brackets is a stop, or a bracket that
closes one of those around comes first. -/
theorem stays_skipUntilWithin :
    ∀ {n m : Nat} {s : List Token}, Inside st s → stops .semicolon ∨ st ≠ [] → s.length < n →
      s.length < m → Stays k s (skipUntilWithin stops n) (skipUntilWithin stops m)
  | 0, m, s, hs, hstop, hn, hm => by omega
  | n + 1, 0, s, hs, hstop, hn, hm => by omega
  | n + 1, m + 1, s, hs, hstop, hn, hm => by
    obtain ⟨t, r, rfl⟩ := hs.cons_eq
    rw [List.length_cons] at hn hm
    by_cases hst : stops t.kind = true
    · have hp := Stays.pure (k := k) hs.ne_nil ()
      exact hp.of_eq (skipUntilWithin_stop n rfl hst) (skipUntilWithin_stop m rfl hst)
    have hst : stops t.kind = false := Bool.not_eq_true _ ▸ hst
    have hplain (hb : t.kind.isBracket = false) :
        Stays k (t :: r) (skipUntilWithin stops (n + 1)) (skipUntilWithin stops (m + 1)) := by
      have hr : Inside st r := by
        refine hs.plain hb (hs.tail_ne_nil (hstop.imp_left fun hstop h => ?_))
        rw [h, hstop] at hst
        cases hst
      have hnext := stays_skipUntilWithin (n := n) (m := m) hr hstop (by omega) (by omega)
      exact hnext.of_eq (skipUntilWithin_plain n rfl hst hb) (skipUntilWithin_plain m rfl hst hb)
    cases hk : t.kind with
    | opening pair =>
      have hnext : Stays k (t :: r) (skipGroup >>= fun _ => skipUntilWithin stops n)
          (skipGroup >>= fun _ => skipUntilWithin stops m) := by
        refine (stays_skipGroup hs).bind reads_skipGroup hs fun a r' hr' hd => ?_
        have hlt : r'.length < (t :: r).length := takes_skipGroup _ _ _ hd
        rw [List.length_cons] at hlt
        exact stays_skipUntilWithin hr' hstop (by omega) (by omega)
      exact hnext.of_eq (skipUntilWithin_opening n rfl hst hk) (skipUntilWithin_opening m rfl hst hk)
    | closing pair =>
      have hc := Stays.complain (k := k) hs.ne_nil (α := Unit) (.unexpectedCloser pair)
      exact hc.of_eq (skipUntilWithin_closing n rfl hst hk) (skipUntilWithin_closing m rfl hst hk)
    | _ => exact hplain (by rw [hk]; rfl)

theorem stays_skipUntil (hs : Inside st s) (hstop : stops .semicolon ∨ st ≠ []) :
    Stays k s (skipUntil stops) (skipUntil stops) := by
  have h := stays_skipUntilWithin (k := k) (n := (s ++ k.more).length + 1) (m := s.length + 1) hs
    hstop (by rw [List.length_append]; omega) (by omega)
  exact ⟨h.same, h.inside⟩

end SkipUntil

theorem stays_skipAttributesWithin : ∀ {n m : Nat} {s : List Token}, Inside st s → s.length ≤ n →
    s.length ≤ m → Stays k s (skipAttributesWithin n) (skipAttributesWithin m)
  | 0, m, s, hs, hn, hm => absurd (List.length_eq_zero_iff.mp (by omega)) hs.ne_nil
  | n + 1, 0, s, hs, hn, hm => absurd (List.length_eq_zero_iff.mp (by omega)) hs.ne_nil
  | n + 1, m + 1, s, hs, hn, hm => by
    have heq (n : Nat) : skipAttributesWithin (n + 1) = (here >>= fun c =>
        if c.isAt (.opening .bracket) then skipGroup >>= fun _ => skipAttributesWithin n
        else Pure.pure ()) := by
      funext c
      simp only [skipAttributesWithin, here, bind_apply]
      split
      · rw [bind_apply]
        cases skipGroup c <;> rfl
      · rfl
    rw [heq n, heq m]
    refine .here_bind ?_
    rw [k.isAt_whole hs.ne_nil]
    refine .ite (fun _ => ?_) fun _ => .pure hs.ne_nil ()
    refine (stays_skipGroup hs).bind reads_skipGroup hs fun a r hr hd => ?_
    have hlt : r.length < s.length := takes_skipGroup _ _ _ hd
    exact stays_skipAttributesWithin hr (by omega) (by omega)

theorem stays_skipAttributes (hs : Inside st s) : Stays k s skipAttributes skipAttributes := by
  have h := stays_skipAttributesWithin (k := k) (n := (s ++ k.more).length) (m := s.length) hs
    (by simp) (Nat.le_refl _)
  exact ⟨h.same, h.inside⟩

theorem stays_skipConstraints {stops : TokenKind → Bool} (hs : Inside st s)
    (hstop : stops .semicolon ∨ st ≠ []) :
    Stays k s (skipConstraints stops) (skipConstraints stops) := by
  refine .here_bind ?_
  rw [k.isAtWord_whole hs.ne_nil]
  exact .ite (fun _ => stays_skipUntil hs hstop) fun _ => .pure hs.ne_nil ()

end ScriptHost
