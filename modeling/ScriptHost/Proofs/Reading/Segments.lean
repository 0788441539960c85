/-
# What the turns make of the tokens

A turn reads a lone `;`, the tokens that a directive owns, an item behind its attribute
groups, or, if it reports a problem and gives no item, some tokens that are lost. An item
stands for the tokens that its span tells of: it starts with the first of them, and the last
token that was read is the last of them. A script without problems loses none, so its tokens
fall into segments, one for each turn, and what an item takes is balanced.

Key definitions: `Item.StandsFor`, `AttributeGroups`, `TurnAt`, `Segment`.
Key theorems: `turnAt_turn`, `Script.segments_of_parse`.
-/
import ScriptHost.Proofs.Reading.Bodies

namespace ScriptHost

open Parse Source

/-! ### Items and their tokens -/

/-- The span starts where the first of the tokens starts and ends where the last one ends. -/
def Source.Span.Spans (s : Span) (w : List Token) : Prop :=
  ∃ t u, w.head? = some t ∧ w.getLast? = some u ∧
    s = .ofPosition t.start (u.stop - t.start.offset)

namespace Item

/-- Whether the item is a `#r` directive. -/
def isReference : Item → Bool
  | reference _ => true
  | _ => false

/-- The code that an item runs: the body of a method, or a statement. -/
def code? : Item → Option Body
  | method m => some m.body
  | statement b => some b
  | _ => none

/-- The item stands for the tokens: its span is theirs, the body of a method is the range of
the last of them, and a statement is the range of all. -/
def StandsFor (w : List Token) (item : Item) : Prop :=
  item.span.Spans w ∧
    match item with
    | method m =>
      m.body.kind.ends? ≠ none ∧ ∃ v b, w = v ++ b ∧ m.body.Covers b ∧ m.body.span.Spans b
    | statement b => b.kind = .statement ∧ b.Covers w
    | _ => True

end Item

/-- Attribute groups: bracketed groups, one behind the other. -/
inductive AttributeGroups : List Token → Prop
  | nil : AttributeGroups []
  | group {opener closer : Token} {inner r : List Token} (ho : opener.kind = .opening .bracket)
    (hc : closer.kind = .closing .bracket) (hi : Balanced inner) (hr : AttributeGroups r) :
    AttributeGroups (opener :: inner ++ closer :: r)

theorem AttributeGroups.balanced {w : List Token} (h : AttributeGroups w) : Balanced w := by
  induction h with
  | nil => exact .nil
  | group ho hc hi _ ih => exact .group ho hc hi ih

variable {c d start : Cursor} {w r ts : List Token} {t : Token} {declared : Bool} {item : Item}

theorem spans_spanSince (h : c.rest = w ++ d.rest) (hw : w ≠ []) : (c.spanSince d).Spans w := by
  obtain ⟨t, r, rfl⟩ := List.exists_cons_of_ne_nil hw
  have hu := List.getLast?_eq_some_getLast hw
  refine ⟨t, _, rfl, hu, ?_⟩
  have hplace : c.place = t.start := by
    unfold Cursor.place
    rw [h]
    rfl
  have hstop : c.stopSince d = ((t :: r).getLast hw).stop := by
    unfold Cursor.stopSince
    rw [readUpTo_eq h, hu]
    rfl
  rw [Cursor.spanSince, hplace, hstop]

/-! ### Where readers end -/

namespace Parse

variable {α β : Type}

/-- What holds of the value that a reader gives and the place where it ends. -/
def Gives (P : α → Cursor → Prop) (p : Parse α) : Prop := ∀ c a d, p c = .done a d → P a d

theorem Gives.bind {P : β → Cursor → Prop} {p : Parse α} {k : α → Parse β}
    (hk : ∀ a, Gives P (k a)) : Gives P (p >>= k) := by
  intro c b d h
  obtain ⟨a, e, -, hd⟩ := bind_eq_done.mp h
  exact hk a e b d hd

theorem Gives.here {P : α → Cursor → Prop} {f : Cursor → α} (h : ∀ d, P (f d) d) :
    Gives P (Parse.here >>= fun stop => Pure.pure (f stop)) := by
  intro c a d hd
  obtain ⟨rfl, rfl⟩ := Reply.done.inj hd
  exact h c

theorem Gives.ite {P : α → Cursor → Prop} {b : Prop} [Decidable b] {p q : Parse α}
    (hp : Gives P p) (hq : Gives P q) : Gives P (if b then p else q) := by
  split
  · exact hp
  · exact hq

theorem Gives.complain {P : α → Cursor → Prop} (complaint : Complaint) :
    Gives P (Parse.complain complaint : Parse α) := by
  intro c a d h
  cases h

/-- A declaration ends where the reader of it does. -/
theorem gives_method (start : Cursor) (modifiers : Modifiers) (returns : TypeExpr) :
    Gives (fun m d => m.span = start.spanSince d) (method start modifiers returns) :=
  .bind fun _ => .bind fun _ => .bind fun _ => .bind fun _ => .bind fun _ => .here fun _ => rfl

theorem gives_property (start : Cursor) (modifiers : Modifiers) (type : TypeExpr) :
    Gives (fun p d => p.span = start.spanSince d) (property start modifiers type) :=
  .bind fun _ => .bind fun _ => .ite
    (.bind fun _ => .bind fun _ => .ite (.bind fun _ => .bind fun _ => .here fun _ => rfl)
      (.here fun _ => rfl))
    (.bind fun _ => .here fun _ => rfl)

theorem gives_field (start : Cursor) (modifiers : Modifiers) (type : TypeExpr) :
    Gives (fun f d => f.span = start.spanSince d) (field start modifiers type) :=
  .bind fun _ => .bind fun _ => .here fun _ => rfl

theorem gives_typeDecl (start : Cursor) (modifiers : Modifiers) :
    Gives (fun t d => t.span = start.spanSince d) (typeDecl start modifiers) :=
  .bind fun _ => .bind fun _ => .bind fun _ => .bind fun _ => .bind fun _ => .bind fun _ =>
    .bind fun _ => .ite (.bind fun _ => .bind fun _ => .here fun _ => rfl)
      (.bind fun _ => .here fun _ => rfl)

theorem gives_body (start : Cursor) :
    ∀ b d, body start = .done b d → b.span = start.spanSince d := by
  intro b d h
  unfold body at h
  rw [here_bind_apply] at h
  refine Gives.ite (P := fun b d => b.span = start.spanSince d) ?_ ?_ start b d h
  · exact .bind fun _ => .here fun _ => rfl
  · exact .bind fun _ => .ite (.bind fun _ => .bind fun _ => .here fun _ => rfl) (.complain _)

/-! ### Attribute groups -/

theorem attributeGroups_of_skipAttributesWithin : ∀ (n : Nat) {c d : Cursor},
    skipAttributesWithin n c = .done () d → ∃ w, c.rest = w ++ d.rest ∧ AttributeGroups w
  | 0, c, d, h => by
    obtain ⟨-, rfl⟩ := Reply.done.inj h
    exact ⟨[], rfl, .nil⟩
  | n + 1, c, d, h => by
    unfold skipAttributesWithin at h
    split at h
    · next hat =>
      obtain ⟨t, r, hr, hk⟩ := exists_of_isAt hat
      cases hg : skipGroup c with
      | done closer e =>
        rw [hg] at h
        obtain ⟨inner, hw, hi, hcl⟩ := group_of_skipGroup hr hk hg
        obtain ⟨w, hrest, hgroups⟩ := attributeGroups_of_skipAttributesWithin n h
        exact ⟨t :: inner ++ closer :: w, by rw [hw, hrest]; simp, .group hk hcl hi hgroups⟩
      | failed error e =>
        rw [hg] at h
        cases h
    · obtain ⟨-, rfl⟩ := Reply.done.inj h
      exact ⟨[], rfl, .nil⟩

theorem attributeGroups_of_skipAttributes (h : skipAttributes c = .done () d) :
    ∃ w, c.rest = w ++ d.rest ∧ AttributeGroups w :=
  attributeGroups_of_skipAttributesWithin _ h

/-! ### Members and type declarations -/

/-- A method stands for what was read of it, and its body for the end of that. -/
theorem standsFor_method {modifiers : Modifiers} {returns : TypeExpr} {m : MethodDecl}
    (hs : start.rest = w ++ c.rest) (h : method start modifiers returns c = .done m d) :
    ∃ v, start.rest = v ++ d.rest ∧ (Item.method m).StandsFor v := by
  obtain ⟨v, e, hv, hbody⟩ := body_of_method h
  obtain ⟨hends, x, hx, hcovers⟩ := covers_body hbody
  have hne : x ≠ [] := by
    rintro rfl
    obtain ⟨t, -, ht, -⟩ := hcovers
    cases ht
  have hall : start.rest = (w ++ v ++ x) ++ d.rest := by
    simp only [hs, hv, hx, List.append_assoc]
  refine ⟨_, hall, ?_, hends, w ++ v, x, rfl, hcovers, ?_⟩
  · rw [Item.span, gives_method start modifiers returns c m d h]
    exact spans_spanSince hall (by simp [hne])
  · rw [gives_body e m.body d hbody]
    exact spans_spanSince hx hne

/-- Behind a member the cursor stands where its span ends. -/
theorem standsFor_readMember {modifiers : Modifiers} {type : TypeExpr} {sort : MemberSort}
    (hs : start.rest = w ++ c.rest) (h : readMember start modifiers type sort c = .done (some item) d) :
    ∃ v, start.rest = v ++ d.rest ∧ item.StandsFor v ∧ item.isReference = false := by
  have hlt := takes_readMember start modifiers type sort c _ d h
  obtain ⟨v, hv, -, -⟩ := (reads_readMember start modifiers type sort).done h
  have hall : start.rest = (w ++ v) ++ d.rest := by rw [hs, hv, List.append_assoc]
  have hne : w ++ v ≠ [] := by
    intro he
    rw [(List.append_eq_nil_iff.mp he).2] at hv
    rw [hv] at hlt
    exact absurd hlt (Nat.lt_irrefl _)
  cases sort with
  | method =>
    obtain ⟨m, hm, hi⟩ := map_eq_done.mp h
    obtain rfl : Item.method m = item := by simpa using hi
    obtain ⟨x, hx, hstands⟩ := standsFor_method hs hm
    exact ⟨x, hx, hstands, rfl⟩
  | property =>
    obtain ⟨p, hp, hi⟩ := map_eq_done.mp h
    obtain rfl : Item.property p = item := by simpa using hi
    refine ⟨w ++ v, hall, ⟨?_, trivial⟩, rfl⟩
    rw [Item.span, gives_property start modifiers type c p d hp]
    exact spans_spanSince hall hne
  | field =>
    obtain ⟨f, hf, hi⟩ := map_eq_done.mp h
    obtain rfl : Item.field f = item := by simpa using hi
    refine ⟨w ++ v, hall, ⟨?_, trivial⟩, rfl⟩
    rw [Item.span, gives_field start modifiers type c f d hf]
    exact spans_spanSince hall hne

theorem standsFor_member? {modifiers : Modifiers} (hs : start.rest = w ++ c.rest)
    (h : member? start modifiers c = .done (some item) d) :
    ∃ v, start.rest = v ++ d.rest ∧ item.StandsFor v ∧ item.isReference = false := by
  cases hd : typeExpr c with
  | failed e d' => simp [member?_of_failed start modifiers hd] at h
  | done type named =>
    rw [member?_of_type start modifiers hd] at h
    obtain ⟨x, hx, -, -⟩ := reads_typeExpr.done hd
    split at h
    · split at h
      · refine standsFor_readMember (w := w ++ x) ?_ h
        rw [hs, hx, List.append_assoc]
      · simp at h
    · simp at h

end Parse

/-! ### Turns -/

/-- What a turn makes of the tokens `ts`, by the kind of the first one: nothing of a lone
`;`, a reference or nothing of a directive, otherwise an item behind its attributes or a
problem. -/
inductive TurnAt (declared : Bool) (ts : List Token) : Turn → Prop
  | semicolon {t : Token} {d : Cursor} (hk : t.kind = .semicolon) (hw : ts = t :: d.rest) :
    TurnAt declared ts ⟨none, none, d⟩
  | directive {t : Token} {w : List Token} {item? : Option Item} {error? : Option ParseError}
    {d : Cursor} (hk : t.kind = .hash) (hw : ts = t :: w ++ d.rest)
    (hitem : ∀ item, item? = some item → declared = false ∧ item.isReference ∧
      ∃ v, v <+: t :: w ∧ item.StandsFor v) :
    TurnAt declared ts ⟨item?, error?, d⟩
  | item {t : Token} {attributes w : List Token} {item : Item} {error? : Option ParseError}
    {d : Cursor} (ht : ts.head? = some t) (hk : declares t.kind) (ha : AttributeGroups attributes)
    (hw : ts = attributes ++ w ++ d.rest) (hi : item.StandsFor w) (hr : item.isReference = false)
    (hn : error? = none → Neutral w) :
    TurnAt declared ts ⟨some item, error?, d⟩
  | problem {t : Token} {w : List Token} {error : ParseError} {d : Cursor} (ht : ts.head? = some t)
    (hk : declares t.kind) (hw : ts = w ++ d.rest) :
    TurnAt declared ts ⟨none, some error, d⟩

/-- What a statement reads is neutral if it ends as a statement may. -/
theorem neutral_statementEndWithin : ∀ (n : Nat) {c d : Cursor},
    statementEndWithin n c = (none, d) → ∃ w, c.rest = w ++ d.rest ∧ Neutral w
  | 0, c, d, h => by
    obtain ⟨-, rfl⟩ := Prod.mk.inj h
    exact ⟨[], rfl, .nil⟩
  | n + 1, c, d, h => by
    unfold statementEndWithin at h
    split at h
    · obtain ⟨-, rfl⟩ := Prod.mk.inj h
      exact ⟨[], rfl, .nil⟩
    next t r hr =>
    split at h
    · next hk =>
      obtain ⟨-, rfl⟩ := Prod.mk.inj h
      exact ⟨[t], hr, .single (by rw [hk]; rfl)⟩
    · split at h
      · cases h
      · next closer e he =>
        obtain ⟨w, hw, -, hn⟩ := reads_skipGroup.done he
        split at h
        · obtain ⟨-, rfl⟩ := Prod.mk.inj h
          exact ⟨w, hw, hn⟩
        · obtain ⟨v, hv, hvn⟩ := neutral_statementEndWithin n h
          exact ⟨w ++ v, by rw [List.append_assoc, ← hv, hw], hn.append hvn⟩
    · cases h
    · next h2 h3 =>
      have hb : t.kind.isBracket = false := by
        cases hk : t.kind with
        | opening pair => exact absurd hk (h2 pair)
        | closing pair => exact absurd hk (h3 pair)
        | _ => rfl
      obtain ⟨v, hv, hvn⟩ := neutral_statementEndWithin n h
      have hv : r = v ++ d.rest := hv
      exact ⟨t :: v, by rw [hr, hv]; rfl, .cons hb hvn⟩

theorem turnAt_statement (hr : c.rest = t :: r) (hk : declares t.kind) :
    TurnAt declared c.rest (statement c) := by
  obtain ⟨w, hne, hw, -⟩ := statement_before hr
  have hn : (statement c).error? = none → Neutral w := by
    intro he
    obtain ⟨v, hv, hvn⟩ := neutral_statementEndWithin c.rest.length
      (d := (statement c).next) (Prod.ext he rfl)
    have hsame : w = v := List.append_cancel_right (hw.symm.trans hv)
    rw [hsame]
    exact hvn
  unfold statement at hw hn ⊢
  refine .item (by rw [hr]; rfl) hk AttributeGroups.nil hw ⟨spans_spanSince hw hne, rfl, ?_⟩
    rfl hn
  exact covers_bodySince hw hne fun _ _ _ _ k hk => by cases hk

/-- A turn that fails in front of nothing but what it was given loses some of it. -/
theorem turnAt_recover (e : ParseError) (hr : c.rest = t :: r) (hk : declares t.kind)
    (hw : c.rest = w ++ d.rest) (hf : d.finish = c.finish) :
    TurnAt declared c.rest (Turn.recover c e d) := by
  obtain ⟨v, -, hv, -⟩ := recover_before e hr hw hf
  exact .problem (by rw [hr]; rfl) hk hv

theorem turnAt_declaration (hr : c.rest = t :: r) (hk : declares t.kind) :
    TurnAt declared c.rest (declaration t c) := by
  unfold declaration
  split
  · next e d hd =>
    obtain ⟨w, hw, hf⟩ := reads_skipAttributes.failed hd
    exact turnAt_recover e hr hk hw hf
  next u start hstart =>
  obtain ⟨a, ha, hgroups⟩ := attributeGroups_of_skipAttributes hstart
  obtain ⟨_, -, hf1, -⟩ := reads_skipAttributes.done hstart
  split
  · next e d hd =>
    obtain ⟨w, hw, hf⟩ := reads_modifiers.failed hd
    exact turnAt_recover e hr hk (w := a ++ w) (by rw [ha, hw, List.append_assoc]) (hf.trans hf1)
  next modifiers d hd =>
  obtain ⟨w2, hw2, hf2, hn2⟩ := reads_modifiers.done hd
  have hw : c.rest = (a ++ w2) ++ d.rest := by rw [ha, hw2, List.append_assoc]
  have hf : d.finish = c.finish := hf2.trans hf1
  -- an item that was read of tokens behind the attributes, in one way or another
  have hitem {item : Item} {e : Cursor} {v x : List Token} (hv : start.rest = v ++ e.rest)
      (hi : item.StandsFor v) (href : item.isReference = false) (hx : d.rest = x ++ e.rest)
      (hxn : Neutral x) : TurnAt declared c.rest ⟨some item, none, e⟩ := by
    have hsame : v = w2 ++ x := by
      have hrest : v ++ e.rest = (w2 ++ x) ++ e.rest := by rw [← hv, hw2, hx, List.append_assoc]
      exact List.append_cancel_right hrest
    refine .item (by rw [hr]; rfl) hk hgroups ?_ hi href fun _ => hsame ▸ hn2.append hxn
    rw [ha, hv, List.append_assoc]
  split
  · next hword =>
    obtain ⟨s, r', hd', hs⟩ : ∃ s r', d.rest = s :: r' ∧ s.kind.isTypeWord := by
      cases hdr : d.rest with
      | nil => simp [Cursor.kind?, hdr] at hword
      | cons s r' => exact ⟨s, r', rfl, by simpa [Cursor.kind?, hdr] using hword⟩
    obtain ⟨x, hx, hxf, hxn⟩ := leaves_typeDecl start modifiers hd' hs
    obtain ⟨d0, v0, hv0, -, -, v1, hv1, -, -⟩ := typeDecl_behindWord start modifiers hd' hs
    rw [map_apply]
    cases htd : typeDecl start modifiers d with
    | failed e d2 =>
      rw [htd] at hx hxf
      have hx : d.rest = x ++ d2.rest := hx
      exact turnAt_recover e hr hk (w := a ++ w2 ++ x) (by rw [hw, hx]; simp) (hxf.trans hf)
    | done decl d2 =>
      rw [htd] at hx hxn hv1
      have hxn := hxn rfl
      have hx : d.rest = x ++ d2.rest := hx
      have hv1 : d0.rest = v1 ++ d2.rest := hv1
      have hne : w2 ++ x ≠ [] := by
        have hxx : x = s :: v0 ++ v1 := by
          have hrest : x ++ d2.rest = (s :: v0 ++ v1) ++ d2.rest := by
            rw [← hx, hv0, hv1, List.append_assoc]
          exact List.append_cancel_right hrest
        simp [hxx]
      have hall : start.rest = (w2 ++ x) ++ d2.rest := by rw [hw2, hx, List.append_assoc]
      refine hitem hall ⟨?_, trivial⟩ rfl hx hxn
      rw [Item.span, gives_typeDecl start modifiers d decl d2 htd]
      exact spans_spanSince hall hne
  · split
    · next e d' hm =>
      obtain ⟨v, hv, hvf⟩ := (reads_member? start modifiers).failed hm
      exact turnAt_recover e hr hk (w := a ++ w2 ++ v) (by rw [hw, hv]; simp)
        (hvf.trans hf)
    · next item d' hm =>
      obtain ⟨x, hx, -, hxn⟩ := (reads_member? start modifiers).done hm
      obtain ⟨v, hv, hi, href⟩ := standsFor_member? hw2 hm
      exact hitem hv hi href hx hxn
    · split
      · exact turnAt_statement hr hk
      · exact turnAt_recover _ hr hk hw hf

/-- A reference stands for its directive's tokens from the `#` to the string. -/
theorem standsFor_reference {v : List Token} (hs : start.rest = t :: v ++ c.rest)
    (h : reference declared start c = .done item d) :
    declared = false ∧ item.isReference ∧ ∃ u, start.rest = t :: v ++ u :: d.rest ∧
      item.StandsFor (t :: v ++ [u]) := by
  obtain ⟨literal, e1, h1, h⟩ := bind_eq_done.mp h
  obtain ⟨stop, e2, h2, h⟩ := bind_eq_done.mp h
  obtain ⟨rfl, rfl⟩ := Reply.done.inj h2
  cases declared with
  | true => cases h
  | false =>
    obtain ⟨rfl, rfl⟩ := Reply.done.inj h
    rcases expect_eq .stringLiteral c with ⟨u, r, hr, -, hx⟩ | ⟨e, hx⟩
    · rw [hx] at h1
      obtain ⟨rfl, rfl⟩ := Reply.done.inj h1
      have hall : start.rest = (t :: v ++ [u]) ++ r := by rw [hs, hr]; simp
      refine ⟨rfl, rfl, u, by rw [hs, hr]; rfl, ?_, trivial⟩
      exact spans_spanSince (d := c.goto r) hall (by simp)
    · rw [hx] at h1
      cases h1

theorem turnAt_directive (hr : c.rest = t :: r) (hk : t.kind = .hash) :
    TurnAt declared c.rest (directive declared c t r) := by
  have hline {v : List Token} {item? : Option Item} {error? : Option ParseError} (d : Cursor)
      (hv : c.rest = t :: v ++ d.rest)
      (hitem : ∀ item, item? = some item → declared = false ∧ item.isReference ∧
        item.StandsFor (t :: v)) :
      TurnAt declared c.rest
        ⟨item?, error?, d.goto (d.rest.dropWhile fun u => u.start.line == t.start.line)⟩ := by
    refine .directive (w := v ++ d.rest.takeWhile fun u => u.start.line == t.start.line) hk ?_ ?_
    · rw [hv]
      simp [Cursor.goto]
    · intro item hi
      obtain ⟨hd, href, hstands⟩ := hitem item hi
      exact ⟨hd, href, t :: v, ⟨_, rfl⟩, hstands⟩
  have hnone {P : Item → Prop} : ∀ item, (none : Option Item) = some item → P item := by
    intro item hi
    cases hi
  unfold directive
  simp only
  split
  · exact .directive (w := []) hk hr hnone
  next name r' =>
  split
  · split
    · split
      · next item d hd =>
        obtain ⟨hdecl, href, u, hu, hi⟩ := standsFor_reference (v := [name]) hr hd
        refine hline (v := [name, u]) d hu fun item' hi' => ?_
        obtain rfl := Option.some.inj hi'
        exact ⟨hdecl, href, hi⟩
      · next e d hd =>
        obtain ⟨w, hw, -⟩ := (reads_reference declared c).failed hd
        have hw : r' = w ++ d.rest := hw
        exact hline (v := name :: w) d (by rw [hr, hw]; simp) hnone
    · split
      · exact hline (v := []) (c.goto (name :: r')) hr hnone
      · exact hline (v := []) (c.goto (name :: r')) hr hnone
  · exact hline (v := []) (c.goto (name :: r')) hr hnone

/-- A using stands for all that is read of it. -/
theorem turnAt_usingDirective (hr : c.rest = t :: r) (hk : declares t.kind) :
    TurnAt declared c.rest (.ofReply c ((.usingDirective <$> usingDirective) c)) := by
  obtain ⟨w, hw, hf, hn⟩ := reads_usingDirective c
  rw [map_apply]
  cases hd : usingDirective c with
  | failed e d =>
    rw [hd] at hw hf
    exact turnAt_recover e hr hk hw hf
  | done u d =>
    have hlt := takes_usingDirective c u d hd
    rw [hd] at hw hn
    have hw : c.rest = w ++ d.rest := hw
    have hne : w ≠ [] := by
      rintro rfl
      rw [hw] at hlt
      exact absurd hlt (Nat.lt_irrefl _)
    have hspan : u.span = c.spanSince d := by
      unfold usingDirective at hd
      rw [here_bind_apply] at hd
      refine Gives.bind (P := fun u d => u.span = c.spanSince d) (fun _ => ?_) c u d hd
      exact .bind fun _ => .bind fun _ => .bind fun _ => .bind fun _ => .here fun _ => rfl
    refine .item (by rw [hr]; rfl) hk AttributeGroups.nil hw ⟨?_, trivial⟩ rfl fun _ => hn rfl
    rw [Item.span, hspan]
    exact spans_spanSince hw hne

/-- **What every turn makes of its tokens.** -/
theorem turnAt_turn (hr : c.rest = t :: r) : TurnAt declared c.rest (turn declared c) := by
  unfold turn
  rw [hr]
  simp only
  rw [← hr]
  split
  · next hk => exact .semicolon hk hr
  · next hk => exact turnAt_directive hr hk
  · next hk =>
    have hdeclares : declares t.kind := by rw [hk]; rfl
    split
    · exact turnAt_usingDirective hr hdeclares
    · exact turnAt_statement hr hdeclares
  · next h1 h2 _ =>
    have hdeclares : declares t.kind := by
      unfold declares
      cases hk : t.kind <;> simp_all
    split
    · exact turnAt_declaration hr hdeclares
    · exact turnAt_statement hr hdeclares

/-! ### Segments -/

/-- What a turn that reports nothing reads: a lone `;`, a directive with the reference that it
may make, or an item behind its attributes. -/
inductive Segment where
  | semicolon (t : Token)
  | directive (sharp : Token) (line : List Token) (reference? : Option Item)
  | item (attributes declaration : List Token) (item : Item)

namespace Segment

def tokens : Segment → List Token
  | .semicolon t => [t]
  | .directive sharp line _ => sharp :: line
  | .item attributes declaration _ => attributes ++ declaration

/-- The item of the segment. -/
def item? : Segment → Option Item
  | .semicolon _ => none
  | .directive _ _ reference? => reference?
  | .item _ _ item => some item

/-- The item of the segment if it is not a directive. -/
def declared? : Segment → Option Item
  | .item _ _ item => some item
  | _ => none

/-- The segment is what it says: a `;`; tokens from a `#` on, from which nothing but a
reference is made; or balanced tokens, attribute groups first, and an item that stands for
all that is behind these. -/
def Sound : Segment → Prop
  | .semicolon t => t.kind = .semicolon
  | .directive sharp line reference? =>
    sharp.kind = .hash ∧ ∀ item, reference? = some item → item.isReference ∧
      ∃ v, v <+: sharp :: line ∧ item.StandsFor v
  | .item attributes declaration item =>
    Balanced (attributes ++ declaration) ∧ AttributeGroups attributes ∧
      item.StandsFor declaration ∧ item.isReference = false

end Segment

/-- A turn without a problem reads a segment. -/
theorem TurnAt.segment {turn : Turn} (h : TurnAt declared ts turn) (he : turn.error? = none) :
    ∃ s : Segment, ts = s.tokens ++ turn.next.rest ∧ s.item? = turn.item? ∧ s.Sound := by
  cases h with
  | semicolon hk hw => exact ⟨.semicolon _, hw, rfl, hk⟩
  | directive hk hw hitem =>
    exact ⟨.directive _ _ _, hw, rfl, hk, fun item hi => (hitem item hi).2⟩
  | item ht hk ha hw hi hr hn =>
    refine ⟨.item _ _ _, hw, rfl, ?_, ha, hi, hr⟩
    exact balanced_iff_neutral.mpr ((neutral_of_balanced ha.balanced).append (hn he))
  | problem => cases he

/-- A run of turns without problems reads segments, by induction on the run. -/
theorem Turns.segments {after : Bool} {items : List Item} {errors : List ParseError}
    (h : Turns declared c after d items errors) (he : errors = []) :
    ∃ segments : List Segment, c.rest = segments.flatMap Segment.tokens ++ d.rest ∧
      items = segments.filterMap Segment.item? ∧ ∀ s ∈ segments, s.Sound := by
  induction h with
  | stay declared c => exact ⟨[], rfl, rfl, by simp⟩
  | @turn declared after c d t r items errors hr more ih =>
    obtain ⟨hnow, hlater⟩ := List.append_eq_nil_iff.mp he
    obtain ⟨segments, hw, rfl, hsound⟩ := ih hlater
    have hnone : (ScriptHost.turn declared c).error? = none := Option.toList_eq_nil_iff.mp hnow
    obtain ⟨s, hs, hitem, hsSound⟩ := (turnAt_turn hr).segment hnone
    refine ⟨s :: segments, ?_, ?_, ?_⟩
    · rw [hs, hw, List.flatMap_cons, List.append_assoc]
    · rw [List.filterMap_cons, hitem]
      cases (ScriptHost.turn declared c).item? <;> rfl
    · intro s' hs'
      rcases List.mem_cons.mp hs' with rfl | hs'
      · exact hsSound
      · exact hsound s' hs'

/-- The items behind attributes are those that are no references. -/
theorem filterMap_declared? : ∀ {segments : List Segment}, (∀ s ∈ segments, s.Sound) →
    segments.filterMap Segment.declared? =
      (segments.filterMap Segment.item?).filter (!·.isReference)
  | [], _ => rfl
  | s :: segments, h => by
    have ih := filterMap_declared? fun s hs => h s (List.mem_cons_of_mem _ hs)
    have hs := h s List.mem_cons_self
    cases s with
    | semicolon t => simpa [List.filterMap_cons, Segment.declared?, Segment.item?] using ih
    | directive sharp line reference? =>
      cases reference? with
      | none => simpa [List.filterMap_cons, Segment.declared?, Segment.item?] using ih
      | some item =>
        have href := (hs.2 item rfl).1
        simpa [List.filterMap_cons, Segment.declared?, Segment.item?, href] using ih
    | item attributes declaration item =>
      have href := hs.2.2.2
      simpa [List.filterMap_cons, Segment.declared?, Segment.item?, href] using ih

/-- **No token of an accepted script is lost, and nothing unbalanced is accepted.** The tokens
are those of segments, one behind the other: a lone `;`, a directive from its `#` on, or an
item, its attribute groups included. The items of the script that are no references are those
of these segments, one each and in order, each stands for the tokens behind its attributes,
and attributes and item together are balanced over the three bracket pairs. -/
theorem Script.segments_of_parse {source : String} {script : Script}
    (h : parse source = .ok script) :
    ∃ segments : List Segment,
      (lex source).tokens = segments.flatMap Segment.tokens ∧
      (∀ s ∈ segments, s.Sound) ∧
      script.items.filter (!·.isReference) = segments.filterMap Segment.declared? ∧
      script.items = segments.filterMap Segment.item? := by
  obtain ⟨-, hitems⟩ := Script.parse_eq_ok_iff.mp ⟨script, h, rfl⟩
  obtain ⟨after, d, hd, hrun⟩ := Cursor.items_eq_iff.mp hitems
  obtain ⟨segments, hw, hsegments, hsound⟩ := hrun.segments rfl
  rw [hd, List.append_nil] at hw
  exact ⟨segments, hw, hsound, by rw [hsegments, filterMap_declared? hsound], hsegments⟩

/-- A reference, a lone `;`, a method behind an attribute group, and a statement. -/
def sampleDeclarations : String := "#r \"Lib\"\n;[A(1)] int F() { }\nx = F();"

theorem sampleDeclarations_segments :
    ∃ script, Script.parse sampleDeclarations = .ok script ∧ script.items.length = 3 ∧
      ∃ segments : List Segment,
        (lex sampleDeclarations).tokens = segments.flatMap Segment.tokens ∧
        (∀ s ∈ segments, s.Sound) ∧
        script.items.filter (!·.isReference) = segments.filterMap Segment.declared? ∧
        script.items = segments.filterMap Segment.item? := by
  have hthree : (Script.parse sampleDeclarations).toOption.map (·.items.length) = some 3 := by
    decide +kernel
  cases hparse : Script.parse sampleDeclarations with
  | error errors =>
    rw [hparse] at hthree
    cases hthree
  | ok script =>
    rw [hparse] at hthree
    exact ⟨script, rfl, Option.some.inj hthree, Script.segments_of_parse hparse⟩

end ScriptHost
