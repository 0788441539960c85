/-
# Where the items of a script stand

The items of a script stand for tokens that follow one another, and tokens are stretches of
the source. So each item is a piece of the source that is not empty, behind the pieces of all
items before it, and its span tells of that piece: a line and a column belong to one byte
only. The body of a method ends where its method does. References come first, as what is
no directive ends the place for them.

Key definitions: `byteAt?`, `Source.Span.range?`, `Source.Span.Marks`, `InOrder`,
`Script.WellPlaced`.
Key theorems: `byteAt?_advance`, `Turns.inOrder`, `InOrder.marks`, `Script.exists_marks`,
`Script.text_of_method`, `Script.text_of_statement`, `Script.wellPlaced`.
-/
import Mathlib.Data.List.Forall2
import ScriptHost.Proofs.Reading.Segments

namespace ScriptHost

open Parse Source

/-! ### Lines and columns -/

/-- The byte at a line and a column, in a text that stands at the place `p`. -/
def byteAt? (line column : Nat) : Position → List Char → Option Nat
  | p, [] => if p.line = line ∧ p.column = column then some p.offset else none
  | p, c :: cs =>
    if p.line = line ∧ p.column = column then some p.offset
    else byteAt? line column (p.step c) cs

/-- The bytes of a source that a span tells of: so many as it has, from its line and column. -/
def Source.Span.range? (source : String) (s : Span) : Option (Nat × Nat) :=
  (byteAt? s.line s.column .start source.toList).map fun start => (start, start + s.length)

/-- Behind a character the line is later, or the column on the same line is. -/
theorem later_advance : ∀ (cs : List Char) (p : Position) (c : Char),
    p.line < (p.advance (c :: cs)).line ∨
      (p.line = (p.advance (c :: cs)).line ∧ p.column < (p.advance (c :: cs)).column)
  | cs, p, c => by
    have hstep : p.line < (p.step c).line ∨
        (p.line = (p.step c).line ∧ p.column < (p.step c).column) := by
      unfold Position.step
      split
      · exact .inl (Nat.lt_succ_self _)
      · exact .inr ⟨rfl, Nat.lt_add_of_pos_right c.utf8Size_pos⟩
    rw [Position.advance_cons]
    cases cs with
    | nil => exact hstep
    | cons d cs =>
      have hmore := later_advance cs (p.step c) d
      rcases hstep with hs | ⟨hs, hs'⟩ <;> rcases hmore with hm | ⟨hm, hm'⟩
      · exact .inl (Nat.lt_trans hs hm)
      · exact .inl (hm ▸ hs)
      · exact .inl (hs ▸ hm)
      · exact .inr ⟨hs.trans hm, Nat.lt_trans hs' hm'⟩

/-- **A line and a column belong to one byte**: the one where a reader comes to them. -/
theorem byteAt?_advance : ∀ (a b : List Char) (p : Position),
    byteAt? (p.advance a).line (p.advance a).column p (a ++ b) = some (p.advance a).offset
  | [], b, p => by
    rw [List.nil_append, Position.advance_nil]
    cases b <;> simp [byteAt?]
  | c :: a, b, p => by
    have hlater := later_advance a p c
    have hne : ¬ (p.line = (p.advance (c :: a)).line ∧ p.column = (p.advance (c :: a)).column) := by
      omega
    rw [List.cons_append, byteAt?, if_neg hne, Position.advance_cons]
    exact byteAt?_advance a b (p.step c)

/-! ### Spans and pieces of a source -/

/-- The span marks the piece `text` of the source behind `before`, and the piece is not empty. -/
structure Source.Span.Marks (source : String) (s : Span) (before text : List Char) : Prop where
  inside : before ++ text <+: source.toList
  ne_nil : text ≠ []
  eq : s = .ofPosition (Position.start.advance before) (byteLength text)

namespace Source.Span.Marks

variable {source : String} {s : Span} {before text : List Char}

theorem byteAt?_eq (h : s.Marks source before text) :
    byteAt? s.line s.column .start source.toList = some (byteLength before) := by
  obtain ⟨behind, hb⟩ := h.inside
  have hat := byteAt?_advance before (text ++ behind) .start
  rw [← List.append_assoc, hb, offset_advance_start] at hat
  rw [h.eq]
  exact hat

theorem range?_eq (h : s.Marks source before text) :
    s.range? source = some (byteLength before, byteLength before + byteLength text) := by
  rw [range?, h.byteAt?_eq, h.eq]
  rfl

theorem slice (h : s.Marks source before text) :
    sliceBytes (byteLength before) (byteLength before + byteLength text) source.toList
      = some text := by
  obtain ⟨behind, hb⟩ := h.inside
  rw [← hb]
  exact sliceBytes_append before text behind

theorem lt (h : s.Marks source before text) :
    byteLength before < byteLength before + byteLength text := by
  obtain ⟨c, text, rfl⟩ := List.exists_cons_of_ne_nil h.ne_nil
  have hpos := c.utf8Size_pos
  rw [byteLength_cons]
  omega

theorem le (h : s.Marks source before text) :
    byteLength before + byteLength text ≤ byteLength source.toList := by
  obtain ⟨behind, hb⟩ := h.inside
  rw [← hb, byteLength_append, byteLength_append]
  omega

end Source.Span.Marks

variable {c d : Cursor} {p : Position} {cs : List Char} {w v b r ts : List Token} {t u : Token}
  {declared after : Bool} {item : Item} {items : List Item} {errors : List ParseError}

/-- Every token covers a byte at least. -/
theorem length_pos_of_mem_lexWithin : ∀ (n : Nat) (p : Position) (cs : List Char),
    ∀ t ∈ (lexWithin n p cs).tokens, 0 < t.length
  | 0, p, cs, t, ht => by simp [lexWithin, Lexed.tokens] at ht
  | n + 1, p, cs, t, ht => by
    unfold lexWithin at ht
    split at ht
    next blank after hta =>
    split at ht
    · simp [Lexed.tokens] at ht
    · next c r =>
      have hmore := length_pos_of_mem_lexWithin n
        ((p.advance blank).advance (c :: (scan c r).taken)) (scan c r).rest t
      cases hv : (scan c r).verdict with
      | token kind lexeme =>
        simp only [Lexed.tokens, Scan.lexeme, hv, List.filterMap_cons, List.mem_cons] at ht
        rcases ht with rfl | ht
        · have hpos := c.utf8Size_pos
          simp only [byteLength_cons]
          omega
        · exact hmore ht
      | fault fault length =>
        simp only [Lexed.tokens, Scan.lexeme, hv, List.filterMap_cons] at ht
        exact hmore ht

theorem length_pos_of_mem_lex {source : String} (ht : t ∈ (lex source).tokens) : 0 < t.length :=
  length_pos_of_mem_lexWithin _ _ _ t ht

/-- The text of a body that lies between two pieces of its source. -/
theorem Body.text_of_split {source : String} {b : Body} {lead text behind : List Char}
    (hsource : source.toList = lead ++ text ++ behind) (hstart : b.start = byteLength lead)
    (hstop : b.stop = byteLength lead + byteLength text) : b.text source = String.ofList text := by
  rw [Body.text, hsource, hstart, hstop, sliceBytes_append]
  rfl

/-- A body is a piece of its source, framed as it is written, and its span marks it. -/
structure Body.Marks (source : String) (body : Body) (before text : List Char) : Prop where
  span : body.span.Marks source before text
  start : body.start = byteLength before
  stop : body.stop = byteLength before + byteLength text
  frames : body.kind.Frames text

namespace Body.Marks

variable {source : String} {body : Body} {before text : List Char}

theorem slice (h : body.Marks source before text) :
    sliceBytes body.start body.stop source.toList = some text := by
  rw [h.start, h.stop]
  exact h.span.slice

theorem lt (h : body.Marks source before text) : body.start < body.stop := by
  rw [h.start, h.stop]
  exact h.span.lt

theorem text_eq (h : body.Marks source before text) : (body.text source).toList = text := by
  rw [Body.text, h.slice]
  exact String.toList_ofList

end Body.Marks

section Tiled

variable {source : String} {lead : List Char}

/-- **Tokens in a row are a piece of the source**, behind what is in front of them, and the
tokens behind them cover what is left. -/
theorem Tiles.piece (hsource : source.toList = lead ++ cs)
    (h : Tiles (Position.start.advance lead) cs (v ++ w ++ r)) (ht : w.head? = some t)
    (hu : w.getLast? = some u) (hpos : 0 < t.length) :
    ∃ before text behind, source.toList = before ++ text ++ behind ∧ lead <+: before ∧
      text ≠ [] ∧ t.start = Position.start.advance before ∧ u.stop = byteLength (before ++ text) ∧
      Tiles (Position.start.advance (before ++ text)) behind r ∧
      (∀ x, t.kind.spelling? = some x → x <+: text) ∧
      (∀ x, u.kind.spelling? = some x → x <:+ text) := by
  rw [List.append_assoc] at h
  obtain ⟨a, rest, rfl, hrest⟩ := h.drop
  rw [← Position.advance_append] at hrest
  obtain ⟨before, text, behind, rfl, hstart, hstop, hlen, hmore, hfirst, hlast⟩ :=
    hrest.slice ht hu
  rw [← Position.advance_append] at hstart
  rw [hstart, ← Position.advance_append] at hmore
  refine ⟨lead ++ a ++ before, text, behind, by rw [hsource]; simp only [List.append_assoc], ?_, ?_,
    hstart, ?_, hmore, hfirst, hlast⟩
  · rw [List.append_assoc]
    exact List.prefix_append _ _
  · rintro rfl
    exact absurd (Nat.lt_of_lt_of_le hpos hlen) (Nat.lt_irrefl _)
  · rw [hstop, hstart, offset_advance_start, byteLength_append _ text]

/-- The piece of tokens of which the last are `w` ends with the piece of these. -/
theorem Tiles.piece_append {x : List Token} {t' : Token} (hsource : source.toList = lead ++ cs)
    (h : Tiles (Position.start.advance lead) cs (v ++ (x ++ w) ++ r))
    (ht : (x ++ w).head? = some t) (ht' : w.head? = some t') (hu : w.getLast? = some u)
    (hpos : 0 < t.length) (hpos' : 0 < t'.length) :
    ∃ before front code behind, source.toList = before ++ (front ++ code) ++ behind ∧
      lead <+: before ∧ code ≠ [] ∧ t.start = Position.start.advance before ∧
      t'.start = Position.start.advance (before ++ front) ∧
      u.stop = byteLength (before ++ (front ++ code)) ∧
      Tiles (Position.start.advance (before ++ (front ++ code))) behind r ∧
      (∀ y, t'.kind.spelling? = some y → y <+: code) ∧
      (∀ y, u.kind.spelling? = some y → y <:+ code) := by
  rcases x.eq_nil_or_concat with rfl | ⟨x0, last, rfl⟩
  · obtain rfl : t = t' := Option.some.inj (ht.symm.trans ht')
    obtain ⟨before, text, behind, hall, hlead, hne, hstart, hstop, hmore, hfirst, hlast⟩ :=
      h.piece hsource ht hu hpos
    exact ⟨before, [], text, behind, hall, hlead, hne, hstart, by rwa [List.append_nil], hstop,
      hmore, hfirst, hlast⟩
  · rw [List.concat_eq_append] at *
    -- the piece of the tokens in front, and then that of the last ones behind it
    have hx : (x0 ++ [last]).head? = some t := by
      rwa [List.head?_append, List.head?_append, List.head?_cons, Option.or_some,
        Option.some_or, ← Option.or_some, ← List.head?_cons, ← List.head?_append] at ht
    have hxu : (x0 ++ [last]).getLast? = some last := List.getLast?_concat
    have hsplit : v ++ (x0 ++ [last] ++ w) ++ r = v ++ (x0 ++ [last]) ++ ([] ++ w ++ r) := by simp
    rw [hsplit] at h
    obtain ⟨before, text, behind, hall, hlead, -, hstart, -, hmore, -, -⟩ :=
      h.piece hsource hx hxu hpos
    obtain ⟨before', code, behind', hall', ⟨g, rfl⟩, hne, hstart', hstop, hmore', hfirst, hlast⟩ :=
      hmore.piece hall ht' hu hpos'
    refine ⟨before, text ++ g, code, behind', ?_, hlead, hne, hstart, ?_, ?_, ?_, hfirst, hlast⟩
    · rw [hall']
      simp only [List.append_assoc]
    · simpa only [List.append_assoc] using hstart'
    · simpa only [List.append_assoc] using hstop
    · simpa only [List.append_assoc] using hmore'

end Tiled

/-! ### Items in order -/

/-- The items stand for tokens that follow one another. -/
inductive InOrder : List Item → List Token → Prop
  | nil (ts : List Token) : InOrder [] ts
  | cons {item : Item} {items : List Item} {gap w ts : List Token} (hi : item.StandsFor w)
    (more : InOrder items ts) : InOrder (item :: items) (gap ++ w ++ ts)

theorem InOrder.behind (h : InOrder items ts) (v : List Token) : InOrder items (v ++ ts) := by
  cases h with
  | nil => exact .nil _
  | @cons item items gap w ts hi more =>
    have hmore : InOrder (item :: items) (v ++ gap ++ w ++ ts) := .cons hi more
    simpa only [List.append_assoc] using hmore

/-- **The items of a run of turns follow one another**, by induction on the run. -/
theorem Turns.inOrder (h : Turns declared c after d items errors) : InOrder items c.rest := by
  induction h with
  | stay declared c => exact .nil _
  | @turn declared after c d t r items errors hr more ih =>
    have hturn : TurnAt declared c.rest (ScriptHost.turn declared c) := turnAt_turn hr
    generalize ScriptHost.turn declared c = now at hturn ih
    cases hturn with
    | semicolon hk hw =>
      rw [hw]
      exact ih.behind [_]
    | @directive t w item? error? d' hk hw hitem =>
      rw [hw]
      cases item? with
      | none => exact ih.behind (t :: w)
      | some item =>
        obtain ⟨-, -, v, ⟨x, hx⟩, hstands⟩ := hitem item rfl
        have hall : InOrder (item :: items) ([] ++ v ++ _) := .cons hstands (ih.behind x)
        rw [← hx, List.append_assoc]
        exact hall
    | item ht hk ha hw hi href hn =>
      rw [hw]
      exact .cons hi ih
    | problem ht hk hw =>
      rw [hw]
      exact ih.behind _

/-- **References come first**: a run that begins behind anything else gives none, and in any
run no reference is behind another item. -/
theorem Turns.references (h : Turns declared c after d items errors) :
    (declared → ∀ item ∈ items, item.isReference = false) ∧
      items.Pairwise fun a b => b.isReference → a.isReference := by
  induction h with
  | stay declared c => exact ⟨fun _ => by simp, .nil⟩
  | @turn declared after c d t r items errors hr more ih =>
    have hturn : TurnAt declared c.rest (ScriptHost.turn declared c) := turnAt_turn hr
    generalize ScriptHost.turn declared c = now at hturn ih
    have hlater (h : declared) : ∀ item ∈ items, item.isReference = false :=
      ih.1 (by rw [h]; rfl)
    cases hturn with
    | semicolon hk hw => exact ⟨hlater, ih.2⟩
    | @directive t w item? error? d' hk hw hitem =>
      cases item? with
      | none => exact ⟨hlater, ih.2⟩
      | some item =>
        obtain ⟨hdecl, href, -⟩ := hitem item rfl
        refine ⟨fun h => ?_, List.pairwise_cons.mpr ⟨fun _ _ _ => href, ih.2⟩⟩
        rw [hdecl] at h
        cases h
    | @item t' attributes w item error? d' ht hk ha hw hi href hn =>
      obtain rfl : t = t' := by
        rw [hr] at ht
        exact Option.some.inj ht
      have hbehind := ih.1 (by rw [hk, Bool.or_true])
      refine ⟨fun _ item' hi' => ?_, List.pairwise_cons.mpr ⟨fun b hb hbr => ?_, ih.2⟩⟩
      · rcases List.mem_cons.mp hi' with rfl | hi'
        · exact href
        · exact hbehind item' hi'
      · rw [hbehind b hb] at hbr
        cases hbr
    | problem ht hk hw => exact ⟨hlater, ih.2⟩

/-- The item is the piece `text` behind `before`, and the code that it runs ends that piece; a
method's is framed as the body of one. -/
structure Item.Marks (source : String) (item : Item) (before text : List Char) : Prop where
  span : item.span.Marks source before text
  code : ∀ body, item.code? = some body →
    ∃ front code, text = front ++ code ∧ body.Marks source (before ++ front) code
  method : ∀ m, item = .method m → m.body.kind ≠ .statement
  statement : ∀ body, item = .statement body → body.kind = .statement

section Tiled

variable {source : String} {lead front code text behind : List Char}

/-- The span of tokens marks the piece that they are. -/
theorem Source.Span.marks_of_spans {s : Span} (hs : s.Spans w) (ht : w.head? = some t)
    (hu : w.getLast? = some u) (hall : source.toList = lead ++ text ++ behind) (hne : text ≠ [])
    (hstart : t.start = Position.start.advance lead) (hstop : u.stop = byteLength (lead ++ text)) :
    s.Marks source lead text := by
  obtain ⟨t', u', ht', hu', rfl⟩ := hs
  obtain rfl : t = t' := Option.some.inj (ht.symm.trans ht')
  obtain rfl : u = u' := Option.some.inj (hu.symm.trans hu')
  have hoffset : t.start.offset = byteLength lead := by rw [hstart, offset_advance_start]
  refine ⟨⟨behind, hall.symm⟩, hne, ?_⟩
  rw [hstop, hoffset, byteLength_append, Nat.add_sub_cancel_left, hstart]

/-- The body that covers tokens is the piece that they are. -/
theorem Body.marks_of_covers {body : Body} (hb : body.Covers w) (hs : body.span.Spans w)
    (ht : w.head? = some t) (hu : w.getLast? = some u)
    (hall : source.toList = lead ++ text ++ behind) (hne : text ≠ [])
    (hstart : t.start = Position.start.advance lead) (hstop : u.stop = byteLength (lead ++ text))
    (hfirst : ∀ x, t.kind.spelling? = some x → x <+: text)
    (hlast : ∀ x, u.kind.spelling? = some x → x <:+ text) : body.Marks source lead text := by
  have hframes := frames_of_covers hb ht hu hfirst hlast
  have hspan := Source.Span.marks_of_spans hs ht hu hall hne hstart hstop
  obtain ⟨t', u', ht', hu', hbegin, hend, -⟩ := hb
  obtain rfl : t = t' := Option.some.inj (ht.symm.trans ht')
  obtain rfl : u = u' := Option.some.inj (hu.symm.trans hu')
  have hoffset : t.start.offset = byteLength lead := by rw [hstart, offset_advance_start]
  rw [byteLength_append] at hstop
  refine ⟨hspan, by rw [hbegin, hoffset], ?_, hframes⟩
  rw [hend, hstop, hoffset, Nat.max_eq_left (Nat.le_add_right _ _)]

/-- An item that stands for tokens is the piece that they are. -/
theorem Tiles.marks_item (hsource : source.toList = lead ++ cs)
    (h : Tiles (Position.start.advance lead) cs (v ++ w ++ r)) (hi : item.StandsFor w)
    (hpos : ∀ t ∈ w, 0 < t.length) :
    ∃ before text behind, source.toList = before ++ text ++ behind ∧ lead <+: before ∧
      item.Marks source before text ∧ Tiles (Position.start.advance (before ++ text)) behind r := by
  obtain ⟨hspan, hcode⟩ := hi
  have hspans := hspan
  obtain ⟨t, u, ht, hu, -⟩ := hspan
  have ht0 := hpos t (List.mem_of_head? ht)
  cases item with
  | method m =>
    obtain ⟨hends, x, y, rfl, hcovers, hbody⟩ := hcode
    have ⟨t', u', ht', hu', _⟩ := hbody
    obtain rfl : u = u' := by
      rw [List.getLast?_append, hu', Option.some_or] at hu
      exact (Option.some.inj hu).symm
    obtain ⟨before, front, code, behind, hall, hlead, hne, hstart, hstart', hstop, hmore, hfirst,
      hlast⟩ := h.piece_append hsource ht ht' hu' ht0
        (hpos t' (List.mem_append_right _ (List.mem_of_head? ht')))
    have hall' : source.toList = (before ++ front) ++ code ++ behind := by
      rw [hall]
      simp only [List.append_assoc]
    have hmarks : m.body.Marks source (before ++ front) code :=
      Body.marks_of_covers hcovers hbody ht' hu' hall' hne hstart'
        (by rw [hstop, List.append_assoc]) hfirst hlast
    refine ⟨before, front ++ code, behind, hall, hlead, ⟨?_, fun body hb => ?_, fun m' hm => ?_,
      fun b hb => (by cases hb)⟩, hmore⟩
    · exact Source.Span.marks_of_spans hspans ht hu hall (by simp [hne]) hstart hstop
    · obtain rfl : m.body = body := Option.some.inj hb
      exact ⟨front, code, rfl, hmarks⟩
    · obtain rfl : m = m' := Item.method.inj hm
      exact fun hk => hends (by rw [hk]; rfl)
  | statement b =>
    obtain ⟨hkind, hcovers⟩ := hcode
    obtain ⟨before, text, behind, hall, hlead, hne, hstart, hstop, hmore, hfirst, hlast⟩ :=
      h.piece hsource ht hu ht0
    have hmarks : b.Marks source before text :=
      Body.marks_of_covers hcovers hspans ht hu hall hne hstart hstop hfirst hlast
    refine ⟨before, text, behind, hall, hlead, ⟨hmarks.span, fun body hb => ?_,
      fun m hm => (by cases hm), fun body hb => ?_⟩, hmore⟩
    · obtain rfl : b = body := Option.some.inj hb
      exact ⟨[], text, rfl, by rwa [List.append_nil]⟩
    · cases hb
      exact hkind
  | _ =>
    obtain ⟨before, text, behind, hall, hlead, hne, hstart, hstop, hmore, -, -⟩ :=
      h.piece hsource ht hu ht0
    refine ⟨before, text, behind, hall, hlead, ⟨?_, fun body hb => (by cases hb),
      fun m hm => (by cases hm), fun b hb => (by cases hb)⟩, hmore⟩
    exact Source.Span.marks_of_spans hspans ht hu hall hne hstart hstop

/-- **Items in order are pieces of the source in order**, by induction on the items: those
behind an item are pieces of what is left behind it. -/
theorem InOrder.marks (h : InOrder items ts) (hpos : ∀ t ∈ ts, 0 < t.length) :
    ∀ {lead cs : List Char}, source.toList = lead ++ cs →
      Tiles (Position.start.advance lead) cs ts →
      ∃ pieces : List (List Char × List Char),
        List.Forall₂ (fun item piece => item.Marks source piece.1 piece.2) items pieces ∧
        pieces.Pairwise (fun a b => a.1 ++ a.2 <+: b.1) ∧ ∀ b ∈ pieces, lead <+: b.1 := by
  induction h with
  | nil ts => exact fun _ _ => ⟨[], .nil, .nil, by simp⟩
  | @cons item items gap w ts hi more ih =>
    intro lead cs hsource htiles
    have hw : ∀ t ∈ w, 0 < t.length := fun t ht =>
      hpos t (List.mem_append_left _ (List.mem_append_right _ ht))
    obtain ⟨before, text, behind, hall, hlead, hmarks, hmore⟩ := htiles.marks_item hsource hi hw
    obtain ⟨pieces, hpieces, horder, hbehind⟩ :=
      ih (fun t ht => hpos t (List.mem_append_right _ ht)) hall hmore
    refine ⟨(before, text) :: pieces, .cons hmarks hpieces, .cons hbehind horder, fun b hb => ?_⟩
    rcases List.mem_cons.mp hb with rfl | hb
    · exact hlead
    · exact hlead.trans ((List.prefix_append _ _).trans (hbehind b hb))

end Tiled

/-! ### Scripts -/

/-- **The items of any text are pieces of it, in order**, whatever is wrong with it. -/
theorem Script.exists_marks (source : String) :
    ∃ pieces : List (List Char × List Char),
      List.Forall₂ (fun item piece => item.Marks source piece.1 piece.2)
        (parseLenient source).1.items pieces ∧
      pieces.Pairwise fun a b => a.1 ++ a.2 <+: b.1 := by
  obtain ⟨after, d, -, hrun⟩ := (Cursor.items_eq_iff (c := Cursor.ofLexed (lex source))).mp rfl
  obtain ⟨pieces, hpieces, horder, -⟩ := hrun.inOrder.marks (fun t ht => length_pos_of_mem_lex ht)
    (List.nil_append source.toList).symm (tiles_lex source)
  exact ⟨pieces, hpieces, horder⟩

theorem Script.marks_of_mem {source : String} {item : Item}
    (hi : item ∈ (parseLenient source).1.items) : ∃ before text, item.Marks source before text := by
  obtain ⟨pieces, hpieces, -⟩ := exists_marks source
  obtain ⟨i, hlt, rfl⟩ := List.getElem_of_mem hi
  exact ⟨_, _, hpieces.get hlt (hpieces.length_eq ▸ hlt)⟩

/-- What an item runs is a piece of the source. -/
theorem Script.marks_code {source : String} {item : Item} {b : Body}
    (hi : item ∈ (parseLenient source).1.items) (hb : item.code? = some b) :
    ∃ before text, b.Marks source before text := by
  obtain ⟨before, text, hmarks⟩ := marks_of_mem hi
  obtain ⟨front, code, -, hcode⟩ := hmarks.code b hb
  exact ⟨_, _, hcode⟩

/-- What the items run is in the order of the items. -/
theorem Script.codes_inOrder (source : String) :
    (parseLenient source).1.items.Pairwise fun i j => ∀ b b', i.code? = some b →
      j.code? = some b' → b.stop ≤ b'.start := by
  obtain ⟨pieces, hpieces, horder⟩ := exists_marks source
  refine List.pairwise_iff_getElem.mpr fun i j hi hj hij b b' hb hb' => ?_
  have hi' : i < pieces.length := hpieces.length_eq ▸ hi
  have hj' : j < pieces.length := hpieces.length_eq ▸ hj
  obtain ⟨front, code, htext, hmarks⟩ := (hpieces.get hi hi').code b hb
  obtain ⟨front', code', -, hmarks'⟩ := (hpieces.get hj hj').code b' hb'
  obtain ⟨gap, hgap⟩ := List.pairwise_iff_getElem.mp horder i j hi' hj' hij
  have hlen := congrArg byteLength hgap
  simp only [List.get_eq_getElem] at htext hmarks hmarks'
  rw [htext] at hlen
  simp only [byteLength_append] at hlen
  rw [hmarks.stop, hmarks'.start, byteLength_append, byteLength_append]
  omega

/-- **The body of a method is a piece of its source**, from `{` to `}` or from `=>` to `;`. -/
theorem Script.text_of_method {source : String} {m : MethodDecl}
    (h : .method m ∈ (parseLenient source).1.items) :
    m.body.kind ≠ .statement ∧
      ∃ text, sliceBytes m.body.start m.body.stop source.toList = some text ∧
        m.body.kind.Frames text := by
  obtain ⟨before, text, hmarks⟩ := marks_of_mem h
  obtain ⟨front, code, -, hcode⟩ := hmarks.code m.body rfl
  exact ⟨hmarks.method m rfl, code, hcode.slice, hcode.frames⟩

/-- **A statement is a piece of its source.** -/
theorem Script.text_of_statement {source : String} {b : Body}
    (h : .statement b ∈ (parseLenient source).1.items) :
    b.kind = .statement ∧ ∃ text, sliceBytes b.start b.stop source.toList = some text := by
  obtain ⟨before, text, hmarks⟩ := marks_of_mem h
  obtain ⟨front, code, -, hcode⟩ := hmarks.code b rfl
  exact ⟨hmarks.statement b rfl, code, hcode.slice⟩

/-- The items are pieces of the source in strict order, references first, and what they run is
a piece, too. -/
structure Script.WellPlaced (source : String) (items : List Item) : Prop where
  /-- The range of an item is not empty, between characters, and behind those before it. -/
  ranges : ∃ ranges : List (Nat × Nat), items.map (·.span.range? source) = ranges.map some ∧
    ranges.Pairwise (fun a b => a.2 ≤ b.1) ∧
    ∀ range ∈ ranges, range.1 < range.2 ∧ range.2 ≤ byteLength source.toList ∧
      (sliceBytes range.1 range.2 source.toList).isSome
  references : items.Pairwise fun a b => b.isReference → a.isReference
  /-- The range of what an item runs is not empty, its span tells of the same bytes, and its
  text is that piece of the source. -/
  code : ∀ item ∈ items, ∀ body, item.code? = some body →
    body.start < body.stop ∧ body.stop ≤ byteLength source.toList ∧
      body.span.length = body.stop - body.start ∧
      byteAt? body.span.line body.span.column .start source.toList = some body.start ∧
      sliceBytes body.start body.stop source.toList = some (body.text source).toList ∧
      body.kind.Frames (body.text source).toList
  statements : ∀ body, .statement body ∈ items → body.kind = .statement
  /-- The body of a method is written as one, inside the method. -/
  methods : ∀ m, .method m ∈ items → m.body.kind ≠ .statement ∧
    ∃ start stop, m.span.range? source = some (start, stop) ∧ start ≤ m.body.start ∧
      m.body.stop ≤ stop

/-- **The items of any text are well placed**, whatever is wrong with it. -/
theorem Script.wellPlaced (source : String) :
    WellPlaced source (parseLenient source).1.items := by
  obtain ⟨after, d, -, hrun⟩ := (Cursor.items_eq_iff (c := Cursor.ofLexed (lex source))).mp rfl
  obtain ⟨pieces, hpieces, horder⟩ := exists_marks source
  refine ⟨⟨pieces.map fun piece => (byteLength piece.1, byteLength piece.1 + byteLength piece.2),
    ?_, ?_, ?_⟩, hrun.references.2, ?_, ?_, ?_⟩
  · rw [List.map_map]
    rw [← List.forall₂_eq_eq_eq, List.forall₂_map_left_iff, List.forall₂_map_right_iff]
    exact hpieces.imp fun item piece h => h.span.range?_eq
  · refine List.pairwise_map.mpr (horder.imp fun {a b} hab => ?_)
    obtain ⟨gap, hgap⟩ := hab
    rw [← hgap, byteLength_append, byteLength_append]
    exact Nat.le_add_right _ _
  · intro range hrange
    obtain ⟨piece, hpiece, rfl⟩ := List.mem_map.mp hrange
    obtain ⟨i, hlt, rfl⟩ := List.getElem_of_mem hpiece
    have h := hpieces.get (hpieces.length_eq ▸ hlt) hlt
    exact ⟨h.span.lt, h.span.le, Option.isSome_iff_exists.mpr ⟨_, h.span.slice⟩⟩
  · intro item hi body hb
    obtain ⟨before, text, h⟩ := marks_code hi hb
    rw [h.text_eq]
    refine ⟨h.lt, ?_, ?_, ?_, h.slice, h.frames⟩
    · rw [h.stop]
      exact h.span.le
    · rw [h.start, h.stop, Nat.add_sub_cancel_left, h.span.eq]
      rfl
    · rw [h.start]
      exact h.span.byteAt?_eq
  · intro body hi
    obtain ⟨before, text, h⟩ := marks_of_mem hi
    exact h.statement body rfl
  · intro m hi
    obtain ⟨before, text, h⟩ := marks_of_mem hi
    obtain ⟨front, code, rfl, hcode⟩ := h.code m.body rfl
    refine ⟨h.method m rfl, _, _, h.span.range?_eq, ?_, ?_⟩
    · rw [hcode.start, byteLength_append]
      exact Nat.le_add_right _ _
    · rw [hcode.stop, byteLength_append, byteLength_append]
      omega

end ScriptHost
