/-
# Blanks in front of a token change nothing

Blanks without a newline that are written in front of a token leave a script what it is: its
tokens with their lines, its items and its problems in their order, all up to columns. Only a body
or a statement that the blanks are written into has another text, and it has the blanks there.
The columns are ignored by every reader; where the texts of bodies begin and end follows from
reading both versions in step.

Key definitions: `Body.Padded`, `Script.Reformats`.
Key theorems: `Inserted.exists_items`, `Script.code_ends`, `Script.reformats_of_blanks`.
-/
import ScriptHost.Proofs.Reading.ColumnItems
import ScriptHost.Proofs.Reading.Edits

namespace ScriptHost

open Parse Source

variable {x blanks y : List Char} {v r r' : List Token} {t u : Token} {s : Side}

/-! ### Up to columns -/

theorem Inserted.cursor_lined (h : Inserted x blanks y v r r') (hline : '\n' ∉ blanks) :
    (Cursor.ofLexed (lexFrom .start (x ++ (blanks ++ y)))).lined =
      (Cursor.ofLexed (lexFrom .start (x ++ y))).lined := by
  rw [Cursor.lined, Cursor.lined, Cursor.ofLexed, Cursor.ofLexed, h.map_lined hline,
    Inserted.lined_finish hline]

/-! ### The versions of the text -/

/-- Both versions are the same tokens, on the same lines. -/
theorem Inserted.exists_pieces (h : Inserted x blanks y v r r') (hline : '\n' ∉ blanks) :
    ∃ ps : List (Piece (Edit.exchange x [] blanks y)),
      (∀ s, Cursor.ofLexed (lexFrom .start (x ++ Side.pick [] blanks s ++ y)) =
        (Edit.exchange x [] blanks y).cursor ps s) ∧
      ∀ p ∈ ps, ∃ t ht, p = .token t ht ∧ (t .before).start.line = (t .after).start.line := by
  have hfront : List.Forall₂ (fun t u => (Edit.exchange x [] blanks y).Twins (Side.pick t u) ∧
      t.start.line = u.start.line) v v :=
    List.forall₂_same.mpr fun t ht => ⟨twins_of_stop_le (h.front t ht), rfl⟩
  have hbehind : List.Forall₂ (fun t u => (Edit.exchange x [] blanks y).Twins (Side.pick t u) ∧
      t.start.line = u.start.line) r r' := by
    refine h.moved.imp fun t u htu => ⟨twins_behind (by rwa [List.append_nil]), ?_⟩
    obtain ⟨a, ha, ha'⟩ := htu.start
    rw [ha, ha', line_advance hline]
  have hall : List.Forall₂ (fun t u => (Edit.exchange x [] blanks y).Twins (Side.pick t u) ∧
      t.start.line = u.start.line) (v ++ r) (v ++ r') := List.rel_append hfront hbehind
  obtain ⟨ps, hbefore, hafter, hlines⟩ :=
    ScriptHost.exists_pieces (Q := fun t u => t.start.line = u.start.line) hall
  have hfinish (cs : List Char) : (lexFrom .start cs).finish = Position.start.advance cs :=
    finish_lexWithin _ _ _
  refine ⟨ps, ?_, hlines⟩
  rintro (_ | _)
  · rw [Edit.cursor, hbefore, ← h.before, Cursor.ofLexed, hfinish]
    simp only [Edit.exchange, Side.pick, List.append_nil]
  · rw [Edit.cursor, hafter, ← h.after, Cursor.ofLexed, hfinish]
    simp only [Edit.exchange, Side.pick, List.append_assoc]

/-- **The items of both versions**, each with its code at the same place in each. -/
theorem Inserted.exists_items (h : Inserted x blanks y v r r') (hline : '\n' ∉ blanks) :
    ∃ items : List (Side → Item), (∀ a ∈ items, (Edit.exchange x [] blanks y).Items a) ∧
      ∀ s, (Cursor.ofLexed (lexFrom .start (x ++ Side.pick [] blanks s ++ y))).items.1 =
        items.map (· s) := by
  obtain ⟨ps, hcursor, hlines⟩ := h.exists_pieces hline
  obtain ⟨after, d, hend, hrun⟩ :=
    (Cursor.items_eq_iff (c := (Edit.exchange x [] blanks y).cursor ps .before)).mp rfl
  have hline (p : Piece (Edit.exchange x [] blanks y)) (hp : p ∈ ps) (s : Side) :
      (p.first s).start.line = (p.first .before).start.line := by
    obtain ⟨t, ht, rfl, hline⟩ := hlines p hp
    cases s
    · rfl
    · exact hline.symm
  obtain ⟨items, errors, w, es, rfl, rfl, hitems, -, hbefore, -, hrun'⟩ :=
    hrun.inStep rfl fun declared' w' sharp hs qs v' hps _ _ p hp => by
      -- a line breaks at the same pieces as all keep their lines
      have hsharp := hline (.token sharp hs) (by rw [hps]; simp)
      have hline := hline p (by rw [hps]; simp [hp])
      obtain ⟨t, ht, rfl, -⟩ := hlines p (by rw [hps]; simp [hp])
      simp only [Piece.first] at hsharp hline
      by_cases heq : (t .before).start.line = (sharp .before).start.line
      · exact .inl ⟨t, ht, rfl, fun s => by rw [hline, hsharp, heq]⟩
      · exact .inr fun s => by rw [Piece.first, hline, hsharp]; exact heq
  obtain rfl : es = [] := by
    have hle := Edit.length_le _ es .before
    rw [hend] at hle
    exact List.length_eq_zero_iff.mp (Nat.le_zero.mp hle)
  have hafter := Cursor.items_eq_iff.mpr ⟨after, _, rfl, hrun'⟩
  refine ⟨items, hitems, ?_⟩
  rintro (_ | _)
  · rw [hcursor]
    exact hbefore
  · rw [hcursor]
    exact congrArg Prod.fst hafter

/-! ### Where bodies begin and end -/

/-- What the items of some tokens run begins where one of these starts, and ends where one ends. -/
theorem InOrder.code_ends {items : List Item} {ts : List Token} (h : InOrder items ts) {item : Item}
    (hi : item ∈ items) {b : Body} (hb : item.code? = some b) :
    ∃ t ∈ ts, ∃ u ∈ ts, b.start = t.start.offset ∧ b.stop = max u.stop t.start.offset := by
  have hcovers {w : List Token} (h : b.Covers w) :
      ∃ t ∈ w, ∃ u ∈ w, b.start = t.start.offset ∧ b.stop = max u.stop t.start.offset := by
    obtain ⟨t, u, ht, hu, hstart, hstop, -⟩ := h
    exact ⟨t, List.mem_of_head? ht, u, List.mem_of_getLast? hu, hstart, hstop⟩
  induction h with
  | nil ts => cases hi
  | @cons item' items gap w ts hstands more ih =>
    rcases List.mem_cons.mp hi with rfl | hi
    · obtain ⟨t, ht, u, hu, hends⟩ : ∃ t ∈ w, ∃ u ∈ w, b.start = t.start.offset ∧
          b.stop = max u.stop t.start.offset := by
        obtain ⟨-, hcode⟩ := hstands
        cases item with
        | method m =>
          obtain rfl : m.body = b := Option.some.inj hb
          obtain ⟨-, x, y, rfl, hbody, -⟩ := hcode
          obtain ⟨t, ht, u, hu, hends⟩ := hcovers hbody
          exact ⟨t, List.mem_append_right _ ht, u, List.mem_append_right _ hu, hends⟩
        | statement c =>
          obtain rfl : c = b := Option.some.inj hb
          exact hcovers hcode.2
        | _ => cases hb
      exact ⟨t, by simp [ht], u, by simp [hu], hends⟩
    · obtain ⟨t, ht, u, hu, hends⟩ := ih hi
      exact ⟨t, by simp [ht], u, by simp [hu], hends⟩

/-- What a script runs begins where a token starts, and ends where one ends. -/
theorem Script.code_ends {source : String} {item : Item} {b : Body}
    (hi : item ∈ (parseLenient source).1.items) (hb : item.code? = some b) :
    (∃ t ∈ (lex source).tokens, b.start = t.start.offset) ∧
      ∃ t ∈ (lex source).tokens, b.stop = t.stop := by
  obtain ⟨after, d, -, hrun⟩ := (Cursor.items_eq_iff (c := Cursor.ofLexed (lex source))).mp rfl
  obtain ⟨t, ht, u, hu, hstart, hstop⟩ := hrun.inOrder.code_ends hi hb
  obtain ⟨before, text, hmarks⟩ := marks_code hi hb
  have hlt := hmarks.lt
  exact ⟨⟨t, ht, hstart⟩, u, hu, by omega⟩

/-- No token of the new version begins or ends among the blanks. -/
theorem Inserted.outside (h : Inserted x blanks y v r r')
    (ht : t ∈ (lexFrom .start (x ++ (blanks ++ y))).tokens) :
    t.stop ≤ byteLength x ∨ byteLength (x ++ blanks) ≤ t.start.offset := by
  rw [h.after] at ht
  rcases List.mem_append.mp ht with ht | ht
  · exact .inl (h.front t ht)
  · obtain ⟨i, hi, rfl⟩ := List.getElem_of_mem ht
    obtain ⟨a, -, ha⟩ := (h.moved.get (h.moved.length_eq ▸ hi) hi).start
    refine .inr ?_
    rw [List.get_eq_getElem] at ha
    rw [ha, advance_offset, offset_advance_start]
    exact Nat.le_add_right _ _

section

variable {i j : Nat}

/-- What begins with a token moves if it does not begin in front of the blanks. -/
theorem Inserted.same_start (h : Inserted x blanks y v r r') (hpos : 0 < byteLength blanks)
    (hsame : (Edit.exchange x [] blanks y).same i j)
    (ht : t ∈ (lexFrom .start (x ++ (blanks ++ y))).tokens) (hlen : 0 < t.length)
    (hj : j = t.start.offset) :
    (i < byteLength x ∧ j = i) ∨ (byteLength x ≤ i ∧ j = i + byteLength blanks) := by
  have hout := h.outside ht
  rw [Token.stop, byteLength_append] at hout
  rcases hsame with ⟨rfl, hi⟩ | ⟨k, rfl, hk⟩
  · exact .inl ⟨by omega, rfl⟩
  · rw [byteLength_append] at hk
    rw [List.append_nil]
    exact .inr ⟨by omega, by omega⟩

/-- What ends with a token moves if it ends behind the place of the blanks. -/
theorem Inserted.same_stop (h : Inserted x blanks y v r r') (hpos : 0 < byteLength blanks)
    (hsame : (Edit.exchange x [] blanks y).same i j)
    (ht : t ∈ (lexFrom .start (x ++ (blanks ++ y))).tokens) (hlen : 0 < t.length)
    (hj : j = t.stop) :
    (i ≤ byteLength x ∧ j = i) ∨ (byteLength x < i ∧ j = i + byteLength blanks) := by
  have hout := h.outside ht
  rw [Token.stop] at hout hj
  rw [byteLength_append] at hout
  rcases hsame with ⟨rfl, hi⟩ | ⟨k, rfl, hk⟩
  · exact .inl ⟨hi, rfl⟩
  · rw [byteLength_append] at hk
    rw [List.append_nil]
    exact .inr ⟨by omega, by omega⟩

end

/-! ### Texts with blanks in them -/

/-- The body `b'` of `source'` runs the text of the body `b` of `source`, with the `blanks` in it if
the byte `n`, in front of which they are written, lies inside of `b`. -/
inductive Body.Padded (blanks : String) (n : Nat) (source source' : String) (b b' : Body) : Prop
  | outside (hout : b.stop ≤ n ∨ n ≤ b.start) (htext : b'.text source' = b.text source)
  | inside {front back : String} (hstart : b.start < n) (hstop : n < b.stop)
    (hplace : b.start + byteLength front.toList = n) (htext : b.text source = front ++ back)
    (htext' : b'.text source' = front ++ blanks ++ back)

/-- **The text of a body has the blanks in it if they are written between its ends.** -/
theorem padded_body {source source' w : String} {b b' : Body} {lead text : List Char}
    (hsource : source.toList = x ++ y) (hsource' : source'.toList = x ++ (w.toList ++ y))
    (hb : b.Marks source lead text)
    (hstart : (b.start < byteLength x ∧ b'.start = b.start) ∨
      (byteLength x ≤ b.start ∧ b'.start = b.start + byteLength w.toList))
    (hstop : (b.stop ≤ byteLength x ∧ b'.stop = b.stop) ∨
      (byteLength x < b.stop ∧ b'.stop = b.stop + byteLength w.toList)) :
    b.Padded w (byteLength x) source source' b' := by
  obtain ⟨behind, hall⟩ := hb.span.inside
  have hbegin := hb.start
  have hend := hb.stop
  have hlt := hb.lt
  have hpiece : x ++ y = lead ++ (text ++ behind) := by rw [← hsource, ← hall, List.append_assoc]
  have htext := Body.text_of_split hall.symm hbegin hend
  by_cases hbefore : b.stop ≤ byteLength x
  · -- the body ends in front of the blanks
    have hlead : byteLength (lead ++ text) ≤ byteLength x := by
      rw [byteLength_append]
      omega
    obtain ⟨rest, rfl, -⟩ := append_of_byteLength_le (r := behind) (by simpa using hpiece.symm) hlead
    have hnew : source'.toList = lead ++ text ++ (rest ++ (w.toList ++ y)) := by
      rw [hsource']
      simp
    exact .outside (.inl hbefore) (by rw [htext, Body.text_of_split hnew (by omega) (by omega)])
  by_cases hafter : byteLength x ≤ b.start
  · -- it begins behind them
    obtain ⟨front, rfl, rfl⟩ := append_of_byteLength_le hpiece (by omega)
    have hnew : source'.toList = x ++ w.toList ++ front ++ text ++ behind := by
      rw [hsource']
      simp
    simp only [byteLength_append] at hbegin hend
    have hstart' : b'.start = byteLength (x ++ w.toList ++ front) := by
      simp only [byteLength_append]
      omega
    exact .outside (.inr hafter) (by rw [htext, Body.text_of_split hnew hstart' (by omega)])
  · -- they are written into it
    obtain ⟨front, rfl, hrest⟩ := append_of_byteLength_le hpiece.symm (by omega)
    rw [byteLength_append] at hbefore hafter hstart hstop ⊢
    obtain ⟨back, rfl, rfl⟩ := append_of_byteLength_le hrest.symm (by omega)
    rw [byteLength_append] at hend
    have hnew : source'.toList = lead ++ (front ++ w.toList ++ back) ++ behind := by
      rw [hsource']
      simp
    have hstop' : b'.stop = byteLength lead + byteLength (front ++ w.toList ++ back) := by
      simp only [byteLength_append]
      omega
    have htext' := Body.text_of_split hnew (by omega) hstop'
    rw [String.ofList_append, String.ofList_append, String.ofList_toList] at htext'
    rw [String.ofList_append] at htext
    exact .inside (by omega) (by omega) (by rw [String.toList_ofList, hbegin]) htext htext'

/-! ### Reformatting -/

/-- The text `source'` is the text `source` up to columns, and to the `blanks` in front of the byte
`n` in a body or statement there: it has the same tokens on the same lines and no lexical errors,
and is read to the same items and problems in the same order. -/
structure Script.Reformats (blanks : String) (n : Nat) (source source' : String) : Prop where
  lexErrors : (lex source').errors = []
  tokens : (lex source').tokens.map Token.lined = (lex source).tokens.map Token.lined
  finish : (lex source').finish.lined = (lex source).finish.lined
  items : (parseLenient source').1.items.map Item.lined =
    (parseLenient source).1.items.map Item.lined
  span : (parseLenient source').1.span.lined = (parseLenient source).1.span.lined
  errors : (parseLenient source').2.map ParseError.lined =
    (parseLenient source).2.map ParseError.lined
  codes : List.Forall₂ (fun i j => Option.Rel (Body.Padded blanks n source source') i.code? j.code?)
    (parseLenient source).1.items (parseLenient source').1.items

/-- The problems are of the same kinds, in the same order. -/
theorem Script.Reformats.kinds {blanks source source' : String} {n : Nat}
    (h : Reformats blanks n source source') :
    (parseLenient source').2.map ParseError.kind = (parseLenient source).2.map ParseError.kind := by
  have hkinds := congrArg (List.map ParseError.kind) h.errors
  simpa only [List.map_map, Function.comp_def, ParseError.kind_lined] using hkinds

/-- An item of both versions runs the same text, perhaps with the blanks in it. -/
theorem padded_item {source source' w : String} (h : Inserted x w.toList y v r r')
    (hpos : 0 < byteLength w.toList) (hsource : source.toList = x ++ y)
    (hsource' : source'.toList = x ++ (w.toList ++ y))
    {a : Side → Item} (ha : (Edit.exchange x [] w.toList y).Items a)
    (hi : a .before ∈ (Script.parseLenient source).1.items)
    (hi' : a .after ∈ (Script.parseLenient source').1.items) :
    Option.Rel (Body.Padded w (byteLength x) source source') (a .before).code? (a .after).code? := by
  have hboth : (a .after).code?.map Body.bare = (a .before).code?.map Body.bare := by
    rw [map_bare_code?, map_bare_code?, ha.bare .after]
  cases hb : (a .before).code? with
  | none =>
    rw [hb, Option.map_none, Option.map_eq_none_iff] at hboth
    rw [hboth]
    exact .none
  | some b =>
    rw [hb, Option.map_some] at hboth
    obtain ⟨b', hb', -⟩ := Option.map_eq_some_iff.mp hboth
    obtain ⟨hstart, hstop⟩ := ha.code (Side.pick b b') (by rintro (_ | _) <;> assumption)
    obtain ⟨lead, text, hmarks⟩ := Script.marks_code hi hb
    obtain ⟨⟨t, ht, hbegin⟩, u, hu, hend⟩ := Script.code_ends hi' hb'
    have hlex : lex source' = lexFrom .start (x ++ (w.toList ++ y)) := by
      rw [← hsource']
      rfl
    have htpos := length_pos_of_mem_lex ht
    have hupos := length_pos_of_mem_lex hu
    rw [hlex] at ht hu
    rw [hb']
    exact .some (padded_body hsource hsource' hmarks (h.same_start hpos hstart ht htpos hbegin)
      (h.same_stop hpos hstop hu hupos hend))

/-- Tokens without columns give a script without columns. -/
theorem Script.lined_of_cursor {source source' : String}
    (h : (Cursor.ofLexed (lex source')).lined = (Cursor.ofLexed (lex source)).lined)
    (herrors : (lex source).errors = []) (herrors' : (lex source').errors = []) :
    (parseLenient source').1.items.map Item.lined = (parseLenient source).1.items.map Item.lined ∧
      (parseLenient source').1.span.lined = (parseLenient source).1.span.lined ∧
      (parseLenient source').2.map ParseError.lined = (parseLenient source).2.map ParseError.lined := by
  have hitems := congrArg Cursor.items h
  rw [Cursor.items_lined, Cursor.items_lined] at hitems
  obtain ⟨hitems, hproblems⟩ := Prod.mk.inj hitems
  have hspan (c : Cursor) : (c.spanSince (c.goto [])).lined = c.lined.spanSince (c.lined.goto []) := by
    rw [← Cursor.spanSince_lined]
    rfl
  refine ⟨hitems, ?_, ?_⟩
  · show ((Cursor.ofLexed (lex source')).spanSince _).lined =
      ((Cursor.ofLexed (lex source)).spanSince _).lined
    rw [hspan, hspan, h]
  · have hall (source : String) : (parseLenient source).2 =
        (lex source).errors.map .ofLexError ++ (Cursor.ofLexed (lex source)).items.2 := rfl
    rw [hall, hall, herrors, herrors', List.map_nil, List.nil_append, List.nil_append, hproblems]

/-- A token starts behind a front of its source. -/
theorem exists_front {source : String} (ht : t ∈ (lex source).tokens) :
    ∃ x y, source.toList = x ++ y ∧ t.start.offset = byteLength x := by
  obtain ⟨v, w, htokens⟩ := List.append_of_mem ht
  have htiles := tiles_lex source
  rw [htokens] at htiles
  obtain ⟨a, rest, hsource, hrest⟩ := htiles.drop
  cases hrest with
  | @cons p gap text behind t w hstart hlength hspelled hmore =>
    refine ⟨a ++ gap, text ++ behind, by rw [hsource]; simp, ?_⟩
    rw [hstart, ← Position.advance_append, offset_advance_start]

/-- **Reformatting is harmless.** Blanks without a newline that are written in front of a token of a
source that is read without lexical errors change nothing but columns, and the texts of bodies and
statements that they are written into. -/
theorem Script.reformats_of_blanks {source : String} (herrors : (lex source).errors = []) {t : Token}
    (ht : t ∈ (lex source).tokens) :
    ∃ a b, source = a ++ b ∧ byteLength a.toList = t.start.offset ∧
      ∀ w : String, w ≠ "" → (∀ c ∈ w.toList, isBlank c ∧ c ≠ '\n') →
        Reformats w t.start.offset source (a ++ w ++ b) := by
  obtain ⟨x, y, hsource, hstart⟩ := exists_front ht
  refine ⟨String.ofList x, String.ofList y, ?_, ?_, fun w hne hw => ?_⟩
  · rw [← String.ofList_append, ← hsource, String.ofList_toList]
  · rw [String.toList_ofList, hstart]
  have hsource' : (String.ofList x ++ w ++ String.ofList y).toList = x ++ (w.toList ++ y) := by simp
  generalize String.ofList x ++ w ++ String.ofList y = source' at hsource'
  have hlex : lex source = lexFrom .start (x ++ y) := by
    rw [← hsource]
    rfl
  have hlex' : lex source' = lexFrom .start (x ++ (w.toList ++ y)) := by
    rw [← hsource']
    rfl
  have hwne : w.toList ≠ [] := fun h => hne (by rw [← w.ofList_toList, h])
  have hline : '\n' ∉ w.toList := fun h => (hw _ h).2 rfl
  obtain ⟨v, r, r', h⟩ := exists_inserted (hlex ▸ herrors) (hlex ▸ ht) hstart hwne
    fun c hc => (hw c hc).1
  have herrors' : (lex source').errors = [] := hlex' ▸ h.errors
  have hcursor := h.cursor_lined hline
  rw [← hlex, ← hlex'] at hcursor
  obtain ⟨hitems, hspan, hproblems⟩ := lined_of_cursor hcursor herrors herrors'
  refine ⟨herrors', ?_, ?_, hitems, hspan, hproblems, ?_⟩
  · rw [hlex, hlex', h.map_lined hline]
  · rw [hlex, hlex', Inserted.lined_finish hline]
  · obtain ⟨items, hboth, hside⟩ := h.exists_items hline
    have hbefore : (parseLenient source).1.items = items.map (· .before) := by
      rw [← hside .before, Side.pick, List.append_nil, ← hlex]
      rfl
    have hafter : (parseLenient source').1.items = items.map (· .after) := by
      rw [← hside .after, Side.pick, List.append_assoc, ← hlex']
      rfl
    rw [hbefore, hafter, List.forall₂_map_left_iff, List.forall₂_map_right_iff, List.forall₂_same,
      hstart]
    intro a ha
    refine padded_item h ?_ hsource hsource' (hboth a ha) ?_ ?_
    · obtain ⟨c, l, hl⟩ := List.exists_cons_of_ne_nil hwne
      have hpos := c.utf8Size_pos
      rw [hl, byteLength_cons]
      omega
    · rw [hbefore]
      exact List.mem_map_of_mem ha
    · rw [hafter]
      exact List.mem_map_of_mem ha

/-- A script with a directive and a method, the body of which has a number behind a word. -/
def Script.sampleMethod : String := "#r \"Lib\"\nint F() \x7b return 1; \x7d"

theorem Script.sampleMethod_reformats :
    (lex sampleMethod).errors = [] ∧ ∃ a b, sampleMethod = a ++ b ∧ byteLength a.toList = 26 ∧
      Reformats "\t " 26 sampleMethod (a ++ "\t " ++ b) := by
  have herrors : (lex sampleMethod).errors = [] := by decide +kernel
  obtain ⟨a, b, hsplit, hlength, hall⟩ := reformats_of_blanks herrors
    (t := ⟨.number, "1", ⟨26, 2, 18⟩, 1⟩) (by decide +kernel)
  have hblanks : ∀ c ∈ "\t ".toList, isBlank c ∧ c ≠ '\n' := by
    intro c hc
    have hlist : "\t ".toList = ['\t', ' '] := rfl
    rw [hlist] at hc
    rcases List.mem_pair.mp hc with rfl | rfl
    · decide
    · decide
  exact ⟨herrors, a, b, hsplit, hlength, hall "\t " (by decide) hblanks⟩

end ScriptHost
