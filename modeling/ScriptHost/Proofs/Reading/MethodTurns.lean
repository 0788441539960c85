/-
# The turn of a method

A run of turns that gives a method takes a turn at it, and this turn ends where the reader of
methods does: behind the closing brace of the body, if it is a block. A directive in front of
the method leaves no token of its line, so that its line ends before the method begins.

Key theorems: `Turns.at_item`, `group_of_method`, `turn_method`, `line_of_directive`.
-/
import ScriptHost.Proofs.Reading.Segments

namespace ScriptHost

open Parse Source

variable {c d : Cursor} {t : Token} {r : List Token} {declared after : Bool} {m : MethodDecl}
  {items : List Item} {errors : List ParseError}

/-! ### The turn of a method -/

/-- **A run that gives an item** is a run in front of it, its turn, and a run behind it. -/
theorem Turns.at_item {item : Item} (h : Turns declared c after d items errors) (hi : item ∈ items) :
    ∃ between c' t r front back frontErrors backErrors, c'.rest = t :: r ∧
      Turns declared c between c' front frontErrors ∧
      (ScriptHost.turn between c').item? = some item ∧
      Turns (between || declares t.kind) (ScriptHost.turn between c').next after d back backErrors ∧
      items = front ++ item :: back ∧
      errors = frontErrors ++ (ScriptHost.turn between c').error?.toList ++ backErrors := by
  induction h with
  | stay declared c => cases hi
  | @turn declared after c d t r items errors hr more ih =>
    rcases List.mem_append.mp hi with hi | hi
    · have hsome := Option.mem_toList.mp hi
      exact ⟨declared, c, t, r, [], items, [], errors, hr, .stay _ _, hsome, more,
        by rw [hsome]; rfl, rfl⟩
    · obtain ⟨between, c', t', r', front, back, frontErrors, backErrors, hr', hfront, hturn, hback,
        rfl, rfl⟩ := ih hi
      exact ⟨between, c', t', r', _, back, _, backErrors, hr', .turn hr hfront, hturn, hback,
        by simp, by simp⟩

/-- A method in braces ends with these, and what stands between them is balanced. -/
theorem group_of_method {start : Cursor} {modifiers : Modifiers} {returns : TypeExpr}
    (h : method start modifiers returns c = .done m d) (hk : m.body.kind = .block) :
    ∃ v opener inner closer, c.rest = v ++ (opener :: inner ++ [closer]) ++ d.rest ∧
      opener.kind = .opening .brace ∧ closer.kind = .closing .brace ∧ Balanced inner ∧
      m.body.start = opener.start.offset ∧ m.body.stop = max closer.stop opener.start.offset := by
  obtain ⟨v, e, hv, hbody⟩ := body_of_method h
  rcases body_cases hbody with ⟨opener, inner, closer, hw, ho, hc, hi, hb⟩ | ⟨_, _, _, _, _, _, hb⟩
  · have hends : BodyKind.block.ends? = some (opener.kind, closer.kind) := by
      rw [ho, hc]
      rfl
    obtain ⟨t, u, ht, hu, hstart, hstop, -⟩ := covers_framed hw hends
    obtain rfl : opener = t := Option.some.inj ht
    obtain rfl : closer = u := Option.some.inj (List.getLast?_concat.symm.trans hu)
    refine ⟨v, opener, inner, closer, ?_, ho, hc, hi, ?_, ?_⟩
    · rw [hv, hw, ← List.append_assoc]
    · rw [hb]
      exact hstart
    · rw [hb]
      exact hstop
  · rw [hb] at hk
    cases hk

/-- A turn with an item is that of a reader that succeeded. -/
theorem done_of_ofReply {reply : Reply Item} {item : Item}
    (h : (Turn.ofReply c reply).item? = some item) : ∃ d, reply = .done item d := by
  cases reply with
  | done a d =>
    obtain rfl : a = item := by simpa [Turn.ofReply] using h
    exact ⟨d, rfl⟩
  | failed e d => simp [Turn.ofReply, Turn.recover] at h

/-- A member that is a method was read as one. -/
theorem method_of_member? {start : Cursor} {modifiers : Modifiers}
    (h : member? start modifiers c = .done (some (.method m)) d) :
    ∃ w named returns, c.rest = w ++ Cursor.rest named ∧
      method start modifiers returns named = .done m d := by
  cases hd : typeExpr c with
  | failed e d' => simp [member?_of_failed start modifiers hd] at h
  | done type named =>
    rw [member?_of_type start modifiers hd] at h
    obtain ⟨w, hw, -, -⟩ := reads_typeExpr.done hd
    split at h
    · split at h
      · next sort _ =>
        cases sort with
        | method =>
          obtain ⟨m', hm, hi⟩ := map_eq_done.mp h
          obtain rfl : m' = m := by simpa using hi
          exact ⟨w, named, type, hw, hm⟩
        | property =>
          obtain ⟨p, -, hi⟩ := map_eq_done.mp h
          simp at hi
        | field =>
          obtain ⟨f, -, hi⟩ := map_eq_done.mp h
          simp at hi
      · simp at h
    · simp at h

theorem turn_of_hash (hr : c.rest = t :: r) (hk : t.kind = .hash) :
    turn declared c = directive declared c t r := by
  simp only [turn, hr, hk]

/-- A directive gives references only. -/
theorem isReference_of_directive {item : Item} (hr : c.rest = t :: r) (hk : t.kind = .hash)
    (h : (directive declared c t r).item? = some item) : item.isReference := by
  have hturn : TurnAt declared c.rest (directive declared c t r) := turnAt_directive hr hk
  generalize directive declared c t r = now at hturn h
  cases hturn with
  | semicolon => cases h
  | directive _ _ hitem => exact (hitem _ h).2.1
  | item ht hk' =>
    rw [hr] at ht
    obtain rfl := Option.some.inj ht
    rw [hk] at hk'
    cases hk'
  | problem => cases h

/-- **A turn that gives a method ends where the reader of methods does.** -/
theorem turn_method (hr : c.rest = t :: r) (h : (turn declared c).item? = some (.method m)) :
    ∃ w start named modifiers returns, c.rest = w ++ Cursor.rest named ∧
      method start modifiers returns named = .done m (turn declared c).next := by
  have hstatement : (statement c).item? ≠ some (.method m) := by simp [statement]
  unfold turn at h ⊢
  rw [hr] at h ⊢
  simp only at h ⊢
  split at h
  · cases h
  · next hk => cases isReference_of_directive hr hk h
  · split at h
    · obtain ⟨d, hd⟩ := done_of_ofReply h
      obtain ⟨u, -, hu⟩ := map_eq_done.mp hd
      cases hu
    · exact absurd h hstatement
  · split at h
    · next hmay =>
      rw [if_pos hmay]
      unfold declaration at h ⊢
      split at h
      · simp [Turn.recover] at h
      next u start hstart =>
      obtain ⟨w1, hw1, -⟩ := reads_skipAttributes.done hstart
      split at h
      · simp [Turn.recover] at h
      next modifiers d hd =>
      obtain ⟨w2, hw2, -⟩ := reads_modifiers.done hd
      split at h
      · obtain ⟨d', hd'⟩ := done_of_ofReply h
        obtain ⟨u, -, hu⟩ := map_eq_done.mp hd'
        cases hu
      next hword =>
      split at h
      · simp [Turn.recover] at h
      · next item d' hm =>
        obtain rfl : item = .method m := Option.some.inj h
        obtain ⟨w3, named, returns, hw3, hmethod⟩ := method_of_member? hm
        refine ⟨w1 ++ w2 ++ w3, start, named, modifiers, returns, ?_, ?_⟩
        · rw [← hr, hw1, hw2, hw3, List.append_assoc, List.append_assoc]
        · rw [if_neg hword]
          exact hmethod
      · split at h
        · exact absurd h hstatement
        · simp [Turn.recover] at h
    · exact absurd h hstatement

/-- The turn reads a method whose body is the block between two braces. -/
structure BlockTurn (declared : Bool) (c : Cursor) (m : MethodDecl) (v inner : List Token)
    (opener closer : Token) : Prop where
  item : (turn declared c).item? = some (.method m)
  rest : c.rest = v ++ (opener :: inner ++ [closer]) ++ (turn declared c).next.rest
  opens : opener.kind = .opening .brace
  closes : closer.kind = .closing .brace
  balanced : Balanced inner
  start : m.body.start = opener.start.offset
  stop : m.body.stop = max closer.stop opener.start.offset

/-- A turn that gives a method with a block for a body reads it to the end of the block. -/
theorem exists_blockTurn (hr : c.rest = t :: r) (h : (turn declared c).item? = some (.method m))
    (hk : m.body.kind = .block) :
    ∃ v inner opener closer, BlockTurn declared c m v inner opener closer := by
  obtain ⟨w, start, named, modifiers, returns, hw, hmethod⟩ := turn_method hr h
  obtain ⟨v, opener, inner, closer, hv, hopens, hcloses, hinner, hstart, hstop⟩ :=
    group_of_method hmethod hk
  refine ⟨w ++ v, inner, opener, closer, h, ?_, hopens, hcloses, hinner, hstart, hstop⟩
  rw [hw, hv]
  simp only [List.append_assoc]

/-! ### The line of a directive -/

/-- A directive leaves no token on the line of its `#`. -/
theorem line_of_directive (hr : c.rest = t :: r)
    (hlines : c.rest.Pairwise fun t u => t.start.line ≤ u.start.line) :
    ∀ u ∈ (directive declared c t r).next.rest, t.start.line ≠ u.start.line := by
  -- what a directive leaves is what is left of some of its tokens behind that line
  obtain ⟨l, hl, hnext⟩ : ∃ l, l <:+ r ∧ (directive declared c t r).next.rest =
      l.dropWhile fun u => u.start.line == t.start.line := by
    unfold directive
    simp only
    split
    · exact ⟨[], List.nil_suffix, rfl⟩
    · next name r' =>
      split
      · split
        · have hreads := reads_reference declared c (c.goto r')
          obtain ⟨w, hw, -, -⟩ := hreads
          cases href : reference declared c (c.goto r') with
          | done item d =>
            rw [href] at hw
            exact ⟨d.rest, ⟨name :: w, by rw [List.cons_append]; exact congrArg _ hw.symm⟩, rfl⟩
          | failed e d =>
            rw [href] at hw
            exact ⟨d.rest, ⟨name :: w, by rw [List.cons_append]; exact congrArg _ hw.symm⟩, rfl⟩
        · split <;> exact ⟨_, List.suffix_rfl, rfl⟩
      · exact ⟨_, List.suffix_rfl, rfl⟩
  rw [hr, List.pairwise_cons] at hlines
  intro u hu
  rw [hnext] at hu
  obtain ⟨hfirst, hmore⟩ := hlines
  cases hdrop : l.dropWhile fun u => u.start.line == t.start.line with
  | nil =>
    rw [hdrop] at hu
    cases hu
  | cons v l' =>
    have hv : v.start.line ≠ t.start.line := by
      have hhead := List.head?_dropWhile_not (fun u : Token => u.start.line == t.start.line) l
      rw [hdrop] at hhead
      simpa using hhead
    have hsuffix : v :: l' <:+ r := by
      rw [← hdrop]
      exact (List.dropWhile_suffix _).trans hl
    have hle := hfirst v (hsuffix.subset List.mem_cons_self)
    rw [hdrop] at hu
    rcases List.mem_cons.mp hu with rfl | hu
    · exact hv.symm
    · have hrest := (List.pairwise_cons.mp (hmore.sublist hsuffix.sublist)).1 u hu
      omega

end ScriptHost
