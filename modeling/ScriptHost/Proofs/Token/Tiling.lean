/-
# Tokens tile the source

Every token covers a stretch of the source: it starts where its stretch starts and is as long
as that, and the next token starts behind it. So places only go forward along the tokens, and
the bytes from the start of one token to the end of a later one are a piece of the source,
which begins and ends as these two are spelled.

Key definitions: `Tiles`, `TokenKind.spelling?`.
Key theorems: `sliceBytes_append`, `tiles_lex`, `Tiles.lines`, `Tiles.slice`.
-/
import ScriptHost.Token.Lexer

namespace ScriptHost

open Source

/-! ### Places and slices -/

theorem advance_offset : ∀ (cs : List Char) (p : Position),
    (p.advance cs).offset = p.offset + byteLength cs
  | [], p => rfl
  | c :: cs, p => by
    have hstep : (p.step c).offset = p.offset + c.utf8Size := by
      unfold Position.step
      split
      · next h =>
        subst h
        rfl
      · rfl
    rw [Position.advance_cons, advance_offset cs, hstep, byteLength_cons]
    omega

theorem offset_advance_start (cs : List Char) : (Position.start.advance cs).offset = byteLength cs :=
  (advance_offset cs .start).trans (Nat.zero_add _)

/-- A line for each newline. -/
theorem advance_line : ∀ (cs : List Char) (p : Position),
    (p.advance cs).line = p.line + cs.count '\n'
  | [], p => rfl
  | c :: cs, p => by
    rw [Position.advance_cons, advance_line cs, List.count_cons]
    by_cases h : c = '\n'
    · simp [Position.step, h]
      omega
    · simp [Position.step, h]

/-- Lines only go up. -/
theorem line_le_advance (cs : List Char) (p : Position) : p.line ≤ (p.advance cs).line := by
  rw [advance_line]
  exact Nat.le_add_right _ _

theorem dropBytes_append : ∀ a r : List Char, dropBytes (byteLength a) (a ++ r) = some r
  | [], r => by simp [dropBytes]
  | c :: a, r => by
    have hpos := c.utf8Size_pos
    obtain ⟨n, hn⟩ : ∃ n, c.utf8Size + byteLength a = n + 1 := ⟨_, (Nat.succ_pred (by omega)).symm⟩
    have hleft : n + 1 - c.utf8Size = byteLength a := by omega
    rw [byteLength_cons, hn, List.cons_append, dropBytes, if_pos (by omega), hleft]
    exact dropBytes_append a r

theorem takeBytes_append : ∀ a r : List Char, takeBytes (byteLength a) (a ++ r) = some a
  | [], r => by simp [takeBytes]
  | c :: a, r => by
    have hpos := c.utf8Size_pos
    obtain ⟨n, hn⟩ : ∃ n, c.utf8Size + byteLength a = n + 1 := ⟨_, (Nat.succ_pred (by omega)).symm⟩
    have hleft : n + 1 - c.utf8Size = byteLength a := by omega
    rw [byteLength_cons, hn, List.cons_append, takeBytes, if_pos (by omega), hleft,
      takeBytes_append a r]
    rfl

/-- **The bytes between two places in a text are the piece between them.** -/
theorem sliceBytes_append (a b r : List Char) :
    sliceBytes (byteLength a) (byteLength a + byteLength b) (a ++ b ++ r) = some b := by
  have hdrop := dropBytes_append a (b ++ r)
  unfold sliceBytes
  rw [if_pos (by omega), List.append_assoc, hdrop, Option.bind_some, Nat.add_sub_cancel_left]
  exact takeBytes_append b r

/-! ### How tokens are spelled -/

/-- The text of the tokens that start and end the bodies of a script. -/
def TokenKind.spelling? : TokenKind → Option (List Char)
  | .opening .brace => some ['{']
  | .closing .brace => some ['}']
  | .arrow => some ['=', '>']
  | .semicolon => some [';']
  | _ => none

theorem spelling?_keyword (word : String) :
    ((keyword? word).getD .identifier).spelling? = none := by
  unfold keyword?
  split
  case h_18 =>
    split <;> rfl
  all_goals rfl

theorem spelling_punctuation? {c : Char} {kind : TokenKind} {text : List Char}
    (h : punctuation? c = some kind) (hk : kind.spelling? = some text) : [c] = text := by
  unfold punctuation? at h
  split at h <;> cases h <;> cases hk <;> rfl

theorem spelling_pair? {c d : Char} {kind : TokenKind} {text : List Char}
    (h : pair? c d = some kind) (hk : kind.spelling? = some text) : [c, d] = text := by
  unfold pair? at h
  split at h <;> cases h <;> cases hk
  rfl

theorem spelling_scanPunctuation {c : Char} {r lexeme text : List Char} {kind : TokenKind}
    (h : (scanPunctuation c r).verdict = .token kind lexeme) (hk : kind.spelling? = some text) :
    c :: (scanPunctuation c r).taken = text := by
  unfold scanPunctuation at h ⊢
  cases hp : punctuation? c with
  | none =>
    cases r with
    | nil => simp [hp] at h
    | cons d r =>
      cases hd : pair? c d with
      | none => simp [hp, hd] at h
      | some k =>
        simp only [hd, Verdict.token.injEq] at h ⊢
        obtain ⟨rfl, -⟩ := h
        exact spelling_pair? hd hk
  | some single =>
    cases r with
    | nil =>
      simp only [hp, Verdict.token.injEq] at h ⊢
      obtain ⟨rfl, -⟩ := h
      exact spelling_punctuation? hp hk
    | cons d r =>
      cases hd : pair? c d with
      | none =>
        simp only [hp, hd, Verdict.token.injEq] at h ⊢
        obtain ⟨rfl, -⟩ := h
        exact spelling_punctuation? hp hk
      | some k =>
        simp only [hd, Verdict.token.injEq] at h ⊢
        obtain ⟨rfl, -⟩ := h
        exact spelling_pair? hd hk

theorem spelling_scanQuoted {quote : Char} {kind kind' : TokenKind} {lead seen r lexeme : List Char}
    (h : (scanQuoted quote kind lead seen r).verdict = .token kind' lexeme)
    (hk : kind.spelling? = none) : kind'.spelling? = none := by
  unfold scanQuoted at h
  split at h
  · simp only [Verdict.token.injEq] at h
    rw [← h.1]
    exact hk
  · cases h

theorem spelling_scanMarked {c : Char} {r lexeme : List Char} {kind : TokenKind}
    (h : (scanMarked c r).verdict = .token kind lexeme) : kind.spelling? = none := by
  unfold scanMarked at h
  simp only at h
  split at h
  · cases h
  · split at h
    · unfold scanVerbatim at h
      split at h
      · cases h
        rfl
      · cases h
    · exact spelling_scanQuoted h rfl
  · split at h
    · cases h
      rfl
    · cases h

/-- **A token of a kind with a fixed spelling covers just that.** -/
theorem spelling_scan {c : Char} {r lexeme text : List Char} {kind : TokenKind}
    (h : (scan c r).verdict = .token kind lexeme) (hk : kind.spelling? = some text) :
    c :: (scan c r).taken = text := by
  have hnone (hn : kind.spelling? = none) : c :: (scan c r).taken = text := by
    rw [hn] at hk
    cases hk
  unfold scan at h
  split at h
  · cases h
  split at h
  · exact hnone (spelling_scanQuoted h rfl)
  split at h
  · exact hnone (spelling_scanQuoted h rfl)
  split at h
  · exact hnone (spelling_scanMarked h)
  split at h
  · cases h
    exact hnone rfl
  split at h
  · cases h
    exact hnone (spelling?_keyword _)
  · next h1 h2 h3 h4 h5 h6 =>
    have hscan : scan c r = scanPunctuation c r := by
      rw [scan, if_neg h1, if_neg h2, if_neg h3, if_neg h4, if_neg h5, if_neg h6]
    rw [hscan]
    exact spelling_scanPunctuation h hk

/-! ### The stretches of the tokens -/

/-- The tokens cover stretches of the text that starts at the place, one behind the other. -/
inductive Tiles : Position → List Char → List Token → Prop
  | nil (p : Position) (cs : List Char) : Tiles p cs []
  | cons {p : Position} {gap text rest : List Char} {t : Token} {r : List Token}
    (start : t.start = p.advance gap) (length : t.length = byteLength text)
    (spelled : ∀ w, t.kind.spelling? = some w → text = w)
    (more : Tiles (t.start.advance text) rest r) : Tiles p (gap ++ text ++ rest) (t :: r)

variable {p : Position} {cs gap : List Char} {t u : Token} {w r : List Token}

/-- Text in front of the tokens. -/
theorem Tiles.behind (h : Tiles (p.advance gap) cs r) : Tiles p (gap ++ cs) r := by
  cases h with
  | nil => exact .nil _ _
  | @cons _ gap' text rest t r start length spelled more =>
    rw [← Position.advance_append] at start
    have htiles := Tiles.cons start length spelled more
    simpa only [List.append_assoc] using htiles

theorem tiles_lexWithin : ∀ (n : Nat) (p : Position) (cs : List Char),
    Tiles p cs (lexWithin n p cs).tokens
  | 0, p, cs => .nil p cs
  | n + 1, p, cs => by
    have htrivia := trivia_append cs
    unfold lexWithin
    split
    next blank after hta =>
    rw [hta] at htrivia
    split
    · exact .nil p cs
    · next c r =>
      have hscan := scan_taken_rest c r
      have hcs : cs = blank ++ (c :: (scan c r).taken) ++ (scan c r).rest := by
        rw [List.append_assoc, List.cons_append, hscan, htrivia]
      have hmore := tiles_lexWithin n ((p.advance blank).advance (c :: (scan c r).taken)) (scan c r).rest
      rw [hcs]
      cases hv : (scan c r).verdict with
      | token kind lexeme =>
        simp only [Lexed.tokens, Scan.lexeme, hv, List.filterMap_cons]
        exact .cons rfl rfl (fun w hw => spelling_scan hv hw) hmore
      | fault fault length =>
        simp only [Lexed.tokens, Scan.lexeme, hv, List.filterMap_cons]
        rw [List.append_assoc]
        exact Tiles.behind (Tiles.behind hmore)

/-- **The tokens of a source tile it.** -/
theorem tiles_lex (source : String) : Tiles .start source.toList (lex source).tokens :=
  tiles_lexWithin _ _ _

theorem Tiles.drop (h : Tiles p cs (w ++ r)) :
    ∃ a b, cs = a ++ b ∧ Tiles (p.advance a) b r := by
  induction w generalizing p cs with
  | nil => exact ⟨[], cs, rfl, h⟩
  | cons t w ih =>
    cases h with
    | @cons _ gap text rest _ _ start length spelled more =>
      obtain ⟨a, b, rfl, hb⟩ := ih more
      refine ⟨gap ++ text ++ a, b, by simp only [List.append_assoc], ?_⟩
      rw [Position.advance_append, Position.advance_append, ← start]
      exact hb

/-- **Lines only go up along the tokens.** -/
theorem Tiles.lines (h : Tiles p cs r) :
    (∀ t ∈ r, p.line ≤ t.start.line) ∧ r.Pairwise fun t u => t.start.line ≤ u.start.line := by
  induction h with
  | nil => exact ⟨by simp, .nil⟩
  | @cons p gap text rest t r start length spelled more ih =>
    obtain ⟨hfirst, hmore⟩ := ih
    have ht : p.line ≤ t.start.line := by
      rw [start]
      exact line_le_advance gap p
    have hr : ∀ u ∈ r, t.start.line ≤ u.start.line := fun u hu =>
      Nat.le_trans (line_le_advance text t.start) (hfirst u hu)
    refine ⟨fun u hu => ?_, .cons hr hmore⟩
    rcases List.mem_cons.mp hu with rfl | hu
    · exact ht
    · exact Nat.le_trans ht (hr u hu)

/-- **What stands between two tokens is a piece of the source** that begins and ends as they
are spelled, and the tokens behind them cover what is behind it. -/
theorem Tiles.slice : ∀ {w : List Token} {p : Position} {cs : List Char} {t u : Token},
    Tiles p cs (w ++ r) → w.head? = some t → w.getLast? = some u →
      ∃ before text behind, cs = before ++ text ++ behind ∧ t.start = p.advance before ∧
        u.stop = t.start.offset + byteLength text ∧ t.length ≤ byteLength text ∧
        Tiles (t.start.advance text) behind r ∧
        (∀ x, t.kind.spelling? = some x → x <+: text) ∧
        (∀ x, u.kind.spelling? = some x → x <:+ text)
  | [], p, cs, t, u, h, ht, hu => by cases ht
  | [v], p, cs, t, u, h, ht, hu => by
    obtain rfl : v = t := by simpa using ht
    obtain rfl : v = u := by simpa using hu
    cases h with
    | @cons _ gap text rest _ _ start length spelled more =>
      refine ⟨gap, text, rest, rfl, start, by rw [Token.stop, length], Nat.le_of_eq length, more,
        fun x hx => ?_, fun x hx => ?_⟩
      · obtain rfl := spelled x hx
        exact List.prefix_rfl
      · obtain rfl := spelled x hx
        exact List.suffix_rfl
  | v :: v' :: w, p, cs, t, u, h, ht, hu => by
    obtain rfl : v = t := by simpa using ht
    rw [List.getLast?_cons_cons] at hu
    cases h with
    | @cons _ gap text rest _ _ start length spelled more =>
      obtain ⟨before, last, behind, rfl, hstart, hstop, -, hmore, -, hends⟩ :=
        Tiles.slice (w := v' :: w) more rfl hu
      refine ⟨gap, text ++ before ++ last, behind, by simp only [List.append_assoc], start, ?_, ?_,
        ?_, fun x hx => ?_, fun x hx => ?_⟩
      · rw [hstop, hstart, advance_offset, advance_offset, byteLength_append, byteLength_append]
        omega
      · rw [length, byteLength_append, byteLength_append]
        omega
      · rw [Position.advance_append, Position.advance_append, ← hstart]
        exact hmore
      · rw [spelled x hx, List.append_assoc]
        exact List.prefix_append _ _
      · exact (hends x hx).trans (List.suffix_append _ _)

end ScriptHost
