/-
# Literals and lines

An ordinary literal, a character or a string without `@`, is meant to end on the line where it starts:
its quote is closed there, or the literal is reported and lexing goes on at the newline. But the
backslash takes the character behind it along whatever that is. Where it is the last of its line, the
literal goes on with the next one, and that is the one way a newline gets into an ordinary literal.

Key definitions: `Quoted`, `Opens`, `ClosedOnLine`, `LeftOpen`, `Carried`, `Token.IsOrdinary`.
Key theorems: `splitQuoted_quoted`, `quoted_of_splitQuoted`, `line_cases`, `scan_opens`,
`opens_of_scan`, `literals_lex`.
-/
import ScriptHost.Proofs.Token.Boundary
import ScriptHost.Proofs.Token.Stepwise

namespace ScriptHost

open Source

variable {quote c : Char} {body more r marks lexeme : List Char} {kind : TokenKind}

/-! ### Inside the quotes -/

/-- The inside of an ordinary literal: no quote, no newline and no backslash but one that takes the
next character along. -/
inductive Quoted (quote : Char) : List Char → Prop
  | nil : Quoted quote []
  | plain {c : Char} {body : List Char} (hc : c ≠ '\\' ∧ c ≠ '\n' ∧ c ≠ quote)
    (more : Quoted quote body) : Quoted quote (c :: body)
  | escape (c : Char) {body : List Char} (more : Quoted quote body) : Quoted quote ('\\' :: c :: body)

/-- The inside of a literal is passed over, whatever stands behind it. -/
theorem splitQuoted_quoted (h : Quoted quote body) (r : List Char) :
    splitQuoted quote (body ++ r) =
      ((splitQuoted quote r).1, body ++ (splitQuoted quote r).2.1, (splitQuoted quote r).2.2) := by
  induction h with
  | nil => rfl
  | plain hc _ ih =>
    rw [List.cons_append, splitQuoted_plain hc.1, if_neg hc.2.1, if_neg hc.2.2, ih]
    rfl
  | escape c _ ih =>
    simp only [List.cons_append, splitQuoted, ih]

/-- A newline gets inside only behind a backslash, and the first one does behind a part of the
inside without one. -/
theorem Quoted.first_newline (h : Quoted quote body) (hn : '\n' ∈ body) :
    ∃ front behind, body = front ++ '\\' :: '\n' :: behind ∧ Quoted quote front ∧ '\n' ∉ front := by
  induction h with
  | nil => cases hn
  | @plain c body hc more ih =>
    have hmore : '\n' ∈ body := (List.mem_cons.mp hn).resolve_left (Ne.symm hc.2.1)
    obtain ⟨front, behind, rfl, hfront, hnone⟩ := ih hmore
    exact ⟨c :: front, behind, rfl, .plain hc hfront, by simp [hnone, Ne.symm hc.2.1]⟩
  | @escape c body more ih =>
    by_cases hc : c = '\n'
    · subst hc
      exact ⟨[], body, rfl, .nil, List.not_mem_nil⟩
    · have hmore : '\n' ∈ body := by simpa [Ne.symm hc] using hn
      obtain ⟨front, behind, rfl, hfront, hnone⟩ := ih hmore
      exact ⟨'\\' :: c :: front, behind, rfl, .escape c hfront, by simp [hnone, Ne.symm hc]⟩

/-- Every text starts with the inside of a literal, and behind it the text or the line ends or a
quote stands. -/
theorem exists_quoted (quote : Char) : ∀ r : List Char, ∃ body tail, r = body ++ tail ∧
    Quoted quote body ∧ (tail = [] ∨ tail = ['\\'] ∨ ∃ more, tail = '\n' :: more ∨ tail = quote :: more)
  | [] => ⟨[], [], rfl, .nil, .inl rfl⟩
  | c :: r => by
    by_cases hb : c = '\\'
    · subst hb
      cases r with
      | nil => exact ⟨[], ['\\'], rfl, .nil, .inr (.inl rfl)⟩
      | cons c r =>
        obtain ⟨body, tail, rfl, hbody, htail⟩ := exists_quoted quote r
        exact ⟨'\\' :: c :: body, tail, rfl, .escape c hbody, htail⟩
    by_cases hn : c = '\n'
    · exact ⟨[], c :: r, rfl, .nil, .inr (.inr ⟨r, .inl (by rw [hn])⟩)⟩
    by_cases hq : c = quote
    · exact ⟨[], c :: r, rfl, .nil, .inr (.inr ⟨r, .inr (by rw [hq])⟩)⟩
    · obtain ⟨body, tail, rfl, hbody, htail⟩ := exists_quoted quote r
      exact ⟨c :: body, tail, rfl, .plain ⟨hb, hn, hq⟩ hbody, htail⟩

/-- What is neither a backslash nor a newline may close a literal. -/
def Closes (quote : Char) : Prop := quote ≠ '\\' ∧ quote ≠ '\n'

theorem splitQuoted_quote (h : Closes quote) (more : List Char) :
    splitQuoted quote (quote :: more) = (true, [quote], more) := by
  rw [splitQuoted_plain h.1, if_neg h.2, if_pos rfl]

/-- What is taken of a literal that is closed is its inside and the quote. -/
theorem quoted_of_splitQuoted {taken rest : List Char} (hquote : Closes quote)
    (h : splitQuoted quote r = (true, taken, rest)) :
    ∃ body, taken = body ++ [quote] ∧ Quoted quote body := by
  obtain ⟨body, tail, rfl, hbody, htail⟩ := exists_quoted quote r
  rw [splitQuoted_quoted hbody] at h
  obtain rfl | rfl | ⟨more, rfl | rfl⟩ := htail
  · cases h
  · cases h
  · cases h
  · rw [splitQuoted_quote hquote] at h
    cases h
    exact ⟨body, rfl, hbody⟩

/-! ### A literal and its line -/

/-- The quote is closed behind `body` on the line that starts with the text, and `more` follows. -/
structure ClosedOnLine (quote : Char) (r body more : List Char) : Prop where
  text : r = body ++ quote :: more
  inside : Quoted quote body
  line : '\n' ∉ body

/-- The quote is left open on the line that starts with the text: the inside of a literal runs up to
the newline or up to the end of the text, where a backslash may be left over. -/
inductive LeftOpen (quote : Char) : List Char → Prop
  | newline {body : List Char} (h : Quoted quote body) (hline : '\n' ∉ body) (more : List Char) :
    LeftOpen quote (body ++ '\n' :: more)
  | finish {body : List Char} (h : Quoted quote body) (hline : '\n' ∉ body) : LeftOpen quote body
  | backslash {body : List Char} (h : Quoted quote body) (hline : '\n' ∉ body) :
    LeftOpen quote (body ++ ['\\'])

/-- The quote is not closed on the line, and the backslash at the end of the line takes the newline
along. -/
def Carried (quote : Char) (r more : List Char) : Prop :=
  ∃ body, r = body ++ '\\' :: '\n' :: more ∧ Quoted quote body ∧ '\n' ∉ body

/-- A line closes the quote, leaves it open, or carries it on to the next line. -/
theorem line_cases (quote : Char) (r : List Char) :
    (∃ body more, ClosedOnLine quote r body more) ∨ LeftOpen quote r ∨
      ∃ more, Carried quote r more := by
  obtain ⟨body, tail, rfl, hbody, htail⟩ := exists_quoted quote r
  by_cases hn : '\n' ∈ body
  · obtain ⟨front, behind, rfl, hfront, hnone⟩ := hbody.first_newline hn
    exact .inr (.inr ⟨behind ++ tail, front, by simp, hfront, hnone⟩)
  obtain rfl | rfl | ⟨more, rfl | rfl⟩ := htail
  · rw [List.append_nil]
    exact .inr (.inl (.finish hbody hn))
  · exact .inr (.inl (.backslash hbody hn))
  · exact .inr (.inl (.newline hbody hn more))
  · exact .inl ⟨body, more, ⟨rfl, hbody, hn⟩⟩

theorem dropWhile_newline (h : '\n' ∉ body) (r : List Char) :
    (body ++ r).dropWhile (· != '\n') = r.dropWhile (· != '\n') :=
  List.dropWhile_append_of_pos fun _ hc => bne_iff_ne.mpr fun heq => h (heq ▸ hc)

/-- A literal that is left open is not closed by the scan either, which stops at the newline. -/
theorem splitQuoted_leftOpen (h : LeftOpen quote r) :
    ∃ taken, splitQuoted quote r = (false, taken, r.dropWhile (· != '\n')) := by
  cases h with
  | newline hbody hline more =>
    rw [splitQuoted_quoted hbody, dropWhile_newline hline]
    exact ⟨_, rfl⟩
  | finish hbody hline =>
    have hdrop := dropWhile_newline hline []
    have hsplit := splitQuoted_quoted hbody []
    rw [List.append_nil] at hdrop hsplit
    rw [hsplit, hdrop]
    exact ⟨_, rfl⟩
  | backslash hbody hline =>
    rw [splitQuoted_quoted hbody, dropWhile_newline hline]
    exact ⟨_, rfl⟩

/-- The scan of a literal that is carried on stops behind the newline. -/
theorem splitQuoted_carried (h : Carried quote r more) :
    ∃ closed taken rest, splitQuoted quote r = (closed, taken, rest) ∧ '\n' ∈ taken ∧ rest <:+ more := by
  obtain ⟨body, rfl, hbody, -⟩ := h
  rw [splitQuoted_quoted hbody]
  refine ⟨_, _, _, rfl, ?_, (splitQuoted quote more).2.1, splitQuoted_append quote more⟩
  simp [splitQuoted]

/-! ### Where a literal starts -/

/-- The marks and the quote that open an ordinary literal of the kind. -/
inductive Opens : TokenKind → List Char → Char → Prop
  | string {marks : List Char} (hmarks : ∀ c ∈ marks, c = '$') : Opens .stringLiteral marks '"'
  | char : Opens .charLiteral [] '\''

theorem Opens.closes (h : Opens kind marks quote) : Closes quote := by
  cases h <;> exact ⟨by decide, by decide⟩

/-- Whether the token is an ordinary literal: a character, or a string without `@` in front. -/
def Token.IsOrdinary (t : Token) : Prop :=
  t.kind = .charLiteral ∨ t.kind = .stringLiteral ∧ '@' ∉ t.lexeme.toList.takeWhile isMark

/-- **Where marks and a quote open an ordinary literal, one is scanned.** -/
theorem scan_opens (h : Opens kind marks quote) (hc : marks ++ quote :: r = c :: more) :
    scan c more = scanQuoted quote kind (marks ++ [quote]) (marks ++ [quote]).tail r := by
  cases h with
  | char =>
    obtain ⟨rfl, rfl⟩ := List.cons.inj hc
    rfl
  | string hmarks =>
    cases marks with
    | nil =>
      obtain ⟨rfl, rfl⟩ := List.cons.inj hc
      rfl
    | cons m marks =>
      obtain ⟨rfl, rfl⟩ := List.cons.inj hc
      obtain ⟨rfl, hmore⟩ := List.forall_mem_cons.mp hmarks
      have hmark (c : Char) (hc : c ∈ marks) : isMark c = true := by
        rw [hmore c hc]
        rfl
      have hplain : ('$' :: marks).contains '@' = false := by
        simpa using fun hat => absurd (hmore '@' hat) (by decide)
      obtain ⟨htake, hdrop⟩ := while_exact (r := '"' :: r) hmark (by simp; decide)
      show scanMarked '$' (marks ++ '"' :: r) = _
      simp only [scanMarked, htake, hdrop, hplain, Bool.false_eq_true, ↓reduceIte]
      rfl

/-- Characters and strings are literals. -/
def TokenKind.isLiteral : TokenKind → Bool
  | .charLiteral | .stringLiteral => true
  | _ => false

theorem isLiteral_keyword (word : String) : ((keyword? word).getD .identifier).isLiteral = false := by
  unfold keyword?
  split
  case h_18 =>
    split <;> rfl
  all_goals rfl

theorem isLiteral_scanPunctuation (h : (scanPunctuation c r).verdict = .token kind lexeme) :
    kind.isLiteral = false := by
  rcases kind_of_scanPunctuation h with hkind | ⟨d, hkind⟩
  · unfold punctuation? at hkind
    split at hkind <;> cases hkind <;> rfl
  · unfold pair? at hkind
    split at hkind <;> cases hkind <;> rfl

/-- Behind marks without `@` a string is an ordinary one. -/
theorem opens_of_scanMarked (hc : isMark c) (h : (scanMarked c r).verdict = .token kind lexeme)
    (hkind : kind.isLiteral) (hat : kind = .stringLiteral → '@' ∉ lexeme.takeWhile isMark) :
    ∃ marks more, marks ++ '"' :: more = c :: r ∧ Opens kind marks '"' := by
  have hmarks : ∀ d ∈ c :: r.takeWhile isMark, isMark d :=
    List.forall_mem_cons.mpr ⟨hc, List.all_eq_true.mp List.all_takeWhile⟩
  simp only [scanMarked] at h
  split at h
  · cases h
  next inner hinner =>
    split at h
    next hverbatim =>
      -- the marks in front of a verbatim string stay in its lexeme
      exfalso
      simp only [scanVerbatim] at h
      split at h
      · obtain ⟨rfl, rfl⟩ := Verdict.token.inj h
        have hnone := hat rfl
        rw [List.append_assoc, (while_exact hmarks (by simp [isMark])).1] at hnone
        exact hnone (List.contains_iff_mem.mp hverbatim)
      · cases h
    next hverbatim =>
      refine ⟨c :: r.takeWhile isMark, inner, ?_, ?_⟩
      · rw [List.cons_append, ← hinner, List.takeWhile_append_dropWhile]
      · rw [kind_of_scanQuoted h]
        refine .string fun d hd => ?_
        have hd' : d ≠ '@' := fun heq => hverbatim (List.contains_iff_mem.mpr (heq ▸ hd))
        have hmark := hmarks d hd
        simp only [isMark, Bool.or_eq_true, beq_iff_eq] at hmark
        exact hmark.resolve_left hd'
  · split at h
    · rw [← (Verdict.token.inj h).1] at hkind
      cases hkind
    · cases h

/-- **An ordinary literal is opened where it starts.** -/
theorem opens_of_scan {t : Token} (h : (scan c r).verdict = .token t.kind t.lexeme.toList)
    (ht : t.IsOrdinary) : ∃ marks quote more, marks ++ quote :: more = c :: r ∧ Opens t.kind marks quote := by
  have hliteral : t.kind.isLiteral = true := by
    rcases ht with hk | ⟨hk, -⟩ <;> rw [hk] <;> rfl
  revert h
  refine scan_cases (motive := fun s => s.verdict = .token t.kind t.lexeme.toList →
    ∃ marks quote more, marks ++ quote :: more = c :: r ∧ Opens t.kind marks quote) c r
    ?comment ?string ?char ?marked ?number ?word ?punctuation
  case comment => exact fun h => nomatch h
  case string =>
    rintro rfl h
    refine ⟨[], '"', r, rfl, ?_⟩
    rw [kind_of_scanQuoted h]
    exact .string (by simp)
  case char =>
    rintro rfl h
    refine ⟨[], '\'', r, rfl, ?_⟩
    rw [kind_of_scanQuoted h]
    exact .char
  case marked =>
    intro hmark h
    have hat (hk : t.kind = .stringLiteral) : '@' ∉ t.lexeme.toList.takeWhile isMark :=
      (ht.resolve_left (by simp [hk])).2
    obtain ⟨marks, more, hmore, hopens⟩ := opens_of_scanMarked hmark h hliteral hat
    exact ⟨marks, '"', more, hmore, hopens⟩
  case number =>
    intro _ h
    rw [← (Verdict.token.inj h).1] at hliteral
    cases hliteral
  case word =>
    intro _ h
    rw [← (Verdict.token.inj h).1, isLiteral_keyword] at hliteral
    cases hliteral
  case punctuation =>
    intro _ h
    rw [isLiteral_scanPunctuation h] at hliteral
    cases hliteral

/-- **An ordinary literal has its inside between its quotes**, and a newline in it stands behind a
backslash. -/
theorem quoted_of_scan {t : Token} (h : (scan c r).verdict = .token t.kind t.lexeme.toList)
    (ht : t.IsOrdinary) : ∃ marks quote body, t.lexeme.toList = marks ++ quote :: (body ++ [quote]) ∧
      Opens t.kind marks quote ∧ Quoted quote body := by
  obtain ⟨marks, quote, more, hmore, hopens⟩ := opens_of_scan h ht
  rw [scan_opens hopens hmore, scanQuoted] at h
  split at h
  next taken rest hsplit =>
    obtain ⟨-, hlexeme⟩ := Verdict.token.inj h
    obtain ⟨body, rfl, hbody⟩ := quoted_of_splitQuoted hopens.closes hsplit
    exact ⟨marks, quote, body, by rw [← hlexeme]; simp, hopens, hbody⟩
  · cases h

theorem newline_mem_iff {lexeme : List Char} (hlexeme : lexeme = marks ++ quote :: (body ++ [quote]))
    (hopens : Opens kind marks quote) (hbody : Quoted quote body) :
    '\n' ∈ lexeme ↔ ['\\', '\n'] <:+: lexeme := by
  refine ⟨fun hn => ?_, fun hinfix => hinfix.subset (by simp)⟩
  have hmarks : '\n' ∉ marks := by
    cases hopens with
    | string hmarks => exact fun h => absurd (hmarks _ h) (by decide)
    | char => simp
  have hn : '\n' ∈ body := by
    simpa [hlexeme, hmarks, Ne.symm hopens.closes.2] using hn
  obtain ⟨front, behind, rfl, -⟩ := hbody.first_newline hn
  exact ⟨marks ++ quote :: front, behind ++ [quote], by simp [hlexeme]⟩

/-! ### The calls of the lexer -/

namespace Lexer

/-- What a call makes of the ordinary literal that starts behind `gap` with the marks and the quote,
`r` being the text behind them. -/
structure ReadsLiteral (l : Lexer) (gap : List Char) (kind : TokenKind) (marks : List Char)
    (quote : Char) (r : List Char) : Prop where
  /-- A quote that is closed on its line gives a token, and the text goes on behind it. -/
  closed : ∀ body more, ClosedOnLine quote r body more → ∃ t, l.next.1 = .lexeme (.token t) ∧
    t.kind = kind ∧ t.lexeme.toList = marks ++ quote :: (body ++ [quote]) ∧ l.next.2.rest = more
  /-- A quote that is left open is reported where the literal starts, and the text goes on at the
  newline. -/
  leftOpen : LeftOpen quote r →
    l.next.1 = .lexeme (.invalid (l.place.advance gap)
      ⟨.unterminatedLiteral, .ofPosition (l.place.advance gap) 1⟩) ∧
    l.next.2.errors = l.errors ++ [⟨.unterminatedLiteral, .ofPosition (l.place.advance gap) 1⟩] ∧
    l.next.2.rest = r.dropWhile (· != '\n')
  /-- A backslash at the end of the line takes the newline along, and the text goes on behind it. -/
  carried : ∀ more, Carried quote r more → l.next.2.rest <:+ more
  /-- There is no other way. -/
  cases : (∃ body more, ClosedOnLine quote r body more) ∨ LeftOpen quote r ∨
    ∃ more, Carried quote r more

variable {l : Lexer} {gap : List Char}

/-- A call scans one lexeme behind what it skips. -/
theorem next_of_cons (ht : trivia l.rest = (gap, c :: r)) :
    l.next = (.lexeme ((scan c r).lexeme (l.place.advance gap) (c :: (scan c r).taken)),
      ⟨(l.place.advance gap).advance (c :: (scan c r).taken), (scan c r).rest,
        l.errors ++ ((scan c r).lexeme (l.place.advance gap)
          (c :: (scan c r).taken)).error?.toList⟩) := by
  simp only [next, ht]

theorem readsLiteral (h : Opens kind marks quote)
    (ht : trivia l.rest = (gap, marks ++ quote :: r)) : l.ReadsLiteral gap kind marks quote r := by
  obtain ⟨c, more, hmore⟩ := List.exists_cons_of_ne_nil (List.append_ne_nil_of_right_ne_nil marks
    (List.cons_ne_nil quote r))
  rw [hmore] at ht
  have hnext := next_of_cons ht
  have hscan := scan_opens h hmore
  refine ⟨fun body more hclosed => ?_, fun hopen => ?_, fun more hcarried => ?_, line_cases quote r⟩
  · have hsplit := splitQuoted_quoted hclosed.inside (quote :: more)
    rw [← hclosed.text, splitQuoted_quote h.closes] at hsplit
    rw [hnext, hscan, scanQuoted, hsplit]
    exact ⟨_, rfl, rfl, by simp, rfl⟩
  · obtain ⟨taken, hsplit⟩ := splitQuoted_leftOpen hopen
    rw [hnext, hscan, scanQuoted, hsplit]
    exact ⟨rfl, rfl, rfl⟩
  · obtain ⟨closed, taken, rest, hsplit, -, hrest⟩ := splitQuoted_carried hcarried
    rw [hnext, hscan, scanQuoted, hsplit]
    cases closed <;> exact hrest

end Lexer

/-- **Ordinary literals and their lines.** The ordinary literals among the tokens of a source have
their inside between two quotes, so a newline in one stands behind a backslash. Wherever a call of
the lexer starts at an ordinary literal, it is a token if its quote is closed on the line, and it is
reported and left at the newline if it is not, unless a backslash takes that newline along. -/
theorem literals_lex (source : String) :
    (∀ t ∈ (lex source).tokens, t.IsOrdinary →
      (∃ marks quote body, t.lexeme.toList = marks ++ quote :: (body ++ [quote]) ∧
        Opens t.kind marks quote ∧ Quoted quote body) ∧
      ('\n' ∈ t.lexeme.toList ↔ ['\\', '\n'] <:+: t.lexeme.toList)) ∧
    ∀ (i : Nat) {kind : TokenKind} {gap marks r : List Char} {quote : Char}, Opens kind marks quote →
      trivia ((Lexer.ofSource source).after i).rest = (gap, marks ++ quote :: r) →
        ((Lexer.ofSource source).after i).ReadsLiteral gap kind marks quote r := by
  refine ⟨fun t ht hordinary => ?_, fun i _ _ _ _ _ hopens htrivia => Lexer.readsLiteral hopens htrivia⟩
  obtain ⟨c, r, hscan⟩ := scan_of_mem_lex ht
  obtain ⟨marks, quote, body, hlexeme, hopens, hbody⟩ := quoted_of_scan hscan hordinary
  exact ⟨⟨marks, quote, body, hlexeme, hopens, hbody⟩, newline_mem_iff hlexeme hopens hbody⟩

/-- A string that is left open on the first line. -/
def sampleOpenString : String := "x = \"a\nb;"

theorem sampleOpenString_reported :
    (Lexer.ofSource sampleOpenString).call 2 =
      .lexeme (.invalid ⟨4, 1, 5⟩ ⟨.unterminatedLiteral, .ofPosition ⟨4, 1, 5⟩ 1⟩) ∧
    ((Lexer.ofSource sampleOpenString).after 3).rest = ['\n', 'b', ';'] := by
  have htrivia : trivia ((Lexer.ofSource sampleOpenString).after 2).rest =
      ([' '], [] ++ '"' :: ['a', '\n', 'b', ';']) := by decide +kernel
  have hopen : LeftOpen '"' ['a', '\n', 'b', ';'] := .newline (.plain (by decide) .nil) (by decide) _
  obtain ⟨hlexeme, -, hrest⟩ :=
    ((literals_lex sampleOpenString).2 2 (.string (by simp)) htrivia).leftOpen hopen
  have hplace : ((Lexer.ofSource sampleOpenString).after 2).place.advance [' '] = ⟨4, 1, 5⟩ := by
    decide +kernel
  rw [hplace] at hlexeme
  exact ⟨hlexeme, hrest⟩

/-- A string that a backslash carries on to the next line. -/
theorem carriedString_spansLines :
    ∃ t ∈ (lex "\"a\\\nb\"").tokens, t.IsOrdinary ∧ '\n' ∈ t.lexeme.toList := by
  refine ⟨⟨.stringLiteral, "\"a\\\nb\"", ⟨0, 1, 1⟩, 6⟩, by decide +kernel, ?_⟩
  exact ⟨.inr ⟨rfl, by decide +kernel⟩, by decide +kernel⟩

end ScriptHost
