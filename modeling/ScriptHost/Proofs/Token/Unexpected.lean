/-
# Unexpected characters

A character that starts no token is reported where it stands. Marks are passed over first: where
neither a string nor a name follows them, what is named is the character behind the marks, or `@` at
the end of the text, but the report stands at the first of the marks. So a report names the character
that it stands at unless that is a mark, and there it does only where it is `@` and nothing but marks
is left.

Key definitions: `Source.Span.char?`, `StartsNothing`, `Unexpected`, `LexError.StandsAt`.
Key theorems: `Source.Span.char?_ofPosition`, `scan_unexpected_iff`, `Unexpected.head_iff`,
`scan_of_mem_errors`, `standsAt_lex`.
-/
import ScriptHost.Proofs.Reading.Ranges
import ScriptHost.Proofs.Token.Stepwise
import ScriptHost.Proofs.Token.Trivia

namespace ScriptHost

open Source

variable {source : String} {before text marks after more r : List Char} {c ch : Char} {length : Nat}

/-! ### Characters and places -/

/-- The character of a source at the line and the column of a span. -/
def Source.Span.char? (source : String) (s : Span) : Option Char :=
  (byteAt? s.line s.column .start source.toList).bind fun start =>
    (dropBytes start source.toList).bind List.head?

/-- **The character at the place behind a text is the first of what follows.** -/
theorem Source.Span.char?_ofPosition (h : source.toList = before ++ text) (length : Nat) :
    (Span.ofPosition (placeBehind before) length).char? source = text.head? := by
  have hat := byteAt?_advance before text .start
  rw [offset_advance_start, advance_start, ← h] at hat
  have hdrop : dropBytes (byteLength before) source.toList = some text := by
    rw [h]
    exact dropBytes_append before text
  unfold char?
  show (byteAt? (placeBehind before).line (placeBehind before).column .start source.toList).bind _ = _
  rw [hat, Option.bind_some, hdrop, Option.bind_some]

/-! ### What is reported -/

/-- The character starts no token: it is no quote and no mark, no digit and no letter of a name, and
no punctuation. -/
structure StartsNothing (ch : Char) : Prop where
  string : ch ≠ '"'
  char : ch ≠ '\''
  mark : isMark ch = false
  digit : ch.isDigit = false
  name : isIdentStart ch = false
  punctuation : punctuation? ch = none

/-- Where a text starts, `ch` is reported over so many bytes: it stands there and starts no token, or
marks stand there without a string or a name behind them, and `ch` is what is behind them. -/
inductive Unexpected (ch : Char) : List Char → Nat → Prop
  | alone (nothing : StartsNothing ch) (more : List Char) : Unexpected ch (ch :: more) ch.utf8Size
  | marked {marks after : List Char} (nonempty : marks ≠ []) (all : ∀ m ∈ marks, isMark m)
    (ends : ∀ d ∈ after.head?, isMark d = false) (string : after.head? ≠ some '"')
    (name : '@' ∈ marks → ∀ d ∈ after.head?, isIdentStart d = false)
    (named : ch = after.head?.getD '@') : Unexpected ch (marks ++ after) 1

/-! ### What is scanned -/

/-- What is no punctuation by itself does not start a token of two characters. -/
theorem pair?_of_unpunctuated (h : punctuation? c = none) (d : Char) : pair? c d = none := by
  unfold pair?
  split
  all_goals first | rfl | exact absurd h (by decide)

/-- What is no punctuation is reported over its own bytes. -/
theorem scanPunctuation_of_none (h : punctuation? c = none) (r : List Char) :
    scanPunctuation c r = ⟨.fault (.unexpectedChar c) c.utf8Size, [], r⟩ := by
  cases r with
  | nil => simp only [scanPunctuation, h]
  | cons d r => simp only [scanPunctuation, h, pair?_of_unpunctuated h]

/-- What is punctuation is a token, with the character behind it or without. -/
theorem scanPunctuation_of_some {kind : TokenKind} (h : punctuation? c = some kind) (r : List Char) :
    ∃ kind lexeme, (scanPunctuation c r).verdict = .token kind lexeme := by
  simp only [scanPunctuation, h]
  split
  · exact ⟨_, _, rfl⟩
  · split <;> exact ⟨_, _, rfl⟩

theorem scanPunctuation_unexpected_iff :
    (scanPunctuation c r).verdict = .fault (.unexpectedChar ch) length ↔
      punctuation? c = none ∧ ch = c ∧ length = c.utf8Size := by
  cases hkind : punctuation? c with
  | none =>
    rw [scanPunctuation_of_none hkind]
    constructor
    · intro h
      cases h
      exact ⟨rfl, rfl, rfl⟩
    · rintro ⟨-, rfl, rfl⟩
      rfl
  | some kind =>
    obtain ⟨kind', lexeme, htoken⟩ := scanPunctuation_of_some hkind r
    rw [htoken]
    constructor
    · intro h
      cases h
    · rintro ⟨hnone, -⟩
      cases hnone

theorem scanQuoted_ne_unexpected {quote : Char} {kind : TokenKind} {lead seen : List Char} :
    (scanQuoted quote kind lead seen r).verdict ≠ .fault (.unexpectedChar ch) length := by
  intro h
  unfold scanQuoted at h
  split at h <;> cases h

theorem scanVerbatim_ne_unexpected {lead seen : List Char} :
    (scanVerbatim lead seen r).verdict ≠ .fault (.unexpectedChar ch) length := by
  intro h
  unfold scanVerbatim at h
  split at h <;> cases h

/-- **Behind marks** a quote opens a string, and the start of a name is one behind an `@`; anything
else is named, at the end of the text `@`. -/
theorem scanMarked_unexpected_iff (hmarks : ∀ m ∈ marks, isMark m)
    (hends : ∀ d ∈ after.head?, isMark d = false) :
    (scanMarked c (marks ++ after)).verdict = .fault (.unexpectedChar ch) length ↔
      after.head? ≠ some '"' ∧ ('@' ∈ c :: marks → ∀ d ∈ after.head?, isIdentStart d = false) ∧
        ch = after.head?.getD '@' ∧ length = 1 := by
  obtain ⟨htake, hdrop⟩ := while_exact hmarks hends
  simp only [scanMarked, htake, hdrop]
  split
  · constructor
    · intro h
      cases h
      exact ⟨by simp, by simp, rfl, rfl⟩
    · rintro ⟨-, -, rfl, rfl⟩
      rfl
  next inner =>
    refine ⟨fun h => ?_, fun h => absurd rfl h.1⟩
    split at h
    · exact absurd h scanVerbatim_ne_unexpected
    · exact absurd h scanQuoted_ne_unexpected
  next d rest hquote =>
    split
    next hname =>
      obtain ⟨hat, hstart⟩ := Bool.and_eq_true_iff.mp hname
      constructor
      · intro h
        cases h
      · rintro ⟨-, hplain, -⟩
        have hnot := hplain (List.contains_iff_mem.mp hat) d rfl
        exact absurd (hstart.symm.trans hnot) Bool.noConfusion
    next hname =>
      have hplain : '@' ∈ c :: marks → ∀ e ∈ (d :: rest).head?, isIdentStart e = false := by
        rintro hat e he
        obtain rfl := Option.some.inj he
        rw [List.contains_iff_mem.mpr hat, Bool.true_and] at hname
        exact Bool.eq_false_iff.mpr hname
      constructor
      · intro h
        cases h
        exact ⟨fun heq => hquote (Option.some.inj heq), hplain, rfl, rfl⟩
      · rintro ⟨-, -, rfl, rfl⟩
        rfl

/-- The marks that a text starts with are one run, up to what is none. -/
theorem unexpected_of_scanMarked (hmark : isMark c)
    (h : (scanMarked c r).verdict = .fault (.unexpectedChar ch) length) :
    Unexpected ch (c :: r) length := by
  have hmarks : ∀ m ∈ r.takeWhile isMark, isMark m := List.all_eq_true.mp List.all_takeWhile
  have hends : ∀ d ∈ (r.dropWhile isMark).head?, isMark d = false := by
    intro d hd
    have hnot := List.head?_dropWhile_not isMark r
    rw [hd] at hnot
    simpa using hnot
  rw [← List.takeWhile_append_dropWhile (p := isMark) (l := r),
    scanMarked_unexpected_iff hmarks hends] at h
  obtain ⟨hquote, hname, hnamed, rfl⟩ := h
  have hmarked := Unexpected.marked (List.cons_ne_nil c _)
    (List.forall_mem_cons.mpr ⟨hmark, hmarks⟩) hends hquote hname hnamed
  rwa [List.cons_append, List.takeWhile_append_dropWhile] at hmarked

theorem ne_of_isMark {d : Char} (hc : isMark c) (hd : isMark d = false) : c ≠ d := by
  rintro rfl
  exact absurd (hc.symm.trans hd) Bool.noConfusion

theorem scan_of_isMark (h : isMark c) (r : List Char) : scan c r = scanMarked c r := by
  have hslash : c ≠ '/' := ne_of_isMark h (by decide)
  have hstring : c ≠ '"' := ne_of_isMark h (by decide)
  have hchar : c ≠ '\'' := ne_of_isMark h (by decide)
  unfold scan
  rw [if_neg fun hcomment => hslash hcomment.1, if_neg hstring, if_neg hchar, if_pos h]

theorem scan_of_startsNothing (h : StartsNothing c) (r : List Char) :
    scan c r = ⟨.fault (.unexpectedChar c) c.utf8Size, [], r⟩ := by
  have hslash : c ≠ '/' := by
    rintro rfl
    exact absurd h.punctuation (by decide)
  unfold scan
  rw [if_neg fun hcomment => hslash hcomment.1, if_neg h.string, if_neg h.char,
    if_neg (Bool.eq_false_iff.mp h.mark), if_neg (Bool.eq_false_iff.mp h.digit),
    if_neg (Bool.eq_false_iff.mp h.name), scanPunctuation_of_none h.punctuation]

/-- **What is reported where**: a character is named over so many bytes at the front of a text exactly
if it is unexpected there. -/
theorem scan_unexpected_iff :
    (scan c r).verdict = .fault (.unexpectedChar ch) length ↔ Unexpected ch (c :: r) length := by
  constructor
  · intro h
    unfold scan at h
    split at h
    · cases h
    split at h
    · exact absurd h scanQuoted_ne_unexpected
    next hstring =>
    split at h
    · exact absurd h scanQuoted_ne_unexpected
    next hchar =>
    split at h
    · next hmark => exact unexpected_of_scanMarked hmark h
    next hmark =>
    split at h
    · cases h
    next hdigit =>
    split at h
    · cases h
    next hstart =>
    obtain ⟨hpunctuation, rfl, rfl⟩ := scanPunctuation_unexpected_iff.mp h
    exact .alone ⟨hstring, hchar, Bool.eq_false_iff.mpr hmark, Bool.eq_false_iff.mpr hdigit,
      Bool.eq_false_iff.mpr hstart, hpunctuation⟩ r
  · intro h
    generalize htext : c :: r = text at h
    cases h with
    | alone nothing more =>
      obtain ⟨rfl, rfl⟩ := List.cons.inj htext
      rw [scan_of_startsNothing nothing]
    | @marked marks after nonempty all ends string name named =>
      obtain ⟨m, marks, rfl⟩ := List.exists_cons_of_ne_nil nonempty
      obtain ⟨rfl, rfl⟩ := List.cons.inj htext
      obtain ⟨hmark, hmarks⟩ := List.forall_mem_cons.mp all
      rw [scan_of_isMark hmark]
      exact (scanMarked_unexpected_iff hmarks ends).mpr ⟨string, name, named, rfl⟩

/-! ### What a report names -/

namespace Unexpected

/-- The named character is the first behind the marks, and `@` at the end of the text. -/
theorem named_behind (h : Unexpected ch text length) :
    (text.dropWhile isMark).head?.getD '@' = ch := by
  cases h with
  | alone nothing more =>
    rw [List.dropWhile_cons_of_neg (Bool.eq_false_iff.mp nothing.mark)]
    rfl
  | marked nonempty all ends string name named =>
    rw [(while_exact all ends).2, named]

/-- The character that the report stands at is the one it names unless it is a mark, and a mark is
only where it is `@` and nothing else than marks is left. -/
theorem head_iff (h : Unexpected ch (c :: more) length) :
    c = ch ↔ isMark c = false ∨ c = '@' ∧ ∀ m ∈ more, isMark m := by
  generalize htext : c :: more = text at h
  cases h with
  | alone nothing more =>
    obtain ⟨rfl, rfl⟩ := List.cons.inj htext
    exact ⟨fun _ => .inl nothing.mark, fun _ => rfl⟩
  | @marked marks after nonempty all ends string name named =>
    obtain ⟨m, marks, rfl⟩ := List.exists_cons_of_ne_nil nonempty
    obtain ⟨rfl, rfl⟩ := List.cons.inj htext
    obtain ⟨hmark, hmarks⟩ := List.forall_mem_cons.mp all
    rw [hmark]
    cases after with
    | nil => simpa [named] using fun _ => hmarks
    | cons d rest =>
      have hd : isMark d = false := ends d rfl
      constructor
      · exact fun heq => absurd (heq.trans named) (ne_of_isMark hmark hd)
      · rintro (hnot | ⟨-, hall⟩)
        · exact absurd hnot Bool.noConfusion
        · exact absurd (hd.symm.trans (hall d (by simp))) Bool.noConfusion

end Unexpected

/-- **Every fault of a text comes from a scan at its place**, by induction on the rounds. -/
theorem scan_of_mem_errors : ∀ (n : Nat) (before cs : List Char),
    ∀ e ∈ (lexWithin n (placeBehind before) cs).errors,
      ∃ front c r length, cs = front ++ c :: r ∧ (scan c r).verdict = .fault e.fault length ∧
        e.span = .ofPosition (placeBehind (before ++ front)) length
  | 0, before, cs, e, he => by simp [lexWithin, Lexed.errors] at he
  | n + 1, before, cs, e, he => by
    have htrivia := trivia_append cs
    unfold lexWithin at he
    split at he
    next gap after hta =>
    rw [hta] at htrivia
    split at he
    · simp [Lexed.errors] at he
    next c r =>
      have hscan := scan_taken_rest c r
      simp only [advance_placeBehind] at he
      have hsplit : (∃ length, (scan c r).verdict = .fault e.fault length ∧
          e.span = .ofPosition (placeBehind (before ++ gap)) length) ∨
          e ∈ (lexWithin n (placeBehind (before ++ gap ++ (c :: (scan c r).taken)))
            (scan c r).rest).errors := by
        cases hv : (scan c r).verdict with
        | token kind lexeme =>
          simp only [Lexed.errors, Scan.lexeme, hv, List.filterMap_cons] at he
          exact .inr he
        | fault fault length =>
          simp only [Lexed.errors, Scan.lexeme, hv, List.filterMap_cons, List.mem_cons] at he
          rcases he with rfl | hlater
          · exact .inl ⟨length, rfl, rfl⟩
          · exact .inr hlater
      rcases hsplit with ⟨length, hverdict, hspan⟩ | hlater
      · exact ⟨gap, c, r, length, htrivia.symm, hverdict, hspan⟩
      · obtain ⟨front, c', r', length, hrest, hverdict, hspan⟩ := scan_of_mem_errors n _ _ e hlater
        refine ⟨gap ++ (c :: (scan c r).taken) ++ front, c', r', length, ?_, hverdict, ?_⟩
        · calc cs = gap ++ (c :: ((scan c r).taken ++ (scan c r).rest)) := by rw [hscan, htrivia]
            _ = gap ++ (c :: (scan c r).taken) ++ front ++ c' :: r' := by rw [hrest]; simp
        · rw [hspan]
          simp only [List.append_assoc]

/-- The report of an unexpected `ch` in a source stands at the character `c` behind `before`. -/
structure LexError.StandsAt (source : String) (ch : Char) (before : List Char) (c : Char)
    (more : List Char) (e : LexError) : Prop where
  split : source.toList = before ++ c :: more
  span : e.span = .ofPosition (placeBehind before) e.span.length
  pointed : e.span.char? source = some c
  unexpected : Unexpected ch (c :: more) e.span.length
  /-- The character that is named stands behind the marks, and at the end of the text it is `@`. -/
  named : ((Span.ofPosition (placeBehind (before ++ (c :: more).takeWhile isMark)) ch.utf8Size).char?
    source).getD '@' = ch
  /-- It is the one that the report stands at unless this is a mark, and a mark is only where it is `@`
  and nothing else than marks is left. -/
  names : e.span.char? source = some ch ↔ isMark c = false ∨ c = '@' ∧ ∀ m ∈ more, isMark m

/-- **Every report of an unexpected character stands at one that is unexpected**, and names it unless
it is a mark. -/
theorem standsAt_lex {source : String} {e : LexError} {ch : Char} (he : e ∈ (lex source).errors)
    (hfault : e.fault = .unexpectedChar ch) : ∃ before c more, e.StandsAt source ch before c more := by
  obtain ⟨before, c, more, length, hsource, hverdict, hspan⟩ :=
    scan_of_mem_errors _ [] source.toList e he
  rw [List.nil_append] at hspan
  rw [hfault] at hverdict
  have hunexpected := scan_unexpected_iff.mp hverdict
  have hpointed : e.span.char? source = some c := by
    rw [hspan, Span.char?_ofPosition hsource]
    rfl
  have hlength : e.span.length = length := by
    rw [hspan]
    rfl
  have hbehind : source.toList =
      before ++ (c :: more).takeWhile isMark ++ (c :: more).dropWhile isMark := by
    rw [List.append_assoc, List.takeWhile_append_dropWhile, hsource]
  refine ⟨before, c, more, hsource, by rw [hlength, hspan], hpointed, by rwa [hlength], ?_, ?_⟩
  · rw [Span.char?_ofPosition hbehind]
    exact hunexpected.named_behind
  · rw [hpointed, Option.some_inj]
    exact hunexpected.head_iff

/-- A statement with a character of three bytes that starts no token. -/
def sampleCurrency : String := "x = €;"

theorem sampleCurrency_reported :
    ⟨.unexpectedChar '€', ⟨1, 5, 3⟩⟩ ∈ (lex sampleCurrency).errors ∧
      ∃ before c more, LexError.StandsAt sampleCurrency '€' before c more
        ⟨.unexpectedChar '€', ⟨1, 5, 3⟩⟩ := by
  have hreport : ⟨.unexpectedChar '€', ⟨1, 5, 3⟩⟩ ∈ (lex sampleCurrency).errors := by decide +kernel
  exact ⟨hreport, standsAt_lex hreport rfl⟩

/-- The report of a name behind `$` names the first letter and stands at the mark. -/
theorem markedName_misreported : ∃ e ∈ (lex "$x").errors, ∃ ch, e.fault = .unexpectedChar ch ∧
    e.span.char? "$x" = some '$' ∧ e.span.char? "$x" ≠ some ch :=
  ⟨⟨.unexpectedChar 'x', ⟨1, 1, 1⟩⟩, by decide +kernel, 'x', rfl, by decide +kernel,
    by decide +kernel⟩

end ScriptHost
