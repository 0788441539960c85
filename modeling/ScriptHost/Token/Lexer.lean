/-
# From source text to tokens

Between tokens lies trivia: blanks, byte-order marks, line comments and closed block
comments. A token is scanned by its first character, and every scanner says which
characters it takes after that one. A scanner that fails takes characters too: the text
it covers becomes an invalid lexeme with one fault, and lexing goes on behind it.

Key definitions: `LexFault`, `LexError`, `trivia`, `scan`, `Lexeme`, `lex`.
Key theorems: `scan_taken_rest`, `trivia_append`.
-/
import ScriptHost.Source.Letter
import ScriptHost.Token.Basic

namespace ScriptHost

open Source

/-- Why a stretch of text is no token. -/
inductive LexFault where
  | unexpectedChar (c : Char)
  | unterminatedLiteral
  | unterminatedComment
deriving DecidableEq, Repr

/-- A fault and the span it is reported at. -/
structure LexError where
  fault : LexFault
  span : Span
deriving DecidableEq, Repr

/-- The text of a lexical error. -/
def LexError.message (e : LexError) : String :=
  match e.fault with
  | .unexpectedChar c => s!"unexpected character '{c}' at {e.span.text}"
  | .unterminatedLiteral => s!"unterminated literal at {e.span.text}"
  | .unterminatedComment => s!"unterminated comment at {e.span.text}"

/-- What a scan makes of the text it took: a token of a kind with a lexeme, or a fault
reported over the first `length` bytes. -/
inductive Verdict where
  | token (kind : TokenKind) (lexeme : List Char)
  | fault (fault : LexFault) (length : Nat)
deriving DecidableEq, Repr

/-- A scan after its first character: the verdict, the further characters it took, and
what is left. -/
structure Scan where
  verdict : Verdict
  taken : List Char
  rest : List Char
deriving DecidableEq, Repr

/-! ### Trivia -/

/-- A byte-order mark at the front, if there is one, and the blanks behind it. -/
def splitBlanks (cs : List Char) : List Char × List Char :=
  match cs with
  | '\ufeff' :: r => ('\ufeff' :: r.takeWhile isBlank, r.dropWhile isBlank)
  | _ => (cs.takeWhile isBlank, cs.dropWhile isBlank)

/-- The text up to the first `*/`, that mark included, and what follows it; `none` if
the text holds no such mark. -/
def splitBlockComment : List Char → Option (List Char × List Char)
  | [] => none
  | '*' :: '/' :: r => some (['*', '/'], r)
  | c :: r => (splitBlockComment r).map fun p => (c :: p.1, p.2)

/-- A comment at the front of the text and what follows it. A line comment ends before
the newline; a block comment has to be closed. -/
def splitComment (cs : List Char) : Option (List Char × List Char) :=
  match cs with
  | '/' :: '/' :: r => some ('/' :: '/' :: r.takeWhile (· != '\n'), r.dropWhile (· != '\n'))
  | '/' :: '*' :: r => (splitBlockComment r).map fun p => ('/' :: '*' :: p.1, p.2)
  | _ => none

/-- The trivia at the front of the text and what follows it, given as many rounds as the
text may need. -/
def triviaWithin : Nat → List Char → List Char × List Char
  | 0, cs => ([], cs)
  | n + 1, cs =>
    let blanks := splitBlanks cs
    match splitComment blanks.2 with
    | none => blanks
    | some (comment, r) =>
      let more := triviaWithin n r
      (blanks.1 ++ comment ++ more.1, more.2)

/-- The trivia at the front of the text and what follows it. A comment has at least two
characters, so the text has fewer rounds of trivia than characters. -/
def trivia (cs : List Char) : List Char × List Char :=
  triviaWithin (cs.length + 1) cs

/-! ### Literals, numbers and names -/

/-- The inside of a literal that may not span lines, closed by `quote`: a backslash
takes the character after it along, whatever that is. Gives the text up to the closing
quote, that quote included, and the rest, and whether a quote closed it; an open literal
stops before the newline or at the end. -/
def splitQuoted (quote : Char) : List Char → Bool × List Char × List Char
  | [] => (false, [], [])
  | ['\\'] => (false, ['\\'], [])
  | '\\' :: c :: r =>
    match splitQuoted quote r with
    | (closed, taken, rest) => (closed, '\\' :: c :: taken, rest)
  | c :: r =>
    if c = '\n' then (false, [], c :: r)
    else if c = quote then (true, [c], r)
    else
      match splitQuoted quote r with
      | (closed, taken, rest) => (closed, c :: taken, rest)

/-- The inside of a verbatim string: it may span lines, and a quote written twice stays
inside. -/
def splitVerbatim : List Char → Bool × List Char × List Char
  | [] => (false, [], [])
  | ['"'] => (true, ['"'], [])
  | '"' :: c :: r =>
    if c = '"' then
      match splitVerbatim r with
      | (closed, taken, rest) => (closed, '"' :: '"' :: taken, rest)
    else (true, ['"'], c :: r)
  | c :: r =>
    match splitVerbatim r with
    | (closed, taken, rest) => (closed, c :: taken, rest)

/-- The characters of a number after its first digit: letters, digits, underscores, and
points with a digit behind them. -/
def splitNumber : List Char → List Char × List Char
  | '.' :: d :: r =>
    if d.isDigit then
      match splitNumber (d :: r) with
      | (taken, rest) => ('.' :: taken, rest)
    else ([], '.' :: d :: r)
  | c :: r =>
    if c.isAlphanum || c == '_' then
      match splitNumber r with
      | (taken, rest) => (c :: taken, rest)
    else ([], c :: r)
  | [] => ([], [])

/-- A literal with the opening `quote`, of which `lead` was read. -/
def scanQuoted (quote : Char) (kind : TokenKind) (lead seen r : List Char) : Scan :=
  match splitQuoted quote r with
  | (true, taken, rest) => ⟨.token kind (lead ++ taken), seen ++ taken, rest⟩
  | (false, taken, rest) => ⟨.fault .unterminatedLiteral 1, seen ++ taken, rest⟩

/-- A verbatim string of which `lead` was read, its opening quote included. -/
def scanVerbatim (lead seen r : List Char) : Scan :=
  match splitVerbatim r with
  | (true, taken, rest) => ⟨.token .stringLiteral (lead ++ taken), seen ++ taken, rest⟩
  | (false, taken, rest) => ⟨.fault .unterminatedLiteral 2, seen ++ taken, rest⟩

/-- Whether a character marks a string or a name as special: `@` for verbatim, `$` for
interpolated. -/
def isMark (c : Char) : Bool := c == '@' || c == '$'

/-- A string or a name behind marks, of which the first is `c`. With `@` among the marks a
string is verbatim and a name is an identifier whatever word it is; otherwise the
character that should have started one is at fault (`@` itself at the end of the text),
and it is reported at the first mark. -/
def scanMarked (c : Char) (r : List Char) : Scan :=
  let marks := r.takeWhile isMark
  let after := r.dropWhile isMark
  let verbatim := (c :: marks).contains '@'
  match after with
  | [] => ⟨.fault (.unexpectedChar '@') 1, marks, []⟩
  | '"' :: inner =>
    if verbatim then scanVerbatim (c :: marks ++ ['"']) (marks ++ ['"']) inner
    else scanQuoted '"' .stringLiteral (c :: marks ++ ['"']) (marks ++ ['"']) inner
  | d :: _ =>
    if verbatim && isIdentStart d then
      let name := after.takeWhile isIdentContinue
      ⟨.token .identifier name, marks ++ name, after.dropWhile isIdentContinue⟩
    else ⟨.fault (.unexpectedChar d) 1, marks, after⟩

/-- A number that starts with the digit `c`. -/
def scanNumber (c : Char) (r : List Char) : Scan :=
  let more := splitNumber r
  ⟨.token .number (c :: more.1), more.1, more.2⟩

/-- A word that starts with `c`: a keyword or an identifier. -/
def scanWord (c : Char) (r : List Char) : Scan :=
  let more := r.takeWhile isIdentContinue
  let kind := (keyword? (String.ofList (c :: more))).getD .identifier
  ⟨.token kind (c :: more), more, r.dropWhile isIdentContinue⟩

/-! ### Punctuation and operators -/

/-- The kind of a character that is a token by itself. -/
def punctuation? : Char → Option TokenKind
  | '{' => some (.opening .brace)
  | '}' => some (.closing .brace)
  | '(' => some (.opening .paren)
  | ')' => some (.closing .paren)
  | '[' => some (.opening .bracket)
  | ']' => some (.closing .bracket)
  | '<' => some .less
  | '>' => some .greater
  | ',' => some .comma
  | ';' => some .semicolon
  | '.' => some .dot
  | '#' => some .hash
  | ':' => some .colon
  | '=' => some .equal
  | '?' => some .question
  | '/' | '+' | '-' | '*' | '%' | '!' | '&' | '|' | '^' | '~' => some .operator
  | _ => none

/-- The kind of the tokens of two characters; every other operator is one character. -/
def pair? : Char → Char → Option TokenKind
  | ':', ':' => some .operator
  | '=', '>' => some .arrow
  | '=', '=' => some .operator
  | '?', '?' => some .operator
  | '?', '.' => some .operator
  | _, _ => none

/-- Punctuation that starts with `c`: two characters where they are a token together, else
one; a character that starts no token is a fault of its own length. -/
def scanPunctuation (c : Char) (r : List Char) : Scan :=
  let single : Scan :=
    match punctuation? c with
    | some kind => ⟨.token kind [c], [], r⟩
    | none => ⟨.fault (.unexpectedChar c) c.utf8Size, [], r⟩
  match r with
  | [] => single
  | d :: r' =>
    match pair? c d with
    | some kind => ⟨.token kind [c, d], [d], r'⟩
    | none => single

/-- The scan of the token whose first character is `c`. A block comment that reaches here
is not closed, and takes all that is left. -/
def scan (c : Char) (r : List Char) : Scan :=
  if c = '/' ∧ r.head? = some '*' then ⟨.fault .unterminatedComment 2, r, []⟩
  else if c = '"' then scanQuoted '"' .stringLiteral ['"'] [] r
  else if c = '\'' then scanQuoted '\'' .charLiteral ['\''] [] r
  else if isMark c then scanMarked c r
  else if c.isDigit then scanNumber c r
  else if isIdentStart c then scanWord c r
  else scanPunctuation c r

/-! ### The lexemes of a source -/

/-- A stretch of source text between trivia: a token, or text that is none. -/
inductive Lexeme where
  | token (t : Token)
  | invalid (start : Position) (error : LexError)
deriving DecidableEq, Repr

/-- The lexeme of a scan that started at `p` and took the characters `text` in all. -/
def Scan.lexeme (s : Scan) (p : Position) (text : List Char) : Lexeme :=
  match s.verdict with
  | .token kind lexeme => .token ⟨kind, String.ofList lexeme, p, byteLength text⟩
  | .fault fault length => .invalid p ⟨fault, .ofPosition p length⟩

/-- A source read to its end: its lexemes in order, and the place where it ends. -/
structure Lexed where
  lexemes : List Lexeme
  finish : Position
deriving DecidableEq, Repr

namespace Lexed

/-- The tokens, without the text that is none. -/
def tokens (l : Lexed) : List Token :=
  l.lexemes.filterMap fun
    | .token t => some t
    | .invalid _ _ => none

/-- The faults, in the order of the text. -/
def errors (l : Lexed) : List LexError :=
  l.lexemes.filterMap fun
    | .token _ => none
    | .invalid _ e => some e

end Lexed

/-- The lexemes of the text `cs` that starts at `p`, at most as many as given. -/
def lexWithin : Nat → Position → List Char → Lexed
  | 0, p, cs => ⟨[], p.advance cs⟩
  | n + 1, p, cs =>
    let (blank, after) := trivia cs
    let start := p.advance blank
    match after with
    | [] => ⟨[], start⟩
    | c :: r =>
      let s := scan c r
      let text := c :: s.taken
      let more := lexWithin n (start.advance text) s.rest
      ⟨s.lexeme start text :: more.lexemes, more.finish⟩

/-- The lexemes of a source. Each takes a character at least, so there are no more of them
than characters. -/
def lex (source : String) : Lexed :=
  let cs := source.toList
  lexWithin (cs.length + 1) .start cs

/-! ### Nothing is lost -/

theorem splitQuoted_append (quote : Char) (r : List Char) :
    (splitQuoted quote r).2.1 ++ (splitQuoted quote r).2.2 = r := by
  fun_induction splitQuoted quote r <;> simp_all

theorem splitVerbatim_append (r : List Char) :
    (splitVerbatim r).2.1 ++ (splitVerbatim r).2.2 = r := by
  fun_induction splitVerbatim r <;> simp_all

theorem splitNumber_append (r : List Char) : (splitNumber r).1 ++ (splitNumber r).2 = r := by
  fun_induction splitNumber r <;> simp_all

theorem splitBlanks_append (cs : List Char) : (splitBlanks cs).1 ++ (splitBlanks cs).2 = cs := by
  unfold splitBlanks
  split <;> simp

theorem splitBlockComment_append {cs a b : List Char} (h : splitBlockComment cs = some (a, b)) :
    a ++ b = cs := by
  fun_induction splitBlockComment cs generalizing a with
  | case1 => simp at h
  | case2 r =>
    simp only [Option.some.injEq, Prod.mk.injEq] at h
    simp [← h.1, ← h.2]
  | case3 c r _ ih =>
    simp only [Option.map_eq_some_iff, Prod.mk.injEq] at h
    obtain ⟨⟨x, y⟩, hxy, rfl, rfl⟩ := h
    simp [ih hxy]

theorem splitComment_append {cs a b : List Char} (h : splitComment cs = some (a, b)) :
    a ++ b = cs := by
  unfold splitComment at h
  split at h
  · simp only [Option.some.injEq, Prod.mk.injEq] at h
    obtain ⟨rfl, rfl⟩ := h
    simp
  · simp only [Option.map_eq_some_iff, Prod.mk.injEq] at h
    obtain ⟨⟨x, y⟩, hxy, rfl, rfl⟩ := h
    simp [splitBlockComment_append hxy]
  · simp at h

theorem triviaWithin_append (n : Nat) (cs : List Char) :
    (triviaWithin n cs).1 ++ (triviaWithin n cs).2 = cs := by
  induction n generalizing cs with
  | zero => rfl
  | succ n ih =>
    have hb := splitBlanks_append cs
    simp only [triviaWithin]
    split
    · exact hb
    · next a b h =>
      have hc := splitComment_append h
      simp [List.append_assoc, ih, hc, hb]

/-- Trivia and what follows it are the text. -/
theorem trivia_append (cs : List Char) : (trivia cs).1 ++ (trivia cs).2 = cs :=
  triviaWithin_append _ cs

theorem scanQuoted_taken_rest (quote : Char) (kind : TokenKind) (lead seen r : List Char) :
    (scanQuoted quote kind lead seen r).taken ++ (scanQuoted quote kind lead seen r).rest
      = seen ++ r := by
  have h := splitQuoted_append quote r
  unfold scanQuoted
  split <;> simp_all

theorem scanVerbatim_taken_rest (lead seen r : List Char) :
    (scanVerbatim lead seen r).taken ++ (scanVerbatim lead seen r).rest = seen ++ r := by
  have h := splitVerbatim_append r
  unfold scanVerbatim
  split <;> simp_all

theorem scanMarked_taken_rest (c : Char) (r : List Char) :
    (scanMarked c r).taken ++ (scanMarked c r).rest = r := by
  have h := List.takeWhile_append_dropWhile (p := isMark) (l := r)
  unfold scanMarked
  simp only
  split
  · simp_all
  · next inner hi =>
    rw [hi] at h
    split
    · rw [scanVerbatim_taken_rest]; simpa using h
    · rw [scanQuoted_taken_rest]; simpa using h
  · split <;> simp

theorem scanPunctuation_taken_rest (c : Char) (r : List Char) :
    (scanPunctuation c r).taken ++ (scanPunctuation c r).rest = r := by
  unfold scanPunctuation
  cases r with
  | nil => simp only; split <;> rfl
  | cons d t =>
    simp only
    cases pair? c d with
    | some kind => rfl
    | none => cases punctuation? c <;> rfl

/-- A scan loses nothing: what it took and what it left are the text it was given. -/
theorem scan_taken_rest (c : Char) (r : List Char) : (scan c r).taken ++ (scan c r).rest = r := by
  unfold scan
  split
  · simp
  split
  · simpa using scanQuoted_taken_rest '"' .stringLiteral ['"'] [] r
  split
  · simpa using scanQuoted_taken_rest '\'' .charLiteral ['\''] [] r
  split
  · exact scanMarked_taken_rest c r
  split
  · exact splitNumber_append r
  split
  · simp [scanWord]
  · exact scanPunctuation_taken_rest c r

end ScriptHost
