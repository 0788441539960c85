/-
# Reading TOML

Lines are comments, headers, or entries of a dotted key and a value. Strings come in four
forms, basic and literal, on one line or over several; arrays may go over several lines,
inline tables may not. Arrays and inline tables stand in each other to a depth of 79, and
a key has at most 79 parts. Numbers and dates are checked and not told apart, since no
setting is one.

Key definitions: `basicString?`, `literalString?`, `scalar?`, `value?`, `lines?`, `parse?`.
-/
import ScriptHost.Data.Toml.Moment
import ScriptHost.Data.Toml.Table

namespace ScriptHost.Data.Toml

def isBlank (c : Char) : Bool := c == ' ' || c == '\t'

def skipBlanks (cs : List Char) : List Char := cs.dropWhile isBlank

/-- A character that may stand in a comment or a string: no control character but the
tabulator. -/
def isPlain (c : Char) : Bool := c == '\t' || (' ' ≤ c && c != '\x7f')

/-- The text behind a line end. -/
def newline? : List Char → Option (List Char)
  | '\n' :: r => some r
  | '\r' :: '\n' :: r => some r
  | _ => none

/-- The text behind the blanks, the comment and the line end that close a line. -/
def lineEnd? (cs : List Char) : Option (List Char) :=
  let rest :=
    match skipBlanks cs with
    | '#' :: r => r.dropWhile isPlain
    | r => r
  if rest = [] then some [] else newline? rest

/-- The text behind blanks, line ends and comments. A character that no comment may hold
stays in front. -/
def skipLines (inComment : Bool) : List Char → List Char
  | [] => []
  | c :: r =>
    if c = '\n' then skipLines false r
    else if c = '\r' then
      match r with
      | d :: r => if d = '\n' then skipLines false r else c :: d :: r
      | [] => [c]
    else if inComment then if isPlain c then skipLines true r else c :: r
    else if isBlank c then skipLines false r
    else if c = '#' then skipLines true r
    else c :: r

/-- The text behind blanks and line ends. -/
def skipSpace : List Char → List Char
  | [] => []
  | c :: r =>
    if c = '\n' || isBlank c then skipSpace r
    else if c = '\r' then
      match r with
      | d :: r => if d = '\n' then skipSpace r else c :: d :: r
      | [] => [c]
    else c :: r

/-- The character of a code point in hexadecimal digits. -/
def codePoint? (digits : List Char) : Option Char := do
  let n ← digits.foldlM (fun n c => (digit? 16 c).map (n * 16 + ·)) 0
  if n < 0xD800 ∨ (0xE000 ≤ n ∧ n < 0x110000) then pure (Char.ofNat n) else none

/-- The character that is escaped behind a backslash, and the text behind it. -/
def escape? : List Char → Option (Char × List Char)
  | 'b' :: r => some ('\x08', r)
  | 't' :: r => some ('\t', r)
  | 'n' :: r => some ('\n', r)
  | 'f' :: r => some ('\x0c', r)
  | 'r' :: r => some ('\r', r)
  | '"' :: r => some ('"', r)
  | '\\' :: r => some ('\\', r)
  | 'u' :: r =>
    if 4 ≤ r.length then (codePoint? (r.take 4)).map (·, r.drop 4) else none
  | 'U' :: r =>
    if 8 ≤ r.length then (codePoint? (r.take 8)).map (·, r.drop 8) else none
  | _ => none

/-- A basic string of at most `n` pieces whose opening quote was read, and the text behind
its closing quote. -/
def basicWithin : Nat → List Char → Option (List Char × List Char)
  | 0, _ => none
  | _ + 1, [] => none
  | n + 1, c :: r =>
    if c = '"' then some ([], r)
    else if c = '\\' then do
      let (d, r) ← escape? r
      let (text, rest) ← basicWithin n r
      pure (d :: text, rest)
    else if isPlain c then do
      let (text, rest) ← basicWithin n r
      pure (c :: text, rest)
    else none

/-- A basic string whose opening quote was read. -/
def basicString? (cs : List Char) : Option (List Char × List Char) :=
  basicWithin (cs.length + 1) cs

/-- A literal string whose opening quote was read. -/
def literalString? (cs : List Char) : Option (List Char × List Char) :=
  let isInside (c : Char) : Bool := isPlain c && c != '\''
  match cs.dropWhile isInside with
  | '\'' :: rest => some (cs.takeWhile isInside, rest)
  | _ => none

/-- A string over several lines, of at most `n` pieces, whose opening quotes were read. Three
quotes close it, and up to two more in front of them belong to the text. In a basic string
a backslash in front of a line end takes away all space behind it. -/
def multilineWithin (quote : Char) : Nat → List Char → Option (List Char × List Char)
  | 0, _ => none
  | _ + 1, [] => none
  | n + 1, c :: r =>
    if c = quote then
      let quotes := (c :: r).takeWhile (· == quote)
      let rest := (c :: r).dropWhile (· == quote)
      if quotes.length < 3 then do
        let (text, rest) ← multilineWithin quote n rest
        pure (quotes ++ text, rest)
      else if quotes.length < 6 then some (quotes.drop 3, rest)
      else none
    else if c = '\\' ∧ quote = '"' then
      match newline? (skipBlanks r) with
      | some r => multilineWithin quote n (skipSpace r)
      | none => do
        let (d, r) ← escape? r
        let (text, rest) ← multilineWithin quote n r
        pure (d :: text, rest)
    else
      match newline? (c :: r) with
      | some r => do
        let (text, rest) ← multilineWithin quote n r
        pure ('\n' :: text, rest)
      | none =>
        if isPlain c then do
          let (text, rest) ← multilineWithin quote n r
          pure (c :: text, rest)
        else none

/-- A string over several lines whose opening quotes were read; a line end right behind them
does not count. -/
def multilineString? (quote : Char) (cs : List Char) : Option (List Char × List Char) :=
  multilineWithin quote (cs.length + 1) ((newline? cs).getD cs)

def isBareKeyChar (c : Char) : Bool := c.isAlphanum || c == '_' || c == '-'

/-- A key without points, and the text behind it. -/
def simpleKey? : List Char → Option (String × List Char)
  | '"' :: r => (basicString? r).map fun (key, rest) => (String.ofList key, rest)
  | '\'' :: r => (literalString? r).map fun (key, rest) => (String.ofList key, rest)
  | cs =>
    match cs.takeWhile isBareKeyChar with
    | [] => none
    | key => some (String.ofList key, cs.dropWhile isBareKeyChar)

/-- A key of at most `n` parts, with blanks around them, and the text behind it. -/
def keyWithin : Nat → List Char → Option (List String × List Char)
  | 0, _ => none
  | n + 1, cs => do
    let (key, rest) ← simpleKey? (skipBlanks cs)
    match skipBlanks rest with
    | '.' :: r => do
      let (more, rest) ← keyWithin n r
      pure (key :: more, rest)
    | rest => pure ([key], rest)

/-- How deep arrays and inline tables stand in each other, and how many parts a key has, at
most. -/
def maxDepth : Nat := 79

/-- A dotted key. -/
def key? (cs : List Char) : Option (List String × List Char) := keyWithin maxDepth cs

/-- A character of a number or a date. -/
def isScalarChar (c : Char) : Bool :=
  c.isAlphanum || c == '+' || c == '-' || c == '_' || c == '.' || c == ':'

/-- A number, a date or a time, and the text behind it. A time may also stand a blank behind
its date. -/
def scalar? (cs : List Char) : Option (Value × List Char) :=
  let word := cs.takeWhile isScalarChar
  let rest := cs.dropWhile isScalarChar
  if isInteger word || isFloat word || isTime word then some (.other, rest)
  else do
    match ← afterDate? word with
    | [] =>
      match rest with
      | ' ' :: r =>
        let time := r.takeWhile isScalarChar
        if time = [] then some (.other, rest)
        else if isTimeOfDate time then some (.other, r.dropWhile isScalarChar)
        else none
      | rest => some (.other, rest)
    | mark :: time =>
      if (mark = 'T' ∨ mark = 't') ∧ isTimeOfDate time then some (.other, rest) else none

mutual
/-- The value in front, in at most `n` steps and at most `depth` deep, and the text behind
it. -/
def valueWithin (depth : Nat) : Nat → List Char → Option (Value × List Char)
  | 0, _ => none
  | n + 1, cs =>
    match cs with
    | '"' :: '"' :: '"' :: r =>
      (multilineString? '"' r).map fun (s, rest) => (.text (String.ofList s), rest)
    | '\'' :: '\'' :: '\'' :: r =>
      (multilineString? '\'' r).map fun (s, rest) => (.text (String.ofList s), rest)
    | '"' :: r => (basicString? r).map fun (s, rest) => (.text (String.ofList s), rest)
    | '\'' :: r => (literalString? r).map fun (s, rest) => (.text (String.ofList s), rest)
    | '[' :: r =>
      match depth with
      | 0 => none
      | depth + 1 => do
        let (items, rest) ← itemsWithin depth n (skipLines false r)
        pure (.list items, rest)
    | '\x7b' :: r =>
      match depth, skipBlanks r with
      | 0, _ => none
      | _ + 1, '\x7d' :: rest => some (.table [], rest)
      | depth + 1, r => do
        let (values, rest) ← pairsWithin depth n r
        let entries ← Entries.insertAll? [] values
        pure (.table (entryValues entries), rest)
    | 't' :: 'r' :: 'u' :: 'e' :: rest => some (.bool true, rest)
    | 'f' :: 'a' :: 'l' :: 's' :: 'e' :: rest => some (.bool false, rest)
    | cs => scalar? cs

/-- The items of an array up to its closing bracket; a comma may stand behind the last. -/
def itemsWithin (depth : Nat) : Nat → List Char → Option (List Value × List Char)
  | 0, _ => none
  | n + 1, cs =>
    match cs with
    | ']' :: rest => some ([], rest)
    | cs => do
      let (v, rest) ← valueWithin depth n cs
      match skipLines false rest with
      | ']' :: rest => pure ([v], rest)
      | ',' :: r =>
        let (more, rest) ← itemsWithin depth n (skipLines false r)
        pure (v :: more, rest)
      | _ => none

/-- The entries of an inline table up to its closing brace. -/
def pairsWithin (depth : Nat) :
    Nat → List Char → Option (List (List String × Value) × List Char)
  | 0, _ => none
  | n + 1, cs => do
    let (key, rest) ← key? cs
    match rest with
    | '=' :: r =>
      let (v, rest) ← valueWithin depth n (skipBlanks r)
      match skipBlanks rest with
      | '\x7d' :: rest => pure ([(key, v)], rest)
      | ',' :: r =>
        let (more, rest) ← pairsWithin depth n r
        pure ((key, v) :: more, rest)
      | _ => none
    | _ => none
end

/-- The value in front. Of two steps at least one takes a character. -/
def value? (cs : List Char) : Option (Value × List Char) :=
  valueWithin maxDepth (2 * cs.length + 2) cs

/-- A line of a document that says something. -/
inductive Line where
  | header (path : List String) (isItem : Bool)
  | entry (path : List String) (v : Value)
deriving Repr

/-- A header whose opening bracket was read, and the text behind its line. -/
def header? (cs : List Char) : Option (Line × List Char) :=
  match cs with
  | '[' :: r => do
    let (path, rest) ← key? r
    match rest with
    | ']' :: ']' :: rest => (lineEnd? rest).map (.header path true, ·)
    | _ => none
  | r => do
    let (path, rest) ← key? r
    match rest with
    | ']' :: rest => (lineEnd? rest).map (.header path false, ·)
    | _ => none

/-- An entry, and the text behind its line. -/
def entry? (cs : List Char) : Option (Line × List Char) := do
  let (path, rest) ← key? cs
  match rest with
  | '=' :: r =>
    let (v, rest) ← value? (skipBlanks r)
    (lineEnd? rest).map (.entry path v, ·)
  | _ => none

/-- The lines of a text, at most `n`. -/
def linesWithin : Nat → List Char → Option (List Line)
  | 0, _ => none
  | n + 1, cs =>
    match skipBlanks cs with
    | [] => some []
    | c :: r =>
      if c = '#' ∨ c = '\n' ∨ c = '\r' then (lineEnd? (c :: r)).bind (linesWithin n)
      else do
        let (line, rest) ← if c = '[' then header? r else entry? (c :: r)
        let more ← linesWithin n rest
        pure (line :: more)

/-- The lines of a text; every line takes a character. -/
def lines? (cs : List Char) : Option (List Line) := linesWithin (cs.length + 1) cs

/-- The values in front of the first header, and the sections. -/
def sections : List Line → List (List String × Value) × List Section
  | [] => ([], [])
  | .entry path v :: more =>
    match sections more with
    | (values, rest) => ((path, v) :: values, rest)
  | .header path isItem :: more =>
    match sections more with
    | (values, rest) => ([], ⟨path, isItem, values⟩ :: rest)

/-- The table that a document spells; a byte order mark in front does not count. -/
def parse? (text : String) : Option Value := do
  let cs :=
    match text.toList with
    | '\ufeff' :: r => r
    | cs => cs
  let (values, rest) := sections (← lines? cs)
  let entries ← Entries.ofSections? values rest
  pure (.table (entryValues entries))

/-- What TOML leaves open: an empty table or array stands beside the name of a choice, and
an array of a record's fields may go on; entries that nobody knows are refused. -/
def format : Format where
  isEmptyChoice
    | .list [] => true
    | .table [] => true
    | _ => false
  passesOverItems := true
  passesOverEntries := false

end ScriptHost.Data.Toml
