/-
# Reading JSON

The grammar is the standard one, over bytes: four kinds of blank, no comma behind the last
item, numbers without leading zeros, no control character inside quotes, and nothing but
blanks behind the value. Whether the contents of quotes are text is a second question: a
string with half of a surrogate pair, or with bytes that are not UTF-8, is read as a value
that is no text.

Key definitions: `StringPiece`, `scanString`, `piecesText?`, `parse?`.
-/
import ScriptHost.Bytes.Word
import ScriptHost.Data.Value

namespace ScriptHost.Data.Json

/-- What a string holds between its quotes: a byte, or a unit written as an escape. -/
inductive StringPiece where
  | byte (b : UInt8)
  | unit (n : Nat)
deriving DecidableEq, Repr

/-- The byte of an ASCII character. -/
def ascii (c : Char) : UInt8 := UInt8.ofNat c.toNat

def isBlank (b : UInt8) : Bool :=
  b == ascii ' ' || b == ascii '\n' || b == ascii '\r' || b == ascii '\t'

def isDigit (b : UInt8) : Bool := ascii '0' ≤ b && b ≤ ascii '9'

/-- The bytes behind leading blanks. -/
def skipBlanks (bs : Bytes) : Bytes := bs.dropWhile isBlank

/-- The bytes behind a word that stands in front. -/
def afterWord? (word : List Char) (bs : Bytes) : Option Bytes :=
  let w := word.map ascii
  if w.isPrefixOf bs then some (bs.drop w.length) else none

/-- The value of a hexadecimal digit, of either case. -/
def hexValue? (b : UInt8) : Option Nat :=
  if isDigit b then some (b.toNat - 48)
  else if ascii 'a' ≤ b ∧ b ≤ ascii 'f' then some (b.toNat - 87)
  else if ascii 'A' ≤ b ∧ b ≤ ascii 'F' then some (b.toNat - 55)
  else none

/-- The number that four hexadecimal digits stand for. -/
def hexUnit? (a b c d : UInt8) : Option Nat := do
  let a ← hexValue? a
  let b ← hexValue? b
  let c ← hexValue? c
  let d ← hexValue? d
  pure (((a * 16 + b) * 16 + c) * 16 + d)

/-- The byte that a letter behind a backslash stands for. -/
def unescape? (b : UInt8) : Option UInt8 :=
  if b = ascii '"' ∨ b = ascii '\\' ∨ b = ascii '/' then some b
  else if b = ascii 'b' then some 8
  else if b = ascii 'f' then some 12
  else if b = ascii 'n' then some 10
  else if b = ascii 'r' then some 13
  else if b = ascii 't' then some 9
  else none

/-- The pieces of a string whose opening quote was read, and the bytes behind its closing
quote. -/
def scanString : Bytes → Option (List StringPiece × Bytes)
  | [] => none
  | b :: r =>
    if b = ascii '"' then some ([], r)
    else if b = ascii '\\' then
      match r with
      | [] => none
      | e :: r =>
        if e = ascii 'u' then
          match r with
          | h0 :: h1 :: h2 :: h3 :: r => do
            let n ← hexUnit? h0 h1 h2 h3
            let (pieces, rest) ← scanString r
            pure (.unit n :: pieces, rest)
          | _ => none
        else do
          let b ← unescape? e
          let (pieces, rest) ← scanString r
          pure (.byte b :: pieces, rest)
    else if b < 32 then none
    else do
      let (pieces, rest) ← scanString r
      pure (.byte b :: pieces, rest)

/-- The bytes that pieces stand for; two units that are the halves of a pair stand for one
character, and no other half stands for anything. -/
def piecesBytes? : List StringPiece → Option Bytes
  | [] => some []
  | .byte b :: more => (piecesBytes? more).map (b :: ·)
  | .unit high :: more =>
    if high < 0xD800 ∨ 0xE000 ≤ high then
      (piecesBytes? more).map (String.utf8EncodeChar (Char.ofNat high) ++ ·)
    else
      match more with
      | .unit low :: more =>
        if high < 0xDC00 ∧ 0xDC00 ≤ low ∧ low < 0xE000 then
          let code := 0x10000 + (high - 0xD800) * 0x400 + (low - 0xDC00)
          (piecesBytes? more).map (String.utf8EncodeChar (Char.ofNat code) ++ ·)
        else none
      | _ => none

/-- The text that pieces stand for, if they stand for one. -/
def piecesText? (pieces : List StringPiece) : Option String :=
  (piecesBytes? pieces).bind Utf8.string?

/-- The digits in front, and the bytes behind them. -/
def digits (bs : Bytes) : Bytes × Bytes := (bs.takeWhile isDigit, bs.dropWhile isDigit)

/-- The number that digits stand for. -/
def digitsValue (ds : Bytes) : Nat := ds.foldl (fun n d => n * 10 + (d.toNat - 48)) 0

/-- The bytes behind the digits of a whole number, and those digits. -/
def wholeNumber? (bs : Bytes) : Option (Bytes × Bytes) :=
  match digits bs with
  | ([], _) => none
  | (first :: more, rest) =>
    if first = ascii '0' ∧ more ≠ [] then none else some (first :: more, rest)

/-- The bytes behind a fraction, if one stands in front, and whether it does. -/
def fraction? (bs : Bytes) : Option (Bool × Bytes) :=
  match bs with
  | [] => some (false, [])
  | b :: r =>
    if b = ascii '.' then
      match digits r with
      | ([], _) => none
      | (_, rest) => some (true, rest)
    else some (false, bs)

/-- The bytes behind an exponent, if one stands in front, and whether it does. -/
def exponent? (bs : Bytes) : Option (Bool × Bytes) :=
  match bs with
  | [] => some (false, [])
  | b :: r =>
    if b = ascii 'e' ∨ b = ascii 'E' then
      let unsigned :=
        match r with
        | s :: r => if s = ascii '+' ∨ s = ascii '-' then r else s :: r
        | [] => []
      match digits unsigned with
      | ([], _) => none
      | (_, rest) => some (true, rest)
    else some (false, bs)

/-- The number in front, and the bytes behind it. -/
def number? (bs : Bytes) : Option (Value × Bytes) := do
  let (negative, unsigned) :=
    match bs with
    | b :: r => if b = ascii '-' then (true, r) else (false, b :: r)
    | [] => (false, [])
  let (ds, rest) ← wholeNumber? unsigned
  let (hasFraction, rest) ← fraction? rest
  let (hasExponent, rest) ← exponent? rest
  pure (if negative || hasFraction || hasExponent then .other else .natural (digitsValue ds), rest)

/-- A string whose opening quote was read, as text if it is one. -/
def string? (bs : Bytes) : Option (Option String × Bytes) :=
  (scanString bs).map fun (pieces, rest) => (piecesText? pieces, rest)

mutual
/-- The value in front, in at most `n` steps, and the bytes behind it. -/
def valueWithin : Nat → Bytes → Option (Value × Bytes)
  | 0, _ => none
  | n + 1, bs =>
    match bs with
    | [] => none
    | b :: r =>
      if b = ascii '"' then do
        let (s, rest) ← string? r
        pure (match s with | some s => .text s | none => .other, rest)
      else if b = ascii '[' then
        match skipBlanks r with
        | [] => none
        | c :: rest =>
          if c = ascii ']' then some (.list [], rest)
          else do
            let (items, rest) ← itemsWithin n (c :: rest)
            pure (.list items, rest)
      else if b = ascii '\x7b' then
        match skipBlanks r with
        | [] => none
        | c :: rest =>
          if c = ascii '\x7d' then some (.table [], rest)
          else do
            let (entries, rest) ← entriesWithin n (c :: rest)
            pure (.table entries, rest)
      else if b = ascii 't' then (afterWord? ['r', 'u', 'e'] r).map (.bool true, ·)
      else if b = ascii 'f' then (afterWord? ['a', 'l', 's', 'e'] r).map (.bool false, ·)
      else if b = ascii 'n' then (afterWord? ['u', 'l', 'l'] r).map (.null, ·)
      else number? (b :: r)

/-- The items of a list up to its closing bracket. -/
def itemsWithin : Nat → Bytes → Option (List Value × Bytes)
  | 0, _ => none
  | n + 1, bs => do
    let (v, rest) ← valueWithin n bs
    match skipBlanks rest with
    | [] => none
    | b :: rest =>
      if b = ascii ']' then pure ([v], rest)
      else if b = ascii ',' then
        let (more, rest) ← itemsWithin n (skipBlanks rest)
        pure (v :: more, rest)
      else none

/-- The entries of a table up to its closing brace. -/
def entriesWithin : Nat → Bytes → Option (List (Option String × Value) × Bytes)
  | 0, _ => none
  | n + 1, bs => do
    let rest ← afterWord? ['"'] bs
    let (name, rest) ← string? rest
    let rest ← afterWord? [':'] (skipBlanks rest)
    let (v, rest) ← valueWithin n (skipBlanks rest)
    match skipBlanks rest with
    | [] => none
    | b :: rest =>
      if b = ascii '\x7d' then pure ([(name, v)], rest)
      else if b = ascii ',' then
        let (more, rest) ← entriesWithin n (skipBlanks rest)
        pure ((name, v) :: more, rest)
      else none
end

/-- The value that the bytes spell. Of two steps at least one takes a byte, so there are no
more than twice as many steps as bytes. -/
def parse? (bs : Bytes) : Option Value := do
  let (v, rest) ← valueWithin (2 * bs.length + 2) (skipBlanks bs)
  if skipBlanks rest = [] then pure v else none

/-- What JSON leaves open: `null` stands beside the name of a choice, and a list holds the
fields of a record and no more. -/
def format (passesOverEntries : Bool) : Format where
  isEmptyChoice
    | .null => true
    | _ => false
  passesOverItems := false
  passesOverEntries := passesOverEntries

end ScriptHost.Data.Json
