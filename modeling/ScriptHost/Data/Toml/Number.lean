/-
# Numbers in TOML

A number is one word. Its digits stand in a row, in which an underscore may part two digits,
and a decimal row has no zero in front. Integers have 64 bits and a sign; those of another
base have a mark in front and no sign. A float has a fraction, an exponent or both, or is
`inf` or `nan`. One that is too large for a finite double is refused, but below zero it
counts as minus infinity.

Key definitions: `digit?`, `digitRow?`, `isInteger`, `Decimal`, `Decimal.overflows`,
`isFloat`.
-/
namespace ScriptHost.Data.Toml

/-- The value of a digit of a base up to sixteen; letters are of either case. -/
def digit? (base : Nat) (c : Char) : Option Nat :=
  let value? :=
    if '0' ≤ c ∧ c ≤ '9' then some (c.toNat - 48)
    else if 'a' ≤ c ∧ c ≤ 'f' then some (c.toNat - 87)
    else if 'A' ≤ c ∧ c ≤ 'F' then some (c.toNat - 55)
    else none
  value?.filter (· < base)

/-- The values of the digits in a row. -/
def digitRow? (base : Nat) : List Char → Option (List Nat)
  | [] => none
  | c :: r => do
    let d ← digit? base c
    let ds ←
      match r with
      | [] => some []
      | '_' :: r => digitRow? base r
      | c :: r => digitRow? base (c :: r)
    pure (d :: ds)

/-- The number that digits stand for, the highest first. -/
def rowValue (base : Nat) (ds : List Nat) : Nat := ds.foldl (fun n d => n * base + d) 0

/-- A decimal row, which has no zero in front of other digits. -/
def decimalRow? (word : List Char) : Option (List Nat) :=
  (digitRow? 10 word).filter fun ds => ds = [0] || ds.head? != some 0

/-- Whether a word has a minus in front, and the word behind its sign. -/
def signAndRest : List Char → Bool × List Char
  | '-' :: r => (true, r)
  | '+' :: r => (false, r)
  | r => (false, r)

/-- Whether a word is an integer. -/
def isInteger (word : List Char) : Bool :=
  let isBelow (base : Nat) (row : List Char) : Bool :=
    (digitRow? base row).any (rowValue base · < Nat.pow 2 63)
  match word with
  | '0' :: 'x' :: row => isBelow 16 row
  | '0' :: 'o' :: row => isBelow 8 row
  | '0' :: 'b' :: row => isBelow 2 row
  | _ =>
    match signAndRest word with
    | (isNegative, row) =>
      (decimalRow? row).any (rowValue 10 · < Nat.pow 2 63 + isNegative.toNat)

/-- A decimal number: the digits in front of the point and behind it, and the power of ten
that scales them. -/
structure Decimal where
  isNegative : Bool
  whole : List Nat
  fraction : List Nat
  exponent : Int
deriving DecidableEq, Repr

/-- Whether a number, its sign left out, is nearer to `2 ^ 1024` than to any finite double:
it is not below the middle of `2 ^ 1024` and the largest of them, `2 ^ 1024 - 2 ^ 971`. That
middle has 309 digits, so a number with more or less digits in front of its point needs no
arithmetic. -/
def Decimal.overflows (d : Decimal) : Bool :=
  let ds := (d.whole ++ d.fraction).dropWhile (· == 0)
  let scale := d.exponent - d.fraction.length
  let front := ds.length + scale
  if ds = [] ∨ front < 309 then false
  else if 309 < front then true
  else (Nat.pow 2 1024 - Nat.pow 2 970) * Nat.pow 10 (-scale).toNat ≤
    rowValue 10 ds * Nat.pow 10 scale.toNat

/-- The exponent that a text spells; none is zero. -/
def exponent? : List Char → Option Int
  | [] => some 0
  | c :: r =>
    if c = 'e' ∨ c = 'E' then
      match signAndRest r with
      | (isNegative, row) =>
        (digitRow? 10 row).map fun ds =>
          if isNegative then -(rowValue 10 ds : Int) else (rowValue 10 ds : Int)
    else none

/-- A decimal number with a fraction or an exponent. -/
def decimal? (word : List Char) : Option Decimal := do
  let isInRow (c : Char) : Bool := c.isDigit || c == '_'
  let (isNegative, r) := signAndRest word
  let whole ← decimalRow? (r.takeWhile isInRow)
  match r.dropWhile isInRow with
  | [] => none
  | '.' :: r =>
    let fraction ← digitRow? 10 (r.takeWhile isInRow)
    let exponent ← exponent? (r.dropWhile isInRow)
    pure ⟨isNegative, whole, fraction, exponent⟩
  | r =>
    let exponent ← exponent? r
    pure ⟨isNegative, whole, [], exponent⟩

/-- Whether a word is a float. -/
def isFloat (word : List Char) : Bool :=
  let unsigned := (signAndRest word).2
  unsigned = ['i', 'n', 'f'] || unsigned = ['n', 'a', 'n'] ||
    (decimal? word).any fun d => d.isNegative || !d.overflows

end ScriptHost.Data.Toml
