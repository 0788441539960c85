/-
# Dates and times in TOML

A date is one that the calendar knows. A time has hours, minutes and seconds, which may go
to a leap second and may have a fraction. A date and a time with a `T` between them are one
word, and such a time may say how far its clock is off.

Key definitions: `afterDate?`, `afterTime?`, `afterOffset?`, `isTime`, `isTimeOfDate`.
-/
import ScriptHost.Data.Toml.Number

namespace ScriptHost.Data.Toml

/-- The number that two digits stand for, if it is from `low` to `high`. -/
def twoDigits? (low high : Nat) (a b : Char) : Option Nat := do
  let n := 10 * (← digit? 10 a) + (← digit? 10 b)
  if low ≤ n ∧ n ≤ high then pure n else none

def isLeapYear (year : Nat) : Bool :=
  year % 4 == 0 && (year % 100 != 0 || year % 400 == 0)

def daysInMonth (year month : Nat) : Nat :=
  if month = 2 then if isLeapYear year then 29 else 28
  else if month ∈ [4, 6, 9, 11] then 30
  else 31

/-- The text behind the date in front. -/
def afterDate? : List Char → Option (List Char)
  | y₁ :: y₂ :: y₃ :: y₄ :: '-' :: m₁ :: m₂ :: '-' :: d₁ :: d₂ :: rest => do
    let century ← twoDigits? 0 99 y₁ y₂
    let year ← twoDigits? 0 99 y₃ y₄
    let month ← twoDigits? 1 12 m₁ m₂
    let _ ← twoDigits? 1 (daysInMonth (100 * century + year) month) d₁ d₂
    pure rest
  | _ => none

/-- The text behind the fraction of a second in front, if there is one. -/
def skipFraction : List Char → List Char
  | '.' :: c :: r => if c.isDigit then r.dropWhile Char.isDigit else '.' :: c :: r
  | cs => cs

/-- The text behind the time in front. -/
def afterTime? : List Char → Option (List Char)
  | h₁ :: h₂ :: ':' :: m₁ :: m₂ :: ':' :: s₁ :: s₂ :: rest => do
    let _ ← twoDigits? 0 23 h₁ h₂
    let _ ← twoDigits? 0 59 m₁ m₂
    let _ ← twoDigits? 0 60 s₁ s₂
    pure (skipFraction rest)
  | _ => none

/-- The text behind what says in front how far a clock is off. -/
def afterOffset? : List Char → Option (List Char)
  | 'Z' :: rest | 'z' :: rest => some rest
  | sign :: h₁ :: h₂ :: ':' :: m₁ :: m₂ :: rest =>
    if sign = '+' ∨ sign = '-' then do
      let _ ← twoDigits? 0 23 h₁ h₂
      let _ ← twoDigits? 0 59 m₁ m₂
      pure rest
    else none
  | _ => none

/-- Whether a word is a time. -/
def isTime (word : List Char) : Bool := afterTime? word == some []

/-- Whether a word is a time as it may stand behind a date. -/
def isTimeOfDate (word : List Char) : Bool :=
  isTime word || (afterTime? word).bind afterOffset? == some []

end ScriptHost.Data.Toml
