/-
# Writing JSON

Values are written on one line without blanks, or over lines indented by two blanks for
each level. Quotes, backslashes and control characters of a text are escaped; all other
characters stand for themselves.

Key definitions: `Value.compact`, `Value.pretty`, `quoted`.
-/
import ScriptHost.Bytes.Word
import ScriptHost.Data.Value

namespace ScriptHost.Data.Json

/-- A character inside quotes. -/
def escape (c : Char) : List Char :=
  if c = '"' then ['\\', '"']
  else if c = '\\' then ['\\', '\\']
  else if c = '\n' then ['\\', 'n']
  else if c = '\r' then ['\\', 'r']
  else if c = '\t' then ['\\', 't']
  else if c = '\x08' then ['\\', 'b']
  else if c = '\x0c' then ['\\', 'f']
  else if c.toNat < 32 then ['\\', 'u'] ++ hexDigits 4 c.toNat
  else [c]

/-- A text in quotes. -/
def quoted (s : String) : String :=
  "\"" ++ String.ofList (s.toList.flatMap escape) ++ "\""

/-- The name of an entry. -/
def entryName (name : Option String) : String := quoted (name.getD "")

end Json

namespace Value

open Json

mutual
/-- A value on one line. -/
def compact : Value → String
  | null | other => "null"
  | bool b => if b then "true" else "false"
  | natural n => toString n
  | text s => quoted s
  | list [] => "[]"
  | list (first :: more) => "[" ++ compact first ++ compactItems more ++ "]"
  | table [] => "\x7b\x7d"
  | table ((name, first) :: more) =>
    "\x7b" ++ entryName name ++ ":" ++ compact first ++ compactEntries more ++ "\x7d"

/-- Items behind the first one, each after a comma. -/
def compactItems : List Value → String
  | [] => ""
  | v :: more => "," ++ compact v ++ compactItems more

/-- Entries behind the first one, each after a comma. -/
def compactEntries : List (Option String × Value) → String
  | [] => ""
  | (name, v) :: more => "," ++ entryName name ++ ":" ++ compact v ++ compactEntries more
end

/-- A new line at a depth. -/
def newLine (depth : Nat) : String :=
  "\n" ++ String.ofList (List.replicate (2 * depth) ' ')

mutual
/-- A value over indented lines, itself at the given depth. -/
def prettyAt (depth : Nat) : Value → String
  | null | other => "null"
  | bool b => if b then "true" else "false"
  | natural n => toString n
  | text s => quoted s
  | list [] => "[]"
  | list (first :: more) =>
    "[" ++ newLine (depth + 1) ++ prettyAt (depth + 1) first ++ prettyItems (depth + 1) more
      ++ newLine depth ++ "]"
  | table [] => "\x7b\x7d"
  | table ((name, first) :: more) =>
    "\x7b" ++ newLine (depth + 1) ++ entryName name ++ ": " ++ prettyAt (depth + 1) first
      ++ prettyEntries (depth + 1) more ++ newLine depth ++ "\x7d"

/-- Items behind the first one, each on its own line after a comma. -/
def prettyItems (depth : Nat) : List Value → String
  | [] => ""
  | v :: more => "," ++ newLine depth ++ prettyAt depth v ++ prettyItems depth more

/-- Entries behind the first one, each on its own line after a comma. -/
def prettyEntries (depth : Nat) : List (Option String × Value) → String
  | [] => ""
  | (name, v) :: more =>
    "," ++ newLine depth ++ entryName name ++ ": " ++ prettyAt depth v
      ++ prettyEntries depth more
end

/-- A value over indented lines. -/
def pretty (v : Value) : String := prettyAt 0 v

end ScriptHost.Data.Value
