/-
# Types as a script writes them

A written type is a dotted name, generic arguments for its last segment, and suffixes:
`?` for nullable and `[]` for an array, in the order they are written. Its text leaves
out blanks, the `global::` qualifier and the commas of an array rank.

Key definitions: `Ident`, `TypeSuffix`, `TypeExpr`, `TypeExpr.text`.
-/
import ScriptHost.Token.Basic

namespace ScriptHost

open Source

/-- A name and where it stands. -/
structure Ident where
  name : String
  span : Span
deriving DecidableEq, Repr, Inhabited

def Ident.ofToken (t : Token) : Ident := ⟨t.lexeme, t.span⟩

/-- The names of a dotted name, joined by points. -/
def dottedText (path : List Ident) : String :=
  ".".intercalate (path.map (·.name))

inductive TypeSuffix where
  | nullable
  | array
deriving DecidableEq, Repr

def TypeSuffix.text : TypeSuffix → String
  | nullable => "?"
  | array => "[]"

/-- A type as written: `System.Collections.Generic.List<int>[]`. -/
inductive TypeExpr where
  | mk (path : List Ident) (args : List TypeExpr) (suffixes : List TypeSuffix) (span : Span)
deriving Repr, Inhabited

namespace TypeExpr

/-- The segments of the dotted name. -/
def path : TypeExpr → List Ident
  | mk path _ _ _ => path

/-- The generic arguments of the last segment. -/
def args : TypeExpr → List TypeExpr
  | mk _ args _ _ => args

/-- The suffixes as written: `int?[]` has first `nullable`, then `array`. -/
def suffixes : TypeExpr → List TypeSuffix
  | mk _ _ suffixes _ => suffixes

def span : TypeExpr → Span
  | mk _ _ _ span => span

/-- The last segment of the name. -/
def name (t : TypeExpr) : String :=
  (t.path.getLast?.map (·.name)).getD ""

/-- The segments before the last, if there are any. -/
def qualifier? (t : TypeExpr) : Option String :=
  match t.path.dropLast with
  | [] => none
  | lead => some (dottedText lead)

/-- A single name with nothing behind it. -/
def isSimple (t : TypeExpr) : Bool :=
  t.path.length == 1 && t.args.isEmpty && t.suffixes.isEmpty

/-- The word `void` in the place of a type. -/
def isVoid (t : TypeExpr) : Bool :=
  t.isSimple && t.name == "void"

/-- The type under the last suffix, and that suffix. -/
def underSuffix? : TypeExpr → Option (TypeExpr × TypeSuffix)
  | mk path args suffixes span =>
    suffixes.getLast?.map fun last => (mk path args suffixes.dropLast span, last)

mutual
/-- The text of a written type. -/
def text : TypeExpr → String
  | mk path args suffixes _ =>
    dottedText path
      ++ (match args with
        | [] => ""
        | first :: more => "<" ++ text first ++ textsAfter more ++ ">")
      ++ String.join (suffixes.map TypeSuffix.text)

/-- The texts of the arguments after the first, each behind a comma. -/
def textsAfter : List TypeExpr → String
  | [] => ""
  | t :: more => ", " ++ text t ++ textsAfter more
end

end TypeExpr

end ScriptHost
