/-
# Reading a written type

The grammar is `(global ::)? NAME (. NAME)* (< TYPE (, TYPE)* >)? (? | [ ,* ])*`. A point
without a name behind it and a bracket that opens no array rank are left to what follows.

Key definitions: `Parse.typeExpr`, `Parse.typeParameters`.
-/
import ScriptHost.Script.Group

namespace ScriptHost

open Source

/-- The further segments of a dotted name, and the tokens behind it. -/
def moreSegments : List Token → List Ident × List Token
  | point :: t :: r =>
    if point.kind = .dot ∧ t.kind = .identifier then
      match moreSegments r with
      | (path, rest) => (.ofToken t :: path, rest)
    else ([], point :: t :: r)
  | r => ([], r)

/-- The tokens behind a rank whose opening bracket was read: commas and `]`. -/
def closeRank? : List Token → Option (List Token)
  | [] => none
  | t :: r =>
    if t.kind = .comma then closeRank? r
    else if t.kind = .closing .bracket then some r
    else none

/-- At most `n` suffixes, and the tokens behind them. -/
def typeSuffixesWithin : Nat → List Token → List TypeSuffix × List Token
  | 0, r => ([], r)
  | _ + 1, [] => ([], [])
  | n + 1, t :: r =>
    if t.kind = .question then
      match typeSuffixesWithin n r with
      | (suffixes, rest) => (.nullable :: suffixes, rest)
    else if t.kind = .opening .bracket then
      match closeRank? r with
      | none => ([], t :: r)
      | some r' =>
        match typeSuffixesWithin n r' with
        | (suffixes, rest) => (.array :: suffixes, rest)
    else ([], t :: r)

/-- The tokens behind the qualifier `global::`, if it stands in front. -/
def dropGlobal : List Token → List Token
  | t :: colons :: r =>
    if t.lexeme = "global" ∧ colons.kind = .operator ∧ colons.lexeme = "::" then r
    else t :: colons :: r
  | r => r

namespace Parse

/-- A name and the segments behind it. -/
def dottedName : Parse (List Ident) := do
  let first ← expectIdentifier
  fun c =>
    match moreSegments c.rest with
    | (more, rest) => .done (first :: more) (c.goto rest)

/-- The generic arguments that stand next, each read by `type`; none without a `<`. -/
def typeArguments (type : Parse TypeExpr) : Parse (List TypeExpr) := do
  let opened ← here
  if ← eat .less then
    let args ← commaSeparated type
    if ← eat .greater then pure args else complain (.openTypeArguments opened.span)
  else pure []

def typeSuffixes : Parse (List TypeSuffix) := fun c =>
  match typeSuffixesWithin c.rest.length c.rest with
  | (suffixes, rest) => .done suffixes (c.goto rest)

/-- The parts of a written type that started at `start`, its arguments read by `type`. -/
def typeParts (start : Cursor) (type : Parse TypeExpr) : Parse TypeExpr := do
  let path ← dottedName
  let args ← typeArguments type
  let suffixes ← typeSuffixes
  let stop ← here
  pure (.mk path args suffixes (start.spanSince stop))

/-- A written type with generic arguments nested less than `n` deep. -/
def typeExprWithin : Nat → Parse TypeExpr
  | 0 => fun c => complain (.expectedType c.kind?) c
  | n + 1 => fun c =>
    if c.isAt .identifier then typeParts c (typeExprWithin n) (c.goto (dropGlobal c.rest))
    else complain (.expectedType c.kind?) c

/-- A written type. Each level of generic arguments takes a token, so there are no more
levels than tokens. -/
def typeExpr : Parse TypeExpr := fun c =>
  typeExprWithin (c.rest.length + 1) c

/-- A type parameter: attributes, a variance word, a name. -/
def typeParameter : Parse Ident := do
  skipAttributes
  if ← eat .inWord then pure () else let _ ← eat .outWord
  expectIdentifier

/-- The type parameters of a declaration; none without a `<`. -/
def typeParameters : Parse (List Ident) := do
  if ← eat .less then
    let names ← commaSeparated typeParameter
    let _ ← expect .greater
    pure names
  else pure []

end Parse

end ScriptHost
