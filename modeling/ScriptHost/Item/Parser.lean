/-
# Reading the items of a script

The next token and a look ahead decide what an item is. A member is a type, a name, and
something only a declaration can have behind a name; whatever is neither a directive, a
type declaration nor a member is a statement. A problem inside a declaration is reported
and reading resumes at the next place where an item may start.

Key definitions: `Parse.method`, `Parse.typeDecl`, `Parse.member?`, `statement`,
`directive`, `turn`.
-/
import ScriptHost.TypeExpr.Parser

namespace ScriptHost

open Source

/-- Words that start a statement, whatever follows. -/
def statementWords : List String :=
  ["await", "break", "checked", "continue", "do", "else", "fixed", "for", "foreach", "goto", "if",
    "lock", "return", "switch", "throw", "try", "unchecked", "while", "yield"]

/-- Directives that are accepted and have no effect. -/
def ignoredDirectives : List String :=
  ["pragma", "nullable", "region", "endregion", "define", "undef", "line"]

/-- Words behind a block that go on with its statement. -/
def continuationWords : List String :=
  ["else", "catch", "finally", "while"]

/-! ### Parameters -/

/-- The words that may stand before a parameter's type. -/
def isParameterWord : TokenKind → Bool
  | .refWord | .outWord | .inWord | .paramsWord | .thisWord | .otherModifier => true
  | _ => false

/-- The passing mode that a run of words asks for: the last one written. -/
def PassingMode.ofKinds (kinds : List TokenKind) : PassingMode :=
  kinds.foldl (fun mode kind =>
    match kind with
    | .refWord => .byRef
    | .outWord => .byOut
    | .inWord => .byIn
    | .paramsWord => .asParams
    | _ => mode) .byValue

namespace Parse

/-- The kinds of the next tokens as long as they pass the test. -/
def takeKinds (test : TokenKind → Bool) : Parse (List TokenKind) := fun c =>
  .done ((c.rest.takeWhile fun t => test t.kind).map (·.kind))
    (c.goto (c.rest.dropWhile fun t => test t.kind))

def modifiers : Parse Modifiers := do
  let kinds ← takeKinds TokenKind.isModifier
  pure (.ofKinds kinds)

/-- A parameter; a default value runs to the next comma or the end of the list. -/
def parameter : Parse ParameterDecl := do
  skipAttributes
  let start ← here
  let words ← takeKinds isParameterWord
  let type ← typeExpr
  let name ← expectIdentifier
  let hasDefault ← eat .equal
  if hasDefault then skipUntil fun k => k == .comma || k == .closing .paren
  let stop ← here
  pure ⟨.ofKinds words, words.contains .thisWord, type, name, hasDefault, start.spanSince stop⟩

/-- A parameter list in parentheses. -/
def parameters : Parse (List ParameterDecl) := do
  let start ← here
  if ← eat (.opening .paren) then
    if ← eat (.closing .paren) then pure []
    else
      let params ← commaSeparated parameter
      let _ ← expect (.closing .paren)
      pure params
  else complain (.expectedParameters start.kind?)

/-! ### Bodies and members -/

/-- A `where` clause, if one stands next, up to a token that `stops`. -/
def skipConstraints (stops : TokenKind → Bool) : Parse Unit := do
  let c ← here
  if c.isAtWord "where" then skipUntil stops

/-- A body in braces, or `=>` up to and with the next `;`. -/
def body : Parse Body := do
  let start ← here
  if start.isAt (.opening .brace) then
    let _ ← skipGroup
    let stop ← here
    pure (start.bodySince .block stop)
  else if ← eat .arrow then
    skipUntil (· == .semicolon)
    let _ ← eat .semicolon
    let stop ← here
    pure (start.bodySince .expression stop)
  else complain (.expectedBody start.kind?)

/-- The rest of a method from its name on. -/
def method (start : Cursor) (modifiers : Modifiers) (returns : TypeExpr) : Parse MethodDecl := do
  let name ← expectIdentifier
  let typeParams ← typeParameters
  let params ← parameters
  skipConstraints fun k => k == .opening .brace || k == .arrow
  let body ← body
  let stop ← here
  pure ⟨modifiers, returns, name, typeParams, params, body, start.spanSince stop⟩

/-- The shape of a method from its name on: type parameters, a parenthesised group,
constraints, and the start of a body. -/
def methodShape : Parse Unit := do
  let _ ← expectIdentifier
  let _ ← typeParameters
  let params ← here
  if params.isAt (.opening .paren) then
    let _ ← skipGroup
    skipConstraints fun k => k == .opening .brace || k == .arrow || k == .semicolon
    let c ← here
    if c.isAt (.opening .brace) || c.isAt .arrow then pure () else complain (.expectedBody c.kind?)
  else complain (.expectedParameters params.kind?)

/-- The rest of a property from its name on: accessors and perhaps an initial value, or an
expression body. -/
def property (start : Cursor) (modifiers : Modifiers) (type : TypeExpr) : Parse PropertyDecl := do
  let name ← expectIdentifier
  let accessors ← here
  if accessors.isAt (.opening .brace) then
    let _ ← skipGroup
    if ← eat .equal then
      skipUntil (· == .semicolon)
      let _ ← eat .semicolon
  else
    let _ ← body
  let stop ← here
  pure ⟨modifiers, type, name, start.spanSince stop⟩

/-- A name of a field declaration with its initial value. -/
def declarator : Parse Ident := do
  let name ← expectIdentifier
  if ← eat .equal then skipUntil fun k => k == .comma || k == .semicolon
  pure name

/-- The rest of a field declaration from its first name on. -/
def field (start : Cursor) (modifiers : Modifiers) (type : TypeExpr) : Parse FieldDecl := do
  let names ← commaSeparated declarator
  let _ ← expect .semicolon
  let stop ← here
  pure ⟨modifiers, type, names, start.spanSince stop⟩

/-- A member behind its modifiers, or nothing read if what stands next is none. What is
behind type and name decides: parameters and a body make a method, `{` or `=>` a
property, `;`, `=` or `,` a field. -/
def member? (start : Cursor) (modifiers : Modifiers) : Parse (Option Item) := fun c =>
  match typeExpr c with
  | .failed _ _ => .done none c
  | .done type named =>
    if named.isAt .identifier then
      match named.kindAt? 1 with
      | some (.opening .paren) | some .less =>
        if (methodShape named).isDone then
          ((some ∘ .method) <$> method start modifiers type) named
        else .done none c
      | some (.opening .brace) | some .arrow =>
        ((some ∘ .property) <$> property start modifiers type) named
      | some .semicolon | some .equal | some .comma =>
        ((some ∘ .field) <$> field start modifiers type) named
      | _ => .done none c
    else .done none c

/-! ### Type declarations and usings -/

/-- The word of a type declaration; `record` may have `struct` or `class` behind it. -/
def typeWord : Parse TypeDeclKind := fun c =>
  match c.kind? with
  | some .classWord => .done .classDecl c.tail
  | some .structWord => .done .structDecl c.tail
  | some .interfaceWord => .done .interfaceDecl c.tail
  | some .enumWord => .done .enumDecl c.tail
  | _ =>
    let second := c.tail
    if second.isAt .structWord || second.isAt .classWord then .done .recordDecl second.tail
    else .done .recordDecl second

/-- A parenthesised group, if one stands next. -/
def skipArguments : Parse Unit := do
  let c ← here
  if c.isAt (.opening .paren) then
    let _ ← skipGroup

/-- A base type and its constructor arguments. -/
def baseType : Parse TypeExpr := do
  let type ← typeExpr
  skipArguments
  pure type

/-- The base types behind a colon; none without one. -/
def baseTypes : Parse (List TypeExpr) := do
  if ← eat .colon then commaSeparated baseType else pure []

/-- A type declaration from its word on. Its body is a block, perhaps with a `;` behind
it, or just a `;`. -/
def typeDecl (start : Cursor) (modifiers : Modifiers) : Parse TypeDecl := do
  let kind ← typeWord
  let name ← expectIdentifier
  let typeParams ← typeParameters
  skipArguments
  let bases ← baseTypes
  skipConstraints fun k => k == .opening .brace || k == .semicolon
  let inside ← here
  if inside.isAt (.opening .brace) then
    let _ ← skipGroup
    let _ ← eat .semicolon
  else
    let _ ← expect .semicolon
  let stop ← here
  pure ⟨modifiers, kind, name, typeParams, bases, start.spanSince stop⟩

/-- The name of an alias and its `=`, if they stand next. -/
def aliasName? : Parse (Option Ident) := fun c =>
  match c.rest with
  | t :: eq :: r =>
    if t.kind = .identifier ∧ eq.kind = .equal then .done (some (.ofToken t)) (c.goto r)
    else .done none c
  | _ => .done none c

/-- A using directive. -/
def usingDirective : Parse UsingDirective := do
  let start ← here
  let _ ← expect .usingWord
  let isStatic ← eat .staticWord
  let alias? ← aliasName?
  let target ← typeExpr
  let _ ← expect .semicolon
  let stop ← here
  pure ⟨target.path, isStatic, alias?, start.spanSince stop⟩

end Parse

/-! ### Items -/

/-- What one turn at the items of a script gives: at most one item, at most one problem,
and the cursor behind both. -/
structure Turn where
  item? : Option Item
  error? : Option ParseError
  next : Cursor
deriving Repr

/-- A turn that began at `c` and failed at `d`: reading resumes behind at least one token. -/
def Turn.recover (c : Cursor) (e : ParseError) (d : Cursor) : Turn :=
  let beyond := if d.rest.length = c.rest.length then d.tail else d
  ⟨none, some e, beyond.goto (resume 0 beyond.rest)⟩

/-- The turn of a reader that began at `c`. -/
def Turn.ofReply (c : Cursor) : Reply Item → Turn
  | .done item d => ⟨some item, none, d⟩
  | .failed e d => .recover c e d

/-- The end of a statement, given at most `n` tokens and groups: behind a `;` or behind a
block that no continuation word follows. -/
def statementEndWithin : Nat → Cursor → Option ParseError × Cursor
  | 0, c => (none, c)
  | n + 1, c =>
    match c.rest with
    | [] => (none, c)
    | t :: r =>
      match t.kind with
      | .semicolon => (none, c.goto r)
      | .opening pair =>
        match Parse.skipGroup c with
        | .failed e d => (some e, d)
        | .done _ d =>
          if pair = .brace ∧ continuationWords.all (!d.isAtWord ·) then (none, d)
          else statementEndWithin n d
      | .closing pair => (some ⟨.unexpectedCloser pair, t.span⟩, c.goto r)
      | _ => statementEndWithin n (c.goto r)

/-- A statement is kept as text, also when its brackets do not match. -/
def statement (c : Cursor) : Turn :=
  match statementEndWithin c.rest.length c with
  | (error?, d) => ⟨some (.statement (c.bodySince .statement d)), error?, d⟩

/-- A string literal's text without its marks and quotes. -/
def unquote (literal : String) : String :=
  let inner := literal.toList.dropWhile isMark
  match inner with
  | '"' :: r => if r.getLast? = some '"' then String.ofList r.dropLast else String.ofList inner
  | _ => String.ofList inner

/-- The `#r` directive of which `#r` was read: its string, if nothing was declared before. -/
def reference (declared : Bool) (start : Cursor) : Parse Item := do
  let literal ← Parse.expect .stringLiteral
  let stop ← Parse.here
  let span := start.spanSince stop
  if declared then fun c => .failed ⟨.misplacedReference, span⟩ c
  else pure (.reference ⟨unquote literal.lexeme, span⟩)

/-- A directive owns the rest of its line: whatever it says, the tokens that start on the
line of its `#` are read. -/
def directive (declared : Bool) (c : Cursor) (sharp : Token) (r : List Token) : Turn :=
  let skipLine (d : Cursor) : Cursor :=
    d.goto (d.rest.dropWhile fun t => t.start.line == sharp.start.line)
  let afterHash := c.goto r
  match r with
  | [] => ⟨none, some ⟨.directiveWithoutName, sharp.span⟩, afterHash⟩
  | name :: r' =>
    if name.kind = .identifier ∧ name.start.line = sharp.start.line then
      if name.lexeme = "r" then
        match reference declared c (c.goto r') with
        | .done item d => ⟨some item, none, skipLine d⟩
        | .failed e d => ⟨none, some e, skipLine d⟩
      else if ignoredDirectives.contains name.lexeme then ⟨none, none, skipLine afterHash⟩
      else ⟨none, some ⟨.unsupportedDirective name.lexeme, name.span⟩, skipLine afterHash⟩
    else ⟨none, some ⟨.directiveWithoutName, sharp.span⟩, skipLine afterHash⟩

/-- A `using` is a directive before `static` and before a name, unless the name is `var`
or another name follows it: `using var x = ...` and `using T x = ...` are statements. -/
def isUsingDirective (c : Cursor) : Bool :=
  match c.rest with
  | _ :: second :: r =>
    match second.kind with
    | .staticWord => true
    | .identifier =>
      second.lexeme != "var" && (r.head?.map (·.kind)) != some .identifier
    | _ => false
  | _ => false

/-- Whether an item that starts with the token may be a declaration. -/
def mayDeclare (t : Token) : Bool :=
  t.kind == .opening .bracket || t.kind.isModifier || t.kind.isTypeWord
    || (t.kind == .identifier && !statementWords.contains t.lexeme)

/-- A declaration whose first token is `first`; or the statement that stands there instead,
if neither attributes nor modifiers (other than `new`) promise a declaration. -/
def declaration (first : Token) (c : Cursor) : Turn :=
  match Parse.skipAttributes c with
  | .failed e d => .recover c e d
  | .done _ start =>
    match Parse.modifiers start with
    | .failed e d => .recover c e d
    | .done modifiers d =>
      if d.kind?.any TokenKind.isTypeWord then
        .ofReply c ((.typeDecl <$> Parse.typeDecl start modifiers) d)
      else match Parse.member? start modifiers d with
        | .failed e d' => .recover c e d'
        | .done (some item) d' => ⟨some item, none, d'⟩
        | .done none _ =>
          if start.rest.length = c.rest.length
              ∧ (d.rest.length = c.rest.length ∨ first.lexeme = "new") then
            statement c
          else .recover c ⟨.expectedDeclaration d.kind?, d.span⟩ d

/-- One turn at the items of a script: a lone `;`, a directive, a using, a declaration or a
statement. `declared` says whether anything but directives was read before. -/
def turn (declared : Bool) (c : Cursor) : Turn :=
  match c.rest with
  | [] => ⟨none, none, c⟩
  | t :: r =>
    match t.kind with
    | .semicolon => ⟨none, none, c.goto r⟩
    | .hash => directive declared c t r
    | .usingWord =>
      if isUsingDirective c then
        .ofReply c ((.usingDirective <$> Parse.usingDirective) c)
      else statement c
    | _ => if mayDeclare t then declaration t c else statement c

/-- Whether an item that starts with a token of the kind ends the place for `#r`. -/
def declares (kind : TokenKind) : Bool :=
  kind != .semicolon && kind != .hash

end ScriptHost
