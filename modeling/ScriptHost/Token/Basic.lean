/-
# Tokens of a script

Scripts are read for their declarations only, so the alphabet is small: the keywords
that shape a declaration, names and literals, the punctuation of declarations, and one
kind, `operator`, for every other operator. Names of predefined types (`int`, `void`)
are plain identifiers.

Key definitions: `Delimiter`, `TokenKind`, `TokenKind.text`, `keyword?`, `Token`.
-/
import ScriptHost.Source.Position

namespace ScriptHost

open Source

/-- The three bracket pairs. -/
inductive Delimiter where
  | brace
  | paren
  | bracket
deriving DecidableEq, Repr, Inhabited

/-- What a token is. -/
inductive TokenKind where
  | stringLiteral
  | charLiteral
  | number
  | identifier
  | usingWord
  | classWord
  | structWord
  | interfaceWord
  | enumWord
  | recordWord
  | publicWord
  | privateWord
  | protectedWord
  | internalWord
  | staticWord
  | asyncWord
  | otherModifier
  | refWord
  | outWord
  | inWord
  | paramsWord
  | thisWord
  | opening (pair : Delimiter)
  | closing (pair : Delimiter)
  | less
  | greater
  | comma
  | semicolon
  | dot
  | colon
  | equal
  | arrow
  | question
  | hash
  | operator
deriving DecidableEq, Repr, Inhabited

namespace TokenKind

/-- The words that may stand before a member or a type declaration. -/
def isModifier : TokenKind → Bool
  | publicWord | privateWord | protectedWord | internalWord | staticWord | asyncWord
  | otherModifier => true
  | _ => false

/-- The words that introduce a type declaration. -/
def isTypeWord : TokenKind → Bool
  | classWord | structWord | interfaceWord | enumWord | recordWord => true
  | _ => false

/-- How messages name a kind of token. -/
def text : TokenKind → String
  | stringLiteral => "string literal"
  | charLiteral => "character literal"
  | number => "number"
  | identifier => "identifier"
  | usingWord => "'using'"
  | classWord => "'class'"
  | structWord => "'struct'"
  | interfaceWord => "'interface'"
  | enumWord => "'enum'"
  | recordWord => "'record'"
  | publicWord => "'public'"
  | privateWord => "'private'"
  | protectedWord => "'protected'"
  | internalWord => "'internal'"
  | staticWord => "'static'"
  | asyncWord => "'async'"
  | otherModifier => "modifier"
  | refWord => "'ref'"
  | outWord => "'out'"
  | inWord => "'in'"
  | paramsWord => "'params'"
  | thisWord => "'this'"
  | opening .brace => "'\x7b'"
  | closing .brace => "'\x7d'"
  | opening .paren => "'('"
  | closing .paren => "')'"
  | opening .bracket => "'['"
  | closing .bracket => "']'"
  | less => "'<'"
  | greater => "'>'"
  | comma => "','"
  | semicolon => "';'"
  | dot => "'.'"
  | colon => "':'"
  | equal => "'='"
  | arrow => "'=>'"
  | question => "'?'"
  | hash => "'#'"
  | operator => "operator"

end TokenKind

/-- The modifier words that do not change the shape of a declaration. -/
def otherModifierWords : List String :=
  ["readonly", "sealed", "abstract", "virtual", "override", "partial", "unsafe", "extern", "new",
    "const", "volatile"]

/-- The kind of a reserved word; any other word is an identifier. -/
def keyword? (word : String) : Option TokenKind :=
  match word with
  | "using" => some .usingWord
  | "class" => some .classWord
  | "struct" => some .structWord
  | "interface" => some .interfaceWord
  | "enum" => some .enumWord
  | "record" => some .recordWord
  | "public" => some .publicWord
  | "private" => some .privateWord
  | "protected" => some .protectedWord
  | "internal" => some .internalWord
  | "static" => some .staticWord
  | "async" => some .asyncWord
  | "ref" => some .refWord
  | "out" => some .outWord
  | "in" => some .inWord
  | "params" => some .paramsWord
  | "this" => some .thisWord
  | _ => if otherModifierWords.contains word then some .otherModifier else none

/-- A token: its kind, its text (for an identifier written `@name`, the bare name), the
place where it starts and the bytes it takes in the source. -/
structure Token where
  kind : TokenKind
  lexeme : String
  start : Position
  length : Nat
deriving DecidableEq, Repr, Inhabited

namespace Token

def span (t : Token) : Span := .ofPosition t.start t.length

/-- The byte just past the token. -/
def stop (t : Token) : Nat := t.start.offset + t.length

/-- Whether the token is the identifier `word`. -/
def isWord (t : Token) (word : String) : Bool :=
  t.kind == .identifier && t.lexeme == word

end Token

end ScriptHost
