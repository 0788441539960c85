/-
# What is wrong with a script's text

Every problem a reader of scripts reports, as a cause; its kind, its diagnostic code and
its wording follow from the cause.

Key definitions: `ParseErrorKind`, `Complaint`, `Complaint.kind`, `Complaint.message`,
`ParseError`.
-/
import ScriptHost.Token.Lexer

namespace ScriptHost

open Source

/-- The classes of problems; each has one code. -/
inductive ParseErrorKind where
  | expectedToken
  | unexpectedEnd
  | expectedType
  | expectedIdentifier
  | expectedDeclaration
  | expectedParameters
  | mismatchedDelimiter
  | invalidDirective
  | misplacedDirective
  | unexpectedChar
  | unterminatedLiteral
  | unterminatedComment
deriving DecidableEq, Repr

namespace ParseErrorKind

def text : ParseErrorKind → String
  | expectedToken => "expected token"
  | unexpectedEnd => "unexpected end of file"
  | expectedType => "expected type"
  | expectedIdentifier => "expected identifier"
  | expectedDeclaration => "expected declaration"
  | expectedParameters => "expected parameters"
  | mismatchedDelimiter => "mismatched delimiter"
  | invalidDirective => "invalid directive"
  | misplacedDirective => "misplaced directive"
  | unexpectedChar => "unexpected character"
  | unterminatedLiteral => "unterminated literal"
  | unterminatedComment => "unterminated comment"

/-- The diagnostic code of a class of problems. -/
def code : ParseErrorKind → String
  | expectedToken => "FS1003"
  | unexpectedEnd => "FS1513"
  | expectedType => "FS1031"
  | expectedIdentifier => "FS1001"
  | expectedDeclaration => "FS1022"
  | expectedParameters => "FS1026"
  | mismatchedDelimiter => "FS1002"
  | invalidDirective => "FS1024"
  | misplacedDirective => "FS7011"
  | unexpectedChar => "FS1056"
  | unterminatedLiteral => "FS1010"
  | unterminatedComment => "FS1035"

end ParseErrorKind

/-- What a message says was found: a kind of token, or the end of the text. -/
def foundText : Option TokenKind → String
  | some kind => kind.text
  | none => "end of file"

/-- The cause of a problem. -/
inductive Complaint where
  | expectedToken (wanted found : TokenKind)
  | expectedBody (found : Option TokenKind)
  | openTypeArguments (opened : Span)
  | unexpectedEnd
  | expectedType (found : Option TokenKind)
  | expectedIdentifier (found : TokenKind)
  | expectedDeclaration (found : Option TokenKind)
  | expectedParameters (found : Option TokenKind)
  | unclosed (pair : Delimiter)
  | unexpectedCloser (pair : Delimiter)
  | directiveWithoutName
  | unsupportedDirective (name : String)
  | misplacedReference
  | lexical (error : LexError)
deriving DecidableEq, Repr

namespace Complaint

def kind : Complaint → ParseErrorKind
  | expectedToken _ _ | expectedBody _ | openTypeArguments _ => .expectedToken
  | unexpectedEnd => .unexpectedEnd
  | expectedType _ => .expectedType
  | expectedIdentifier _ => .expectedIdentifier
  | expectedDeclaration _ => .expectedDeclaration
  | expectedParameters _ => .expectedParameters
  | unclosed _ | unexpectedCloser _ => .mismatchedDelimiter
  | directiveWithoutName | unsupportedDirective _ => .invalidDirective
  | misplacedReference => .misplacedDirective
  | lexical e =>
    match e.fault with
    | .unexpectedChar _ => .unexpectedChar
    | .unterminatedLiteral => .unterminatedLiteral
    | .unterminatedComment => .unterminatedComment

def message : Complaint → String
  | expectedToken wanted found => s!"expected {wanted.text}, found {found.text}"
  | expectedBody found => s!"expected method body, found {foundText found}"
  | openTypeArguments opened => s!"expected '>' to close type arguments opened at {opened.text}"
  | unexpectedEnd => "unexpected end of file"
  | expectedType found => s!"expected type, found {foundText found}"
  | expectedIdentifier found => s!"expected identifier, found {found.text}"
  | expectedDeclaration found => s!"expected member declaration, found {foundText found}"
  | expectedParameters found => s!"expected parameter list, found {foundText found}"
  | unclosed pair => s!"unclosed {(TokenKind.opening pair).text}"
  | unexpectedCloser pair => s!"unexpected {(TokenKind.closing pair).text}"
  | directiveWithoutName => "expected directive name after '#'"
  | unsupportedDirective name => s!"'#{name}' is not a supported directive"
  | misplacedReference => "#r is only allowed before the first declaration or statement"
  | lexical e => e.message

end Complaint

/-- A problem and the span it is reported at. -/
structure ParseError where
  complaint : Complaint
  span : Span
deriving DecidableEq, Repr

namespace ParseError

def kind (e : ParseError) : ParseErrorKind := e.complaint.kind

def message (e : ParseError) : String := e.complaint.message

/-- The full text: kind, place and message. -/
def text (e : ParseError) : String :=
  s!"{e.kind.text} at {e.span.text}: {e.message}"

/-- A lexical error as a problem of the script. -/
def ofLexError (e : LexError) : ParseError := ⟨.lexical e, e.span⟩

end ParseError

/-- The texts of several problems, one a line. -/
def parseErrorsText (errors : List ParseError) : String :=
  "\n".intercalate (errors.map ParseError.text)

end ScriptHost
