/-
# Diagnostics

A diagnostic is one message about a script: a stable code, a severity, a text, and where
it belongs. Diagnostics form sequences whose order has a meaning; nothing sorts them or
drops one. Only errors keep an image from being written.

Key definitions: `Severity`, `Location`, `Diagnostic`, `Diagnostic.text`, `hasErrors`.
-/
import ScriptHost.Script.ParseError

namespace ScriptHost

open Source

inductive Severity where
  | info
  | warning
  | error
deriving DecidableEq, Repr

namespace Severity

def text : Severity → String
  | info => "info"
  | warning => "warning"
  | error => "error"

/-- Severities are ordered by their rank. -/
def rank : Severity → Nat
  | info => 0
  | warning => 1
  | error => 2

/-- The severity of a rank. -/
def ofRank? : Nat → Option Severity
  | 0 => some info
  | 1 => some warning
  | 2 => some error
  | _ => none

end Severity

/-- Where a diagnostic belongs: a document, a span in it, both or neither. -/
structure Location where
  path? : Option String
  span? : Option Span
deriving DecidableEq, Repr, Inhabited

namespace Location

def none : Location := ⟨.none, .none⟩

def within (path : String) (span : Span) : Location := ⟨some path, some span⟩

/-- `run.csx(4,2)`; parts that are missing are left out. -/
def text : Location → String
  | ⟨some path, some span⟩ => s!"{path}({span.line},{span.column})"
  | ⟨.none, some span⟩ => s!"({span.line},{span.column})"
  | ⟨some path, .none⟩ => path
  | ⟨.none, .none⟩ => ""

/-- Whether the location says anything. -/
def isKnown (l : Location) : Bool := l.path?.isSome || l.span?.isSome

end Location

structure Diagnostic where
  code : String
  severity : Severity
  message : String
  location : Location
deriving DecidableEq, Repr

namespace Diagnostic

/-- A diagnostic that keeps an image from being written. -/
def error (code message : String) (location : Location) : Diagnostic :=
  ⟨code, .error, message, location⟩

def warning (code message : String) (location : Location) : Diagnostic :=
  ⟨code, .warning, message, location⟩

def isError (d : Diagnostic) : Bool := d.severity == .error

/-- `run.csx(4,2): error FS0246: ...`; without a known location, from the severity on. -/
def text (d : Diagnostic) : String :=
  let place := if d.location.isKnown then d.location.text ++ ": " else ""
  s!"{place}{d.severity.text} {d.code}: {d.message}"

/-- A problem of a document's text as a diagnostic. -/
def ofParseError (path : String) (e : ParseError) : Diagnostic :=
  error e.kind.code e.message (.within path e.span)

end Diagnostic

/-- Whether a sequence holds an error. -/
def hasErrors (ds : List Diagnostic) : Bool := ds.any (·.isError)

theorem hasErrors_append (ds es : List Diagnostic) :
    hasErrors (ds ++ es) = (hasErrors ds || hasErrors es) := List.any_append

/-- The errors of a sequence, in order. -/
def errorsOf (ds : List Diagnostic) : List Diagnostic := ds.filter (·.isError)

/-- The number of diagnostics of a severity. -/
def countOf (severity : Severity) (ds : List Diagnostic) : Nat :=
  ds.countP (·.severity == severity)

/-- The highest severity of a sequence. -/
def maxSeverity? (ds : List Diagnostic) : Option Severity :=
  ds.foldl (fun best d =>
    match best with
    | some s => if s.rank ≤ d.severity.rank then some d.severity else some s
    | none => some d.severity) none

end ScriptHost
