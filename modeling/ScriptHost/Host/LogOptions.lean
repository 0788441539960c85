/-
# How much a host logs, and in which form

Levels and formats are named in a configuration or in the environment, whatever the case
of the letters. The environment overrides, and a name there that says nothing is ignored.

Key definitions: `LogLevel`, `LogFormat`, `LogOptions`, `LogOptions.overridden`.
-/
namespace ScriptHost

inductive LogLevel where
  | error
  | warn
  | info
  | debug
  | trace
deriving DecidableEq, Repr, Inhabited

namespace LogLevel

/-- The level of a name. -/
def ofText? (name : String) : Option LogLevel :=
  match name.toLower with
  | "error" | "err" => some error
  | "warn" | "warning" => some warn
  | "info" | "information" => some info
  | "debug" => some debug
  | "trace" | "verbose" => some trace
  | _ => none

def text : LogLevel → String
  | error => "error"
  | warn => "warn"
  | info => "info"
  | debug => "debug"
  | trace => "trace"

/-- Levels are ordered by how much they let through. -/
def rank : LogLevel → Nat
  | error => 0
  | warn => 1
  | info => 2
  | debug => 3
  | trace => 4

end LogLevel

inductive LogFormat where
  | auto
  | text
  | json
deriving DecidableEq, Repr, Inhabited

namespace LogFormat

/-- The format of a name. -/
def ofText? (name : String) : Option LogFormat :=
  match name.toLower with
  | "auto" => some auto
  | "text" | "plain" => some text
  | "json" => some json
  | _ => none

def name : LogFormat → String
  | auto => "auto"
  | text => "text"
  | json => "json"

/-- The format that is used: without a choice it is text. -/
def resolved : LogFormat → LogFormat
  | auto => text
  | other => other

end LogFormat

structure LogOptions where
  format : LogFormat
  level : LogLevel
deriving DecidableEq, Repr, Inhabited

namespace LogOptions

/-- What holds where nothing is said. -/
def standard : LogOptions := ⟨.auto, .info⟩

/-- The options with those of the environment over them. -/
def overridden (o : LogOptions) (format? level? : Option String) : LogOptions :=
  ⟨(format?.bind LogFormat.ofText?).getD o.format, (level?.bind LogLevel.ofText?).getD o.level⟩

end LogOptions

end ScriptHost
