/-
# Choosing the entry point

A host calls one public method of a script. With a configured name it is the public method
of exactly that name; otherwise a lone public method, and among several the one named
`Run`, whatever the case of its letters. A choice between two methods is refused.

Key definitions: `MethodReference`, `EntryPointError`, `EntryPointPolicy.resolve`.
-/
import ScriptHost.Symbol.Signature

namespace ScriptHost

/-- A candidate for the entry point. -/
structure MethodReference where
  name : String
  isPublic : Bool
  method : MethodSymbol
deriving Repr, Inhabited

def MethodReference.ofMethod (m : MethodSymbol) : MethodReference :=
  ⟨m.name, m.isPublic, m⟩

inductive EntryPointError where
  | missing
  | ambiguous (name : String)
deriving DecidableEq, Repr

namespace EntryPointError

def message : EntryPointError → String
  | missing =>
    "Missing function entry point. Your function must contain a single public method, "
      ++ "a public method named 'Run', or a public method matching the name specified in the "
      ++ "'entryPoint' metadata property."
  | ambiguous name =>
    s!"Ambiguous function entry points. Multiple methods named '{name}'. Consider renaming methods."

def code : EntryPointError → String
  | missing => "AF001"
  | ambiguous _ => "AF002"

/-- The error as a diagnostic without a place. -/
def diagnostic (e : EntryPointError) : Diagnostic :=
  .error e.code e.message .none

end EntryPointError

/-- How the entry point is chosen: by a configured name, or by the default rule. -/
structure EntryPointPolicy where
  name? : Option String
deriving DecidableEq, Repr, Inhabited

/-- The method name of the default rule. -/
def defaultEntryPoint : String := "Run"

/-- The only one of the methods; `name` is what an ambiguity is reported about. -/
def onlyMethod (name : String) : List MethodReference → Except EntryPointError MethodReference
  | [] => .error .missing
  | [m] => .ok m
  | _ :: _ :: _ => .error (.ambiguous name)

/-- The public candidate that the policy selects. -/
def EntryPointPolicy.resolve (policy : EntryPointPolicy) (candidates : List MethodReference) :
    Except EntryPointError MethodReference :=
  let visible := candidates.filter (·.isPublic)
  match policy.name? with
  | some name => onlyMethod name (visible.filter (·.name == name))
  | none =>
    match visible with
    | [m] => .ok m
    | _ =>
      onlyMethod defaultEntryPoint
        (visible.filter (·.name.toLower == defaultEntryPoint.toLower))

end ScriptHost
