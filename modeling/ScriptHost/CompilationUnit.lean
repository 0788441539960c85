/-
# Compilation units

A compilation together with its analyzers: what a host asks for diagnostics, an image, and
the signature of the entry point. The analyzers run anew for every question. Emission
hands the sinks over before it knows whether the analyzers found errors, so that an
emission that fails may leave bytes behind.

Key definitions: `CompilationError`, `CompilationUnit`, `CompilationUnit.diagnostics`,
`CompilationUnit.emit`, `CompilationUnit.signature`.
-/
import ScriptHost.Analysis
import ScriptHost.Emission.Plan
import ScriptHost.EntryPoint

namespace ScriptHost

/-- Why a compilation unit cannot do what it was asked for. -/
inductive CompilationError where
  | noDocuments
  | diagnostics (ds : List Diagnostic)
  | entryPoint (e : EntryPointError)
  | cancelled
  | analyzer (fault : AnalyzerFault)
  | io (fault : WriteFault)
deriving DecidableEq, Repr

namespace CompilationError

def message : CompilationError → String
  | noDocuments => "The current compilation does not have a syntax tree."
  | diagnostics _ => "Script compilation failed."
  | entryPoint e => e.message
  | cancelled => "Script compilation was cancelled."
  | analyzer fault => fault.message
  | io fault => s!"failed to write compilation output: {fault.message}"

/-- Whether the script is to blame, and not the system that compiles it. -/
def isUserError : CompilationError → Bool
  | diagnostics _ | entryPoint _ => true
  | _ => false

/-- The diagnostics that come with the error. -/
def carried : CompilationError → List Diagnostic
  | diagnostics ds => ds
  | _ => []

def ofEmitError : EmitError → CompilationError
  | .cancelled => cancelled
  | .io fault => io fault

end CompilationError

structure CompilationUnit where
  compilation : Compilation
  analyzers : List Analyzer

namespace CompilationUnit

/-- The findings of the analyzers, then those of the compilation. -/
def diagnostics (u : CompilationUnit) (fs : FileTree) : Except AnalyzerFault (List Diagnostic) :=
  (analyze fs u.compilation u.analyzers).map (· ++ u.compilation.findings)

/-- Emits the compilation. An error among all findings fails the emission, and the failure
carries all of them. -/
def emit (u : CompilationUnit) (fs : FileTree) (o : Outputs) :
    Except CompilationError (List Diagnostic) × Outputs :=
  match analyze fs u.compilation u.analyzers with
  | .error fault => (.error (.analyzer fault), o)
  | .ok found =>
    match u.compilation.emit o with
    | (.error e, o) => (.error (.ofEmitError e), o)
    | (.ok report, o) =>
      let all := found ++ report.findings
      (if hasErrors all then .error (.diagnostics all) else .ok all, o)

/-- The signature of the entry point that a policy selects. -/
def signature (u : CompilationUnit) (policy : EntryPointPolicy) :
    Except CompilationError FunctionSignature :=
  if u.compilation.documents.isEmpty then .error .noDocuments
  else
    match policy.resolve (u.compilation.scriptClass.methods.map .ofMethod) with
    | .ok m => .ok (.ofMethod m.method)
    | .error e => .error (.entryPoint e)

end CompilationUnit

end ScriptHost
