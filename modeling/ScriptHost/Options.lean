/-
# Compilation options

Options are read from a record of a document. A field that is left out has its standard
value, and a field nobody knows is refused.

Key definitions: `OptimizationLevel`, `CompilationOptions`, `CompilationOptions.ofValue?`.
-/
import ScriptHost.Data.Value

namespace ScriptHost

open Data

/-- The level that an image records. -/
inductive OptimizationLevel where
  | debug
  | release
deriving DecidableEq, Repr, Inhabited

namespace OptimizationLevel

/-- The byte of a level. -/
def code : OptimizationLevel → UInt8
  | debug => 0
  | release => 1

/-- The level of a byte. -/
def ofCode? : UInt8 → Option OptimizationLevel
  | 0 => some debug
  | 1 => some release
  | _ => none

@[simp] theorem ofCode?_code (l : OptimizationLevel) : ofCode? l.code = some l := by
  cases l <;> rfl

/-- The level of a name. -/
def ofText? : String → Option OptimizationLevel
  | "debug" => some debug
  | "release" => some release
  | _ => none

end OptimizationLevel

/-- How a script is compiled: the names of its assembly and of the class that holds its
members, the recorded level, and whether debug symbols are written. -/
structure CompilationOptions where
  assemblyName : String
  scriptClassName : String
  optimization : OptimizationLevel
  emitDebugSymbols : Bool
deriving DecidableEq, Repr

/-- A field that is read if it is there, and has a standard value otherwise. -/
def orStandard {α : Type} (standard : α) (read : Value → Option α) : Option Value → Option α
  | none => some standard
  | some v => read v

namespace CompilationOptions

/-- What holds where nothing is said. -/
def standard : CompilationOptions :=
  ⟨"Submission", "Submission#0", .debug, true⟩

/-- The options of a record. -/
def ofValue? (format : Format) (v : Value) : Option CompilationOptions := do
  match ← v.fields? format
      ["assembly_name", "script_class_name", "optimization", "emit_debug_symbols"] with
  | [assembly?, scriptClass?, optimization?, symbols?] =>
    let level (v : Value) : Option OptimizationLevel :=
      (v.choice? format).bind OptimizationLevel.ofText?
    pure ⟨← orStandard standard.assemblyName Value.text? assembly?,
      ← orStandard standard.scriptClassName Value.text? scriptClass?,
      ← orStandard standard.optimization level optimization?,
      ← orStandard standard.emitDebugSymbols Value.bool? symbols?⟩
  | _ => none

end CompilationOptions

end ScriptHost
