/-
# Host configuration

A host reads one TOML document with three tables: how scripts are compiled, where file
references are looked for, and how the host logs. All of them may be missing; a setting
nobody knows, or of the wrong type, is refused, and so is a log level or format without a
meaning. Relative folders in a file are taken from where the file is.

Key definitions: `HostConfig`, `ConfigError`, `HostConfig.ofText`, `HostConfig.load`.
-/
import ScriptHost.Assembly.Library
import ScriptHost.Data.Toml.Parser
import ScriptHost.Host.LogOptions
import ScriptHost.Options

namespace ScriptHost

open Data

structure HostConfig where
  compilation : CompilationOptions
  probingPaths : List String
  logLevel? : Option String
  logFormat? : Option String
deriving DecidableEq, Repr

/-- Why a configuration cannot be used. -/
inductive ConfigError where
  | io (path : String) (fault : FileFault)
  | invalidDocument
  | unknownLogLevel (name : String)
  | unknownLogFormat (name : String)
deriving DecidableEq, Repr

/-- The wording of an error in the settings; files and documents are refused without one. -/
def ConfigError.message? : ConfigError → Option String
  | unknownLogLevel name => some s!"unknown log level '{name}'"
  | unknownLogFormat name => some s!"unknown log format '{name}'"
  | io _ _ | invalidDocument => none

namespace HostConfig

/-- What holds where nothing is said. -/
def standard : HostConfig := ⟨.standard, [], none, none⟩

/-- The folders of the table of references. -/
def probingPathsOf? (v : Value) : Option (List String) := do
  match ← v.fields? Toml.format ["probing_paths"] with
  | [paths?] => orStandard [] (·.listOf? Value.text?) paths?
  | _ => none

/-- The level and the format of the table of logging. -/
def loggingOf? (v : Value) : Option (Option String × Option String) := do
  match ← v.fields? Toml.format ["level", "format"] with
  | [level?, format?] =>
    pure (← orStandard none (·.text?.map some) level?, ← orStandard none (·.text?.map some) format?)
  | _ => none

/-- The configuration of a record. -/
def ofValue? (v : Value) : Option HostConfig := do
  match ← v.fields? Toml.format ["compilation", "references", "logging"] with
  | [compilation?, references?, logging?] =>
    let compilation ← orStandard .standard (CompilationOptions.ofValue? Toml.format) compilation?
    let probingPaths ← orStandard [] probingPathsOf? references?
    let (level?, format?) ← orStandard (none, none) loggingOf? logging?
    pure ⟨compilation, probingPaths, level?, format?⟩
  | _ => none

/-- The log options of the configuration alone. -/
def configuredLogOptions (c : HostConfig) : Except ConfigError LogOptions := do
  let level ← match c.logLevel? with
    | none => pure LogOptions.standard.level
    | some name =>
      match LogLevel.ofText? name with
      | some level => pure level
      | none => throw (.unknownLogLevel name)
  let format ← match c.logFormat? with
    | none => pure LogOptions.standard.format
    | some name =>
      match LogFormat.ofText? name with
      | some format => pure format
      | none => throw (.unknownLogFormat name)
  pure ⟨format, level⟩

/-- The log options under those of the environment. -/
def logOptions (c : HostConfig) (envFormat? envLevel? : Option String) :
    Except ConfigError LogOptions :=
  c.configuredLogOptions.map (·.overridden envFormat? envLevel?)

/-- The configuration of a document. -/
def ofText (text : String) : Except ConfigError HostConfig :=
  match (Toml.parse? text).bind ofValue? with
  | none => .error .invalidDocument
  | some c => c.configuredLogOptions.map fun _ => c

/-- The configuration with its relative folders taken from `base`. -/
def rebase (c : HostConfig) (base : String) : HostConfig :=
  { c with
    probingPaths := c.probingPaths.map fun path =>
      if Path.isAbsolute path then path else Path.join base path }

/-- The configuration in a file. -/
def load (fs : FileTree) (path : String) : Except ConfigError HostConfig :=
  match fs.readText path with
  | .error fault => .error (.io path fault)
  | .ok text =>
    (ofText text).map fun c =>
      match Path.parent? path with
      | some base => c.rebase base
      | none => c

/-- The host's assemblies with the folders of the configuration. -/
def library (c : HostConfig) : AssemblyLibrary :=
  c.probingPaths.foldl AssemblyLibrary.addProbingPath .standard

end HostConfig

end ScriptHost
