/-
# Building functions

A function is a script file and perhaps the name of its entry point. Building it reads the
file, looks at the diagnostics, emits the image into memory and selects the entry point; a
function that was built is ready to be loaded and called.

Key definitions: `FunctionMetadata`, `ServiceError`, `FunctionMetadata.unit`,
`FunctionMetadata.build`, `CompilationService`.
-/
import ScriptHost.CompilationUnit
import ScriptHost.Host.ScriptType

namespace ScriptHost

/-- What a host knows of a function before it is built. -/
structure FunctionMetadata where
  name : String
  scriptFile : String
  entryPoint? : Option String
deriving DecidableEq, Repr, Inhabited

namespace FunctionMetadata

/-- The folder of the script file. -/
def folder? (f : FunctionMetadata) : Option String := Path.folder? f.scriptFile

def scriptType? (f : FunctionMetadata) : Option ScriptType := ScriptType.ofPath? f.scriptFile

/-- How the entry point is selected. -/
def policy (f : FunctionMetadata) : EntryPointPolicy := ⟨f.entryPoint?⟩

end FunctionMetadata

/-- Why a function cannot be built. -/
inductive ServiceError where
  | unsupported (type : ScriptType)
  | io (path : String) (fault : FileFault)
  | compilation (cause : CompilationError)
deriving DecidableEq, Repr

namespace ServiceError

/-- The wording for a type that cannot be compiled. -/
def unsupportedMessage (type : ScriptType) : String :=
  s!"unsupported script type '{type.text}'"

/-- Whether the script is to blame. -/
def isUserError : ServiceError → Bool
  | compilation cause => cause.isUserError
  | _ => false

/-- The diagnostics that come with the error. -/
def carried : ServiceError → List Diagnostic
  | compilation cause => cause.carried
  | _ => []

end ServiceError

/-- A function that was built. -/
structure FunctionAssembly where
  name : String
  signature : FunctionSignature
  image : Bytes
  symbols? : Option Bytes
  diagnostics : List Diagnostic
deriving Repr

/-- The image as it is read back. -/
def FunctionAssembly.loadImage (a : FunctionAssembly) : Except ImageError Image :=
  (Image.read a.image).map (·.1)

namespace FunctionMetadata

/-- The compilation unit of a function, under the options and with the assemblies of the source.
A file whose extension stands for another type of script is not read. -/
def unit (f : FunctionMetadata) (options : CompilationOptions) (source : ReferenceSource)
    (fs : FileTree) : Except ServiceError CompilationUnit :=
  match f.scriptType?.filter (!ScriptType.supported.contains ·) with
  | some type => .error (.unsupported type)
  | none =>
    match fs.readText f.scriptFile with
    | .error fault => .error (.io f.scriptFile fault)
    | .ok text => .ok ⟨.create options [⟨f.scriptFile, text⟩] source, hostAnalyzers⟩

/-- The sinks that a function is built into. -/
def outputs (options : CompilationOptions) : Outputs :=
  ⟨.unlimited, if options.emitDebugSymbols then some .unlimited else none, false⟩

/-- Builds a function, unless the build was cancelled before. -/
def build (f : FunctionMetadata) (options : CompilationOptions) (source : ReferenceSource)
    (fs : FileTree) (cancelled : Bool) : Except ServiceError FunctionAssembly := do
  let u ← f.unit options source fs
  match u.diagnostics fs with
  | .error fault => throw (.compilation (.analyzer fault))
  | .ok _ =>
    if cancelled then throw (.compilation .cancelled)
    else
      match u.emit fs (outputs options) with
      | (.error e, _) => throw (.compilation e)
      | (.ok found, o) =>
        match u.signature f.policy with
        | .error e => throw (.compilation e)
        | .ok signature =>
          pure ⟨f.name, signature, o.image.taken,
            (o.symbols?.map Sink.taken).filter (!·.isEmpty), found⟩

end FunctionMetadata

/-- Compiles functions with fixed options and assemblies. -/
structure CompilationService where
  library : AssemblyLibrary
  options : CompilationOptions
deriving Repr

namespace CompilationService

/-- The service for a type of script. -/
def create (library : AssemblyLibrary) (options : CompilationOptions) (type : ScriptType) :
    Except ServiceError CompilationService :=
  if ScriptType.supported.contains type then .ok ⟨library, options⟩ else .error (.unsupported type)

def language : String := ScriptType.csharp.text

def fileTypes : List String := ScriptType.csharp.extensions

/-- What is built stays in memory. -/
def persistsOutput : Bool := false

/-- The compilation unit of a function, with the library's assemblies. -/
def unit (s : CompilationService) (fs : FileTree) (f : FunctionMetadata) :
    Except ServiceError CompilationUnit :=
  f.unit s.options (s.library.source fs) fs

/-- Builds a function with the library's assemblies. -/
def build (s : CompilationService) (fs : FileTree) (f : FunctionMetadata) (cancelled : Bool) :
    Except ServiceError FunctionAssembly :=
  f.build s.options (s.library.source fs) fs cancelled

end CompilationService

end ScriptHost
