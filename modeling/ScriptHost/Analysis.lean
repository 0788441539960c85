/-
# Analyzers

An analyzer looks at a compilation, and perhaps at the host's files, and reports findings.
Analyzers run one after the other; one that fails ends the run with its fault. Two rules
come with the host: file references have to exist beside the script (AF006), and async
methods should not return void (AF008).

Key definitions: `Analyzer`, `AnalyzerFault`, `invalidFileReference`, `asyncVoid`,
`analyze`.
-/
import ScriptHost.Binding.Compilation

namespace ScriptHost

/-- An analyzer failed; this is no finding. -/
structure AnalyzerFault where
  analyzer : String
  reason : String
deriving DecidableEq, Repr

def AnalyzerFault.message (f : AnalyzerFault) : String :=
  s!"analyzer '{f.analyzer}' failed: {f.reason}"

/-- A rule that is checked on compilations. -/
structure Analyzer where
  id : String
  run : FileTree → Compilation → Except AnalyzerFault (List Diagnostic)

/-- The place where a file reference of a document is looked for: beside the document, if
it is relative and the document's path names a folder. -/
def besideDocument (d : Document) (reference : String) : String :=
  match d.folder? with
  | some folder => Path.join folder reference
  | none => reference

/-- The report of a file reference that is no file beside its document. -/
def SourceReference.notBeside (r : SourceReference) : Diagnostic :=
  .warning "AF006"
    (s!"The reference '{r.reference}' is invalid. If you are attempting to add a framework "
      ++ "reference, please remove the '.dll' file extension.")
    r.location

/-- The file references of a document that are not files beside it. -/
def missingFileReferences (fs : FileTree) (d : Document) : List Diagnostic :=
  (d.references.filter fun r =>
      isFileReference r.reference && !fs.isFile (besideDocument d r.reference)).map
    SourceReference.notBeside

/-- Reports file references that do not exist; often these are framework assemblies written
with a file extension. -/
def invalidFileReference : Analyzer where
  id := "AF006"
  run fs c := .ok (c.documents.flatMap (missingFileReferences fs))

/-- Reports async methods without a result: nobody sees when they end or fail. -/
def asyncVoid : Analyzer where
  id := "AF008"
  run _ c :=
    .ok ((c.scriptClass.methods.filter fun m => m.isAsync && m.returns.isVoid).map fun m =>
      .warning "AF008"
        (s!"Method '{m.name}' is async and returns void. Return a Task so that the host can "
          ++ "observe completion and errors.")
        m.location)

/-- The analyzers of the host. -/
def hostAnalyzers : List Analyzer := [invalidFileReference, asyncVoid]

/-- The findings of all analyzers, in their order. -/
def analyze (fs : FileTree) (c : Compilation) : List Analyzer → Except AnalyzerFault (List Diagnostic)
  | [] => .ok []
  | a :: more => do
    let found ← a.run fs c
    let rest ← analyze fs c more
    pure (found ++ rest)

end ScriptHost
