/-
# Documents of a compilation

A compilation is made of documents: script sources, each with the path it is reported
under. The sources together have a fingerprint, the digest of all paths and texts with a
zero byte behind each, which stands for what the compiled assembly contains.

Key definitions: `SourceText`, `Document`, `Document.read`, `framing`, `fingerprint`.
-/
import ScriptHost.Bytes.Digest
import ScriptHost.Diagnostic
import ScriptHost.Files.Path
import ScriptHost.Script.Basic

namespace ScriptHost

open Source

/-- A script source and its path. -/
structure SourceText where
  path : String
  text : String
deriving DecidableEq, Repr, Inhabited

/-- The bytes that stand for a list of sources. -/
def framing (sources : List SourceText) : Bytes :=
  sources.flatMap fun s => Utf8.bytes s.path ++ [0] ++ Utf8.bytes s.text ++ [0]

/-- The number that stands for the contents of an assembly made from the sources. -/
def fingerprint (sources : List SourceText) : UInt64 :=
  Digest.xxh64 (framing sources)

/-- A `#r` reference and where it stands. -/
structure SourceReference where
  reference : String
  location : Location
deriving DecidableEq, Repr

/-- A source with what was read of it. -/
structure Document where
  source : SourceText
  script : Script
  errors : List ParseError
deriving Repr, Inhabited

namespace Document

/-- Reads a source to its end, whatever is wrong with it. -/
def read (source : SourceText) : Document :=
  let (script, errors) := Script.parseLenient source.text
  ⟨source, script, errors⟩

def path (d : Document) : String := d.source.path

def text (d : Document) : String := d.source.text

/-- The folder that relative references start from. -/
def folder? (d : Document) : Option String := Path.folder? d.path

/-- What is wrong with the document's text. -/
def findings (d : Document) : List Diagnostic :=
  d.errors.map (.ofParseError d.path)

/-- The references of the document, in order. -/
def references (d : Document) : List SourceReference :=
  d.script.references.map fun r => ⟨r.reference, .within d.path r.span⟩

/-- The targets of the document's usings, in order. -/
def usings (d : Document) : List String :=
  d.script.usings.map UsingDirective.target

/-- The digest of the text. -/
def checksum (d : Document) : UInt64 :=
  Digest.xxh64 (Utf8.bytes d.text)

end Document

end ScriptHost
