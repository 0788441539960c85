/-
# Debug symbols

Beside an image a document of debug symbols may be written: the sources with their
digests, and for each method the line and column where its body starts. The document is
JSON over indented lines.

Key definitions: `SequencePoint`, `DebugSymbols`, `DebugSymbols.value`,
`DebugSymbols.ofValue?`.
-/
import ScriptHost.Image.Manifest

namespace ScriptHost

open Data

/-- The name of the format that is written. -/
def symbolsFormat : String := "fnscript-symbols/1"

/-- A source and the digest of its text. -/
structure DebugDocument where
  path : String
  checksumAlgorithm : String
  checksum : String
deriving DecidableEq, Repr, Inhabited

/-- Where the body of a method starts, in the document of that number. -/
structure SequencePoint where
  method : String
  document : Nat
  line : Nat
  column : Nat
deriving DecidableEq, Repr, Inhabited

structure DebugSymbols where
  format : String
  mvid : String
  documents : List DebugDocument
  sequencePoints : List SequencePoint
deriving DecidableEq, Repr, Inhabited

/-- Lines and columns are below 2^32. -/
def lineBound : Nat := Nat.pow 2 32

namespace DebugDocument

def value (d : DebugDocument) : Value :=
  .ofEntries [("path", .text d.path), ("checksum_algorithm", .text d.checksumAlgorithm),
    ("checksum", .text d.checksum)]

def ofValue? (v : Value) : Option DebugDocument := do
  match ← v.fields? recordFormat ["path", "checksum_algorithm", "checksum"] with
  | [some path, some algorithm, some checksum] =>
    pure ⟨← path.text?, ← algorithm.text?, ← checksum.text?⟩
  | _ => none

end DebugDocument

namespace SequencePoint

def value (p : SequencePoint) : Value :=
  .ofEntries [("method", .text p.method), ("document", .natural p.document),
    ("line", .natural p.line), ("column", .natural p.column)]

def ofValue? (v : Value) : Option SequencePoint := do
  match ← v.fields? recordFormat ["method", "document", "line", "column"] with
  | [some method, some document, some line, some column] =>
    pure ⟨← method.text?, ← document.natural? bodyNumberBound, ← line.natural? lineBound,
      ← column.natural? lineBound⟩
  | _ => none

end SequencePoint

namespace DebugSymbols

def value (s : DebugSymbols) : Value :=
  .ofEntries [("format", .text s.format), ("mvid", .text s.mvid),
    ("documents", .list (s.documents.map DebugDocument.value)),
    ("sequence_points", .list (s.sequencePoints.map SequencePoint.value))]

def ofValue? (v : Value) : Option DebugSymbols := do
  match ← v.fields? recordFormat ["format", "mvid", "documents", "sequence_points"] with
  | [some format, some mvid, some documents, some points] =>
    pure ⟨← format.text?, ← mvid.text?, ← documents.listOf? DebugDocument.ofValue?,
      ← points.listOf? SequencePoint.ofValue?⟩
  | _ => none

/-- The document as it is written. -/
def bytes (s : DebugSymbols) : Bytes := Utf8.bytes s.value.pretty

/-- The document that the bytes store. -/
def ofBytes? (bs : Bytes) : Option DebugSymbols := (Json.parse? bs).bind ofValue?

/-- Whether the document has the format that is written today. -/
def isCurrent (s : DebugSymbols) : Bool := s.format == symbolsFormat

/-- The place of the first method of a name. -/
def sequencePoint? (s : DebugSymbols) (method : String) : Option SequencePoint :=
  s.sequencePoints.find? (·.method == method)

end DebugSymbols

end ScriptHost
