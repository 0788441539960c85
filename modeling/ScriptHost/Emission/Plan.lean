/-
# Emitting a compilation

A compilation without errors is emitted as an image and, if the options ask for them and
there is a sink, debug symbols behind it. What is written is fixed before the first byte
is: a plan of writes, with a point where cancelling takes effect in front of everything
and in front of every body.

Key definitions: `Compilation.manifest`, `Compilation.image`, `Compilation.debugSymbols`,
`Compilation.plan`, `Compilation.emit`.
-/
import ScriptHost.Binding.Compilation
import ScriptHost.Emission.Sink
import ScriptHost.Image.DebugSymbols

namespace ScriptHost

/-- A member in the manifest; `body?` is the number of its body if it is a method. -/
def ManifestMember.ofMember (body? : Option Nat) : Member → ManifestMember
  | .method m => ⟨.method, m.name, m.text, m.isPublic, m.modifiers.isStatic, body?⟩
  | .field f =>
    ⟨.field, f.name, s!"{f.type.text} {f.name}", f.modifiers.isPublic, f.modifiers.isStatic, none⟩
  | .property p =>
    ⟨.property, p.name, s!"{p.type.text} {p.name}", p.modifiers.isPublic, p.modifiers.isStatic,
      none⟩

namespace Compilation

/-- The number of the body that the member at `index` runs. -/
def bodyOf? (c : Compilation) (index : Nat) : Option Nat :=
  c.bodies.findIdx? (·.member? == some index)

/-- The numbers of the bodies that are statements, in order. -/
def statements (c : Compilation) : List Nat :=
  c.bodies.zipIdx.filterMap fun (b, n) => if b.member?.isNone then some n else none

def manifest (c : Compilation) : Manifest where
  assembly := c.assembly.name
  mvid := hex64 c.assembly.mvid
  references := c.references.map fun r => ⟨r.name, hex64 r.identity.mvid⟩
  types := c.declaredTypes.map fun t => ⟨t.text, t.kind.text⟩
  scriptClass := c.scriptClass.name
  members := c.scriptClass.members.zipIdx.map fun (m, i) => .ofMember (c.bodyOf? i) m
  statements := c.statements

/-- The header of the image, written with or without debug symbols beside it. -/
def header (c : Compilation) (withSymbols : Bool) : ImageHeader where
  version := imageVersion
  optimization := c.options.optimization
  flags := .ofBools withSymbols (c.bodies.any (·.member?.isNone))
    (!c.scriptClass.methods.any (·.isPublic))
  mvid := c.assembly.mvid

/-- The image of a compilation. -/
def image (c : Compilation) (withSymbols : Bool) : Image :=
  ⟨c.header withSymbols, c.manifest, c.bodies.map c.bodyText⟩

/-- Where a body starts, if a method runs it. -/
def sequencePoint? (c : Compilation) (b : BoundBody) : Option SequencePoint := do
  let m ← (← c.scriptClass.members[← b.member?]?).method?
  pure ⟨m.name, b.document, b.body.span.line, b.body.span.column⟩

/-- The debug symbols of a compilation. -/
def debugSymbols (c : Compilation) : DebugSymbols where
  format := symbolsFormat
  mvid := hex64 c.assembly.mvid
  documents := c.documents.map fun d => ⟨d.path, "xxh64", hex64 d.checksum⟩
  sequencePoints := c.bodies.filterMap c.sequencePoint?

end Compilation

/-- The steps that write a run of bytes behind its length. -/
def blobSteps (bs : Bytes) : List EmitStep :=
  match blobChunks bs with
  | .ok chunks => chunks.map .image
  | .error fault => [.refuse fault]

/-- The step that writes the number of bodies. -/
def countStep (n : Nat) : EmitStep :=
  match countChunk n with
  | .ok chunk => .image chunk
  | .error fault => .refuse fault

/-- The steps that write an image, with a checkpoint in front of every body. -/
def Image.steps (i : Image) : List EmitStep :=
  i.header.chunks.map .image ++ blobSteps i.manifest.bytes ++ [countStep i.bodies.length]
    ++ i.bodies.flatMap fun body => .checkpoint :: blobSteps (Utf8.bytes body)

/-- What an emission reports when it ran to its end: whether an image was written, and the
findings of the compilation. -/
structure EmitReport where
  success : Bool
  findings : List Diagnostic
deriving DecidableEq, Repr

namespace Compilation

/-- Whether debug symbols are written to these outputs. -/
def writesSymbols (c : Compilation) (o : Outputs) : Bool :=
  c.options.emitDebugSymbols && o.symbols?.isSome

/-- The steps of emitting a compilation. -/
def plan (c : Compilation) (withSymbols : Bool) : List EmitStep :=
  .checkpoint :: (c.image withSymbols).steps
    ++ if withSymbols then [.symbols c.debugSymbols.bytes] else []

/-- Emits a compilation. One with errors is not emitted. -/
def emit (c : Compilation) (o : Outputs) : Except EmitError EmitReport × Outputs :=
  if hasErrors c.findings then (.ok ⟨false, c.findings⟩, o)
  else
    match o.run (c.plan (c.writesSymbols o)) with
    | (.ok (), o) => (.ok ⟨true, c.findings⟩, o)
    | (.error e, o) => (.error e, o)

end Compilation

end ScriptHost
