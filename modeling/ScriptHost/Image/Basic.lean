/-
# Images

Behind the header an image holds a manifest and the bodies: the manifest behind its length,
the number of bodies, and each body, as UTF-8, behind its length. Lengths and the number
are four bytes, the lowest first, so that a reader knows at every point how much is to
come; what stands behind the last body is not looked at.

Key definitions: `Image`, `Image.read`, `Image.bytes?`, `Image.methodBody?`.
-/
import ScriptHost.Image.Header
import ScriptHost.Image.Manifest

namespace ScriptHost

structure Image where
  header : ImageHeader
  manifest : Manifest
  bodies : List String
deriving DecidableEq, Repr

/-- Why something cannot be written. -/
inductive WriteFault where
  | sinkFull
  | blobTooLong
  | tooManyBodies
deriving DecidableEq, Repr

def WriteFault.message : WriteFault → String
  | sinkFull => "sink full"
  | blobTooLong => "blob exceeds 4 GiB"
  | tooManyBodies => "too many bodies"

/-- Lengths and numbers in an image are below 2^32. -/
def wordBound : Nat := Nat.pow 2 32

/-- The pieces of a run of bytes behind its length. -/
def blobChunks (bs : Bytes) : Except WriteFault (List Bytes) :=
  if bs.length < wordBound then .ok [littleEndian 4 bs.length, bs] else .error .blobTooLong

/-- The four bytes of the number of bodies. -/
def countChunk (n : Nat) : Except WriteFault Bytes :=
  if n < wordBound then .ok (littleEndian 4 n) else .error .tooManyBodies

/-- The four-byte number in front, and the bytes behind it. -/
def readWord (bs : Bytes) : Except ImageError (Nat × Bytes) :=
  match takeExactly 4 bs with
  | some (word, rest) => .ok (ofLittleEndian word, rest)
  | none => .error .truncated

/-- The run of bytes behind the length in front, and the bytes behind it. -/
def readBlob (bs : Bytes) : Except ImageError (Bytes × Bytes) := do
  let (size, rest) ← readWord bs
  match takeExactly size rest with
  | some blob => pure blob
  | none => throw (.shortBlob size rest.length)

/-- So many bodies in front, and the bytes behind them. -/
def readBodies : Nat → Bytes → Except ImageError (List String × Bytes)
  | 0, bs => .ok ([], bs)
  | n + 1, bs => do
    let (blob, rest) ← readBlob bs
    match Utf8.string? blob with
    | none => throw .invalidBody
    | some body =>
      let (bodies, rest) ← readBodies n rest
      pure (body :: bodies, rest)

namespace Image

/-- The image in front, and the bytes behind it. -/
def read (bs : Bytes) : Except ImageError (Image × Bytes) := do
  let (header, rest) ← ImageHeader.read bs
  let (blob, rest) ← readBlob rest
  match Manifest.ofBytes? blob with
  | none => throw .invalidManifest
  | some manifest =>
    let (count, rest) ← readWord rest
    let (bodies, rest) ← readBodies count rest
    pure (⟨header, manifest, bodies⟩, rest)

/-- The bytes of an image, unless a length does not fit. -/
def bytes? (i : Image) : Except WriteFault Bytes := do
  let manifest ← blobChunks i.manifest.bytes
  let count ← countChunk i.bodies.length
  let bodies ← i.bodies.mapM fun body => blobChunks (Utf8.bytes body)
  pure (i.header.bytes ++ manifest.flatten ++ count ++ (bodies.map List.flatten).flatten)

/-- The body of the first method of a name. -/
def methodBody? (i : Image) (name : String) : Option String := do
  let m ← i.manifest.members.find? fun m => m.kind = .method ∧ m.name = name
  let n ← m.body?
  i.bodies[n]?

end Image

end ScriptHost
