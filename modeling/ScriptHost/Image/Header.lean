/-
# The header of an image

An image starts with sixteen bytes: the magic `FSIM`, the version, the optimization level,
the flags, and the number that stands for the contents; numbers have their lowest byte
first. A reader knows one version, refuses levels it does not know, and drops flags that
mean nothing to it.

Key definitions: `ImageFlags`, `ImageHeader`, `ImageError`, `ImageHeader.chunks`,
`ImageHeader.read`.
-/
import ScriptHost.Bytes.Word
import ScriptHost.Options

namespace ScriptHost

/-- What an image says about itself, a bit each: debug symbols were written beside it (1),
the script has statements (2), the script class has no public method (4). -/
structure ImageFlags where
  bits : UInt8
deriving DecidableEq, Repr, Inhabited

namespace ImageFlags

def ofBools (debugSymbols statements noPublicEntry : Bool) : ImageFlags :=
  ⟨UInt8.ofNat (debugSymbols.toNat + 2 * statements.toNat + 4 * noPublicEntry.toNat)⟩

def debugSymbols (f : ImageFlags) : Bool := f.bits.toNat.testBit 0

def statements (f : ImageFlags) : Bool := f.bits.toNat.testBit 1

def noPublicEntry (f : ImageFlags) : Bool := f.bits.toNat.testBit 2

/-- The flags of a byte without the bits that mean nothing. -/
def ofByte (b : UInt8) : ImageFlags := ⟨b &&& 7⟩

end ImageFlags

structure ImageHeader where
  version : UInt16
  optimization : OptimizationLevel
  flags : ImageFlags
  mvid : UInt64
deriving DecidableEq, Repr, Inhabited

/-- Why bytes are no image. -/
inductive ImageError where
  | truncated
  | badMagic (found : Bytes)
  | unsupportedVersion (version : UInt16)
  | invalidLevel (code : UInt8)
  | shortBlob (declared found : Nat)
  | invalidManifest
  | invalidBody
deriving DecidableEq, Repr

namespace ImageError

/-- The wording; what a manifest is refused for has none. -/
def message : ImageError → String
  | truncated => "failed to fill whole buffer"
  | badMagic found =>
    "not an fnscript image (magic [" ++ ", ".intercalate (found.map fun b => toString b.toNat) ++ "])"
  | unsupportedVersion version => s!"unsupported image version {version.toNat}"
  | invalidLevel code => s!"invalid optimization level {code.toNat}"
  | shortBlob declared found => s!"blob declares {declared} bytes, found {found}"
  | invalidManifest => ""
  | invalidBody => "method body is not valid UTF-8"

end ImageError

/-- The four bytes every image starts with. -/
def imageMagic : Bytes := Utf8.bytes "FSIM"

/-- The version that is written and read. -/
def imageVersion : UInt16 := 1

/-- The first `n` bytes and those behind them, if there are as many. -/
def takeExactly (n : Nat) (bs : Bytes) : Option (Bytes × Bytes) :=
  if n ≤ bs.length then some (bs.take n, bs.drop n) else none

namespace ImageHeader

/-- The pieces a header is written in. -/
def chunks (h : ImageHeader) : List Bytes :=
  [imageMagic, littleEndian 2 h.version.toNat, [h.optimization.code, h.flags.bits],
    littleEndian 8 h.mvid.toNat]

/-- The bytes of a header. -/
def bytes (h : ImageHeader) : Bytes := h.chunks.flatten

@[simp] theorem length_bytes (h : ImageHeader) : h.bytes.length = 16 := by
  have : imageMagic.length = 4 := by decide
  simp [bytes, chunks, this]

/-- The header in front, and the bytes behind it. -/
def read (bs : Bytes) : Except ImageError (ImageHeader × Bytes) :=
  match bs with
  | m0 :: m1 :: m2 :: m3 :: v0 :: v1 :: level :: flags
      :: i0 :: i1 :: i2 :: i3 :: i4 :: i5 :: i6 :: i7 :: rest =>
    let magic := [m0, m1, m2, m3]
    let version := UInt16.ofNat (ofLittleEndian [v0, v1])
    if magic ≠ imageMagic then .error (.badMagic magic)
    else if version ≠ imageVersion then .error (.unsupportedVersion version)
    else match OptimizationLevel.ofCode? level with
      | none => .error (.invalidLevel level)
      | some optimization =>
        let mvid := UInt64.ofNat (ofLittleEndian [i0, i1, i2, i3, i4, i5, i6, i7])
        .ok (⟨version, optimization, .ofByte flags, mvid⟩, rest)
  | _ => .error .truncated

end ImageHeader

end ScriptHost
