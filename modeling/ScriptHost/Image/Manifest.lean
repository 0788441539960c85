/-
# The manifest of an image

The manifest tells what an image contains: the assembly and those it refers to, the
declared types, the members of the script class in order, each method with the number of
its body, and the numbers of the bodies that are statements. It is kept as one record of
JSON whose fields have a fixed order; a member without a body leaves that field out.

Key definitions: `Manifest`, `Manifest.value`, `Manifest.ofValue?`.
-/
import ScriptHost.Bytes.Utf8
import ScriptHost.Data.Json.Parser
import ScriptHost.Data.Json.Printer

namespace ScriptHost

open Data

inductive ManifestMemberKind where
  | method
  | field
  | property
deriving DecidableEq, Repr, Inhabited

namespace ManifestMemberKind

def text : ManifestMemberKind → String
  | method => "method"
  | field => "field"
  | property => "property"

/-- The kind of a name. -/
def ofText? : String → Option ManifestMemberKind
  | "method" => some method
  | "field" => some field
  | "property" => some property
  | _ => none

@[simp] theorem ofText?_text (k : ManifestMemberKind) : ofText? k.text = some k := by
  cases k <;> rfl

end ManifestMemberKind

/-- A member of the script class: its rendered declaration, and for a method the number of
its body. -/
structure ManifestMember where
  kind : ManifestMemberKind
  name : String
  signature : String
  isPublic : Bool
  isStatic : Bool
  body? : Option Nat
deriving DecidableEq, Repr, Inhabited

/-- A type that the script declares. -/
structure ManifestType where
  name : String
  kind : String
deriving DecidableEq, Repr, Inhabited

/-- An assembly that the script refers to. -/
structure ManifestReference where
  name : String
  mvid : String
deriving DecidableEq, Repr, Inhabited

structure Manifest where
  assembly : String
  mvid : String
  references : List ManifestReference
  types : List ManifestType
  scriptClass : String
  members : List ManifestMember
  statements : List Nat
deriving DecidableEq, Repr, Inhabited

/-- Numbers of bodies are below 2^64. -/
def bodyNumberBound : Nat := Nat.pow 2 64

/-- How records of an image are read: what nobody knows is passed over. -/
def recordFormat : Format := Json.format true

namespace ManifestMember

def value (m : ManifestMember) : Value :=
  .ofEntries
    ([("kind", .text m.kind.text), ("name", .text m.name), ("signature", .text m.signature),
      ("is_public", .bool m.isPublic), ("is_static", .bool m.isStatic)]
      ++ (m.body?.map fun n => ("body", .natural n)).toList)

/-- A number that may be left out or `null`. -/
def body (v? : Option Value) : Option (Option Nat) :=
  match v? with
  | none | some .null => some none
  | some v => (v.natural? bodyNumberBound).map some

def ofValue? (v : Value) : Option ManifestMember := do
  match ← v.fields? recordFormat
      ["kind", "name", "signature", "is_public", "is_static", "body"] with
  | [some kind, some name, some signature, some isPublic, some isStatic, body?] => do
    let kind ← ManifestMemberKind.ofText? (← kind.choice? recordFormat)
    pure ⟨kind, ← name.text?, ← signature.text?, ← isPublic.bool?, ← isStatic.bool?, ← body body?⟩
  | _ => none

end ManifestMember

namespace ManifestType

def value (t : ManifestType) : Value :=
  .ofEntries [("name", .text t.name), ("kind", .text t.kind)]

def ofValue? (v : Value) : Option ManifestType := do
  match ← v.fields? recordFormat ["name", "kind"] with
  | [some name, some kind] => pure ⟨← name.text?, ← kind.text?⟩
  | _ => none

end ManifestType

namespace ManifestReference

def value (r : ManifestReference) : Value :=
  .ofEntries [("name", .text r.name), ("mvid", .text r.mvid)]

def ofValue? (v : Value) : Option ManifestReference := do
  match ← v.fields? recordFormat ["name", "mvid"] with
  | [some name, some mvid] => pure ⟨← name.text?, ← mvid.text?⟩
  | _ => none

end ManifestReference

namespace Manifest

def value (m : Manifest) : Value :=
  .ofEntries
    [("assembly", .text m.assembly), ("mvid", .text m.mvid),
      ("references", .list (m.references.map ManifestReference.value)),
      ("types", .list (m.types.map ManifestType.value)),
      ("script_class", .text m.scriptClass),
      ("members", .list (m.members.map ManifestMember.value)),
      ("statements", .list (m.statements.map .natural))]

def ofValue? (v : Value) : Option Manifest := do
  match ← v.fields? recordFormat
      ["assembly", "mvid", "references", "types", "script_class", "members", "statements"] with
  | [some assembly, some mvid, some references, some types, some scriptClass, some members,
      some statements] =>
    pure ⟨← assembly.text?, ← mvid.text?, ← references.listOf? ManifestReference.ofValue?,
      ← types.listOf? ManifestType.ofValue?, ← scriptClass.text?,
      ← members.listOf? ManifestMember.ofValue?,
      ← statements.listOf? (·.natural? bodyNumberBound)⟩
  | _ => none

/-- The manifest as it is stored. -/
def bytes (m : Manifest) : Bytes := Utf8.bytes m.value.compact

/-- The manifest that the bytes store. -/
def ofBytes? (bs : Bytes) : Option Manifest := (Json.parse? bs).bind ofValue?

end Manifest

end ScriptHost
