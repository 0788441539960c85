/-
# Referenced assemblies

An assembly that a script may refer to has an identity and, unless it comes from a file,
a catalog of the types it exports. The catalog is searched by name and number of type
parameters through an index of positions; two entries may have the same name.

Key definitions: `TypeDefinition`, `AssemblyMetadata.ofCatalog`, `AssemblyMetadata.ofFile`,
`AssemblyMetadata.find`.
-/
import ScriptHost.Bytes.Digest
import ScriptHost.Files.Path
import ScriptHost.Symbol.Type

namespace ScriptHost

/-- A type that an assembly exports. -/
structure TypeDefinition where
  namespaceName : String
  name : String
  arity : Nat
  kind : TypeKind
deriving DecidableEq, Repr, Inhabited

def TypeDefinition.fullName (d : TypeDefinition) : String :=
  s!"{d.namespaceName}.{d.name}"

/-- The positions of a catalog's entries by name and arity. -/
abbrev TypeIndex := List ((String × Nat) × List Nat)

namespace TypeIndex

/-- The index with the position `i` put last among those of the key. -/
def insert (key : String × Nat) (i : Nat) : TypeIndex → TypeIndex
  | [] => [(key, [i])]
  | (other, positions) :: more =>
    if other = key then (other, positions ++ [i]) :: more
    else (other, positions) :: insert key i more

/-- The positions of a key. -/
def positions (index : TypeIndex) (key : String × Nat) : List Nat :=
  (index.lookup key).getD []

/-- The index of a catalog. -/
def ofTypes (types : List TypeDefinition) : TypeIndex :=
  types.zipIdx.foldl (fun index entry => index.insert (entry.1.name, entry.1.arity) entry.2) []

end TypeIndex

/-- An assembly: its identity, what is known of its types, and its file if it has one. The
types of an assembly that comes from a file cannot be listed. -/
structure AssemblyMetadata where
  identity : AssemblyIdentity
  types : List TypeDefinition
  index : TypeIndex
  file? : Option String
deriving DecidableEq, Repr, Inhabited

namespace AssemblyMetadata

/-- An assembly with a known catalog; its name stands for its contents. -/
def ofCatalog (name : String) (types : List TypeDefinition) : AssemblyMetadata :=
  ⟨⟨name, Digest.xxh64 (Utf8.bytes name)⟩, types, .ofTypes types, none⟩

/-- An assembly in a file; it is named after the file, and the path stands for its contents. -/
def ofFile (path : String) : AssemblyMetadata :=
  ⟨⟨(Path.fileStem? path).getD path, Digest.xxh64 (Utf8.bytes path)⟩, [], [], some path⟩

def name (a : AssemblyMetadata) : String := a.identity.name

/-- Whether the types cannot be listed. -/
def isUnlisted (a : AssemblyMetadata) : Bool := a.file?.isSome

/-- The definitions of the name and arity, in catalog order. -/
def find (a : AssemblyMetadata) (name : String) (arity : Nat) : List TypeDefinition :=
  (a.index.positions (name, arity)).filterMap (a.types[·]?)

def hasTypeNamed (a : AssemblyMetadata) (name : String) : Bool :=
  a.types.any (·.name == name)

def hasNamespace (a : AssemblyMetadata) (name : String) : Bool :=
  a.types.any (·.namespaceName == name)

/-- The symbol of one of the assembly's types. -/
def symbol (a : AssemblyMetadata) (d : TypeDefinition) : TypeSymbol :=
  .named (some d.namespaceName) d.name d.kind a.identity

end AssemblyMetadata

end ScriptHost
