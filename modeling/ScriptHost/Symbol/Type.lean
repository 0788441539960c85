/-
# Types as a compilation knows them

A type symbol is a node: a name with its namespace, a kind, the assembly that owns it, and
type arguments. Arrays, type parameters and types that failed to resolve are nodes of
their own kinds; an array's only argument is its element.

A type is local to an assembly if the assembly owns it, or if it is a generic type with a
local argument at any depth. Arrays are not generic types and nobody owns them, so an
array is never local.

Key definitions: `AssemblyIdentity`, `TypeKind`, `TypeSymbol`, `TypeSymbol.text`,
`TypeSymbol.isLocalTo`.
-/
import ScriptHost.Bytes.Word

namespace ScriptHost

/-- An assembly: its name and the number that stands for its contents. -/
structure AssemblyIdentity where
  name : String
  mvid : UInt64
deriving DecidableEq, Repr, Inhabited

def AssemblyIdentity.text (a : AssemblyIdentity) : String :=
  s!"{a.name}, mvid={hex64 a.mvid}"

inductive TypeKind where
  | classType
  | structType
  | interfaceType
  | enumType
  | delegateType
  | array
  | typeParameter
  | error
deriving DecidableEq, Repr, Inhabited

namespace TypeKind

/-- Whether values of the kind are copied. -/
def isValueType : TypeKind → Bool
  | structType | enumType => true
  | _ => false

/-- The kind as an image's manifest writes it. -/
def text : TypeKind → String
  | classType => "class"
  | structType => "struct"
  | interfaceType => "interface"
  | enumType => "enum"
  | delegateType => "delegate"
  | array => "array"
  | typeParameter => "typeparameter"
  | error => "error"

end TypeKind

inductive TypeSymbol where
  | mk (namespace? : Option String) (name : String) (kind : TypeKind)
    (assembly? : Option AssemblyIdentity) (args : List TypeSymbol)
deriving Repr, Inhabited

namespace TypeSymbol

/-- A type with a name that `assembly` owns. -/
def named (namespace? : Option String) (name : String) (kind : TypeKind)
    (assembly : AssemblyIdentity) : TypeSymbol :=
  mk namespace? name kind (some assembly) []

/-- The array of an element type. -/
def arrayOf (element : TypeSymbol) : TypeSymbol :=
  mk none "Array" .array none [element]

/-- A type parameter of a method of `assembly`. -/
def parameter (name : String) (assembly : AssemblyIdentity) : TypeSymbol :=
  mk none name .typeParameter (some assembly) []

/-- A type that could not be resolved. -/
def unresolved (name : String) : TypeSymbol :=
  mk none name .error none []

/-- The same type with other type arguments. -/
def construct : TypeSymbol → List TypeSymbol → TypeSymbol
  | mk ns name kind assembly _, args => mk ns name kind assembly args

/-- The type with the type arguments behind its name, and as it is if there are none. -/
def instantiate (t : TypeSymbol) : List TypeSymbol → TypeSymbol
  | [] => t
  | first :: more => t.construct (first :: more)

def namespace? : TypeSymbol → Option String
  | mk ns _ _ _ _ => ns

def name : TypeSymbol → String
  | mk _ name _ _ _ => name

def kind : TypeSymbol → TypeKind
  | mk _ _ kind _ _ => kind

/-- The assembly that owns the type. -/
def assembly? : TypeSymbol → Option AssemblyIdentity
  | mk _ _ _ assembly _ => assembly

def args : TypeSymbol → List TypeSymbol
  | mk _ _ _ _ args => args

/-- Whether the type is constructed with type arguments. -/
def isGeneric (t : TypeSymbol) : Bool :=
  t.kind != .array && !t.args.isEmpty

/-- The element of an array. -/
def element? (t : TypeSymbol) : Option TypeSymbol :=
  if t.kind = .array then t.args.head? else none

/-- The name with its namespace. -/
def fullName (t : TypeSymbol) : String :=
  match t.namespace? with
  | some ns => s!"{ns}.{t.name}"
  | none => t.name

def isVoid (t : TypeSymbol) : Bool :=
  t.namespace? == some "System" && t.name == "Void"

mutual
/-- The type as source would spell it, without namespaces: `List<Payload>`, `Payload[]`. -/
def text : TypeSymbol → String
  | mk _ name kind _ args =>
    match args with
    | [] => name
    | first :: more =>
      if kind = .array then text first ++ "[]"
      else name ++ "<" ++ text first ++ textsAfter more ++ ">"

/-- The texts of the arguments after the first, each behind a comma. -/
def textsAfter : List TypeSymbol → String
  | [] => ""
  | t :: more => ", " ++ text t ++ textsAfter more
end

mutual
/-- Whether the type belongs to the assembly, or is generic with an argument that does. -/
def isLocalTo (assembly : AssemblyIdentity) : TypeSymbol → Bool
  | mk _ _ kind owner args =>
    owner == some assembly || (kind != .array && anyLocalTo assembly args)

/-- Whether one of the types is local to the assembly. -/
def anyLocalTo (assembly : AssemblyIdentity) : List TypeSymbol → Bool
  | [] => false
  | t :: more => isLocalTo assembly t || anyLocalTo assembly more
end

end TypeSymbol

end ScriptHost
