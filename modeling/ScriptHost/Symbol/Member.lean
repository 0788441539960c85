/-
# Members of the script class

The top-level members of a script are members of one class. Methods may overload each
other; a member without an access modifier is private.

Key definitions: `ParameterSymbol`, `MethodSymbol`, `FieldSymbol`, `Member`, `ScriptClass`.
-/
import ScriptHost.Diagnostic
import ScriptHost.Item.Basic
import ScriptHost.Symbol.Type

namespace ScriptHost

/-- A parameter with its resolved type. -/
structure ParameterSymbol where
  name : String
  type : TypeSymbol
  mode : PassingMode
  hasDefault : Bool
deriving Repr, Inhabited

/-- `ref Payload input`; a parameter passed by value has no word in front. -/
def ParameterSymbol.text (p : ParameterSymbol) : String :=
  match p.mode.keyword? with
  | some word => s!"{word} {p.type.text} {p.name}"
  | none => s!"{p.type.text} {p.name}"

/-- Parameters as a list in parentheses. -/
def parameterListText (ps : List ParameterSymbol) : String :=
  "(" ++ ", ".intercalate (ps.map ParameterSymbol.text) ++ ")"

structure MethodSymbol where
  name : String
  containingType : String
  assembly : AssemblyIdentity
  modifiers : Modifiers
  returns : TypeSymbol
  typeParameters : List String
  parameters : List ParameterSymbol
  location : Location
deriving Repr, Inhabited

namespace MethodSymbol

def isPublic (m : MethodSymbol) : Bool :=
  m.modifiers.accessibility == .publicAccess

def isAsync (m : MethodSymbol) : Bool := m.modifiers.isAsync

/-- `Void Run(Order order, ref Int32 count)`. -/
def text (m : MethodSymbol) : String :=
  s!"{m.returns.text} {m.name}{parameterListText m.parameters}"

end MethodSymbol

/-- A field or a property. -/
structure FieldSymbol where
  name : String
  type : TypeSymbol
  modifiers : Modifiers
  location : Location
deriving Repr, Inhabited

inductive Member where
  | method (m : MethodSymbol)
  | field (f : FieldSymbol)
  | property (p : FieldSymbol)
deriving Repr, Inhabited

namespace Member

def name : Member → String
  | method m => m.name
  | field f => f.name
  | property p => p.name

def location : Member → Location
  | method m => m.location
  | field f => f.location
  | property p => p.location

def method? : Member → Option MethodSymbol
  | method m => some m
  | _ => none

end Member

/-- The class that holds the top-level members of a script. -/
structure ScriptClass where
  name : String
  assembly : AssemblyIdentity
  members : List Member
deriving Repr, Inhabited

/-- The methods, in declaration order. -/
def ScriptClass.methods (c : ScriptClass) : List MethodSymbol :=
  c.members.filterMap Member.method?

end ScriptHost
