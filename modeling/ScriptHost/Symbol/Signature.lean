/-
# The signature of an entry point

How a host calls a method: the class, the name, the parameters, and whether a parameter's
type is known only inside the compiled script, so that the call has to be bound late. Two
signatures are the same shape when all of this agrees as text; which assemblies the types
come from, the place of the method and default values do not count.

Key definitions: `FunctionSignature`, `FunctionSignature.sameShape`,
`FunctionSignature.ofMethod`.
-/
import ScriptHost.Symbol.Member

namespace ScriptHost

structure FunctionSignature where
  containingType : String
  method : String
  parameters : List ParameterSymbol
  hasLocalTypes : Bool
deriving Repr, Inhabited

namespace FunctionSignature

/-- What a parameter contributes to the shape. -/
def parameterShape (p : ParameterSymbol) : String × String × PassingMode :=
  (p.name, p.type.text, p.mode)

/-- Whether a host that knows one signature may go on calling the other. -/
def sameShape (s t : FunctionSignature) : Bool :=
  s.containingType == t.containingType && s.method == t.method
    && s.hasLocalTypes == t.hasLocalTypes
    && s.parameters.map parameterShape == t.parameters.map parameterShape

/-- `Submission#0.Run(Order order)`. -/
def text (s : FunctionSignature) : String :=
  s!"{s.containingType}.{s.method}{parameterListText s.parameters}"

/-- The signature of a method; types are local with respect to the method's assembly. -/
def ofMethod (m : MethodSymbol) : FunctionSignature :=
  ⟨m.containingType, m.name, m.parameters, m.parameters.any (·.type.isLocalTo m.assembly)⟩

end FunctionSignature

end ScriptHost
