/-
# What a written type stands for

A scope holds everything a name may mean: the types that the script declares, the
referenced assemblies, the imported namespaces and the aliases. A lone name is looked for
among the predefined words, the type parameters, the aliases that stand for a type, the
declared types and the imported namespaces, in this order; a qualified one in the
namespace that the qualifier, or the alias it is, names. What nobody else claims belongs
to the first assembly whose types cannot be listed.

A type that resolves to nothing is reported once and stands for an error, so that what
contains it can be resolved all the same.

Key definitions: `Scope`, `NameFault`, `Scope.search`, `Scope.lookup`, `Scope.resolve`.
-/
import ScriptHost.Assembly.Catalog
import ScriptHost.Diagnostic
import ScriptHost.TypeExpr.Basic

namespace ScriptHost

open Source

/-- Why a name stands for no type. -/
inductive NameFault where
  | unknown
  | wrongArity (expected : Nat)
  | ambiguous (candidates : List String)
deriving DecidableEq, Repr

namespace NameFault

def code : NameFault → String
  | unknown => "FS0246"
  | wrongArity _ => "FS0305"
  | ambiguous _ => "FS0104"

/-- The wording for a name that was written with `given` type arguments. -/
def message (name : String) (given : Nat) : NameFault → String
  | unknown =>
    s!"The type or namespace name '{name}' could not be found "
      ++ "(are you missing a using directive or an assembly reference?)"
  | wrongArity expected =>
    s!"Using the type '{name}' requires {expected} type argument(s), but {given} were given"
  | ambiguous candidates =>
    s!"'{name}' is an ambiguous reference between "
      ++ " and ".intercalate (candidates.map fun c => s!"'{c}'")

end NameFault

/-- A dotted text split at its last point. -/
def splitAtLastPoint? (text : String) : Option (String × String) :=
  let backwards := text.toList.reverse
  match backwards.dropWhile (· != '.') with
  | [] => none
  | _ :: front =>
    some (String.ofList front.reverse,
      String.ofList (backwards.takeWhile (· != '.')).reverse)

/-- What the names in a script's types may mean. Declared types are found by name and
number of type parameters; of two aliases of one name the first in the list counts.

The declared types are listed in the order in which a table of them is gone through, which is
any order for a scope, and the order of the declarations for that of a compilation. Only the
number that the report of a wrong arity gives (`Scope.declaredArity?`) depends on it: with
another order it is the arity of another declared type of the name. -/
structure Scope where
  assembly : AssemblyIdentity
  declared : List ((String × Nat) × TypeSymbol)
  references : List AssemblyMetadata
  imports : List String
  aliases : List (String × String)
deriving Repr, Inhabited

/-- What a written type stands for, and what is wrong with it. -/
structure Resolved where
  type : TypeSymbol
  findings : List Diagnostic
deriving Repr, Inhabited

namespace Scope

/-- The definitions of a name and arity in the visible namespaces, across all references,
each with its assembly. -/
def candidates (s : Scope) (visible : String → Bool) (name : String) (arity : Nat) :
    List (AssemblyMetadata × TypeDefinition) :=
  s.references.flatMap fun a =>
    ((a.find name arity).filter (visible ·.namespaceName)).map (a, ·)

/-- The arity of the first visible definition of a name. -/
def visibleArity? (s : Scope) (visible : String → Bool) (name : String) : Option Nat :=
  s.references.findSome? fun a =>
    (a.types.find? fun d => d.name == name && visible d.namespaceName).map (·.arity)

/-- The only definition of a name and arity in the visible namespaces. -/
def search (s : Scope) (visible : String → Bool) (name : String) (arity : Nat) :
    Except NameFault TypeSymbol :=
  match s.candidates visible name arity with
  | [] =>
    match s.visibleArity? visible name with
    | some expected => .error (.wrongArity expected)
    | none => .error .unknown
  | [(a, d)] => .ok (a.symbol d)
  | many => .error (.ambiguous (many.map (·.2.fullName)))

/-- A name that is not listed anywhere, as a class of the first assembly whose types cannot
be listed. -/
def unlisted (s : Scope) (namespace? : Option String) (name : String) :
    Except NameFault TypeSymbol :=
  match s.references.find? (·.isUnlisted) with
  | some a => .ok (.named namespace? name .classType a.identity)
  | none => .error .unknown

/-- The number of type parameters of the first declared type of a name, for a report. -/
def declaredArity? (s : Scope) (name : String) : Option Nat :=
  (s.declared.find? (·.1.1 == name)).map (·.1.2)

/-- What a qualified name with so many type arguments stands for. -/
def lookupQualified (s : Scope) (qualifier name : String) (arity : Nat) :
    Except NameFault TypeSymbol :=
  let target := (s.aliases.lookup qualifier).getD qualifier
  match s.search (· == target) name arity with
  | .error .unknown => s.unlisted (some target) name
  | outcome => outcome

/-- What a lone name that is no alias of a type stands for. -/
def lookupVisible (s : Scope) (name : String) (arity : Nat) : Except NameFault TypeSymbol :=
  match s.declared.lookup (name, arity) with
  | some type => .ok type
  | none =>
    match s.search (s.imports.contains ·) name arity with
    | .error .unknown =>
      match s.declaredArity? name with
      | some expected => .error (.wrongArity expected)
      | none => s.unlisted none name
    | outcome => outcome

/-- What a name with so many type arguments stands for. An alias with a dotted target
stands for the type of that name. -/
def lookup (s : Scope) (qualifier? : Option String) (name : String) (arity : Nat) :
    Except NameFault TypeSymbol :=
  match qualifier? with
  | some qualifier => s.lookupQualified qualifier name arity
  | none =>
    match (s.aliases.lookup name).bind splitAtLastPoint? with
    | some (namespaceName, target) => s.search (· == namespaceName) target arity
    | none => s.lookupVisible name arity

/-- What a lone word without type arguments stands for before any type is looked for: a
predefined type or a type parameter. -/
def word? (s : Scope) (parameters : List String) (name : String) : Option TypeSymbol :=
  match keywordType? name with
  | some framework => some (frameworkType framework)
  | none => if parameters.contains name then some (.parameter name s.assembly) else none

/-- The type under the suffixes of `t`, with the resolved arguments. -/
def resolveName (s : Scope) (parameters : List String) (path : String) (t : TypeExpr)
    (args : List TypeSymbol) : Resolved :=
  match if t.path.length = 1 ∧ args = [] then s.word? parameters t.name else none with
  | some type => ⟨type, []⟩
  | none =>
    match s.lookup t.qualifier? t.name args.length with
    | .ok type => ⟨type.instantiate args, []⟩
    | .error fault =>
      ⟨.unresolved t.name,
        [.error fault.code (fault.message t.name args.length) (.within path t.span)]⟩

/-- A type with a suffix behind it. The nullable form of a type that is no value type is
the type itself. -/
def withSuffix (type : TypeSymbol) : TypeSuffix → TypeSymbol
  | .array => .arrayOf type
  | .nullable => if type.kind.isValueType then nullableOf type else type

mutual
/-- What a type written in the document `path` stands for, with the given type parameters in
scope. What is wrong with the arguments is reported before the type itself. -/
def resolve (s : Scope) (parameters : List String) (path : String) : TypeExpr → Resolved
  | .mk segments args suffixes span =>
    let (types, found) := resolveAll s parameters path args
    let base := s.resolveName parameters path (.mk segments args suffixes span) types
    ⟨suffixes.foldl withSuffix base.type, found ++ base.findings⟩

/-- What several written types stand for, and what is wrong with them. -/
def resolveAll (s : Scope) (parameters : List String) (path : String) :
    List TypeExpr → List TypeSymbol × List Diagnostic
  | [] => ([], [])
  | t :: more =>
    let first := resolve s parameters path t
    let (types, found) := resolveAll s parameters path more
    (first.type :: types, first.findings ++ found)
end

/-- Every written type stands for one type. -/
@[simp] theorem length_resolveAll (s : Scope) (parameters : List String) (path : String)
    (ts : List TypeExpr) : (s.resolveAll parameters path ts).1.length = ts.length := by
  induction ts with
  | nil => rfl
  | cons t more ih => simp [resolveAll, ih]

end Scope

end ScriptHost
