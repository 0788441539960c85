/-
# The items of a script

A script is a sequence of items: `#r` directives, usings, type declarations, members of
the class that the script stands for, and statements. Only the shape of a declaration is
kept; a body or a statement is a range of the source text.

Key definitions: `Modifiers`, `PassingMode`, `Body`, `ParameterDecl`, `MethodDecl`, `Item`.
-/
import ScriptHost.TypeExpr.Basic

namespace ScriptHost

open Source

/-- The modifiers of a declaration that have a meaning. -/
structure Modifiers where
  isPublic : Bool
  isPrivate : Bool
  isProtected : Bool
  isInternal : Bool
  isStatic : Bool
  isAsync : Bool
deriving DecidableEq, Repr, Inhabited

/-- Who may see a member. -/
inductive Accessibility where
  | publicAccess
  | internalAccess
  | protectedAccess
  | privateAccess
deriving DecidableEq, Repr

namespace Modifiers

def none : Modifiers := ⟨false, false, false, false, false, false⟩

/-- The modifiers together with the one a word stands for; other words add nothing. -/
def add (m : Modifiers) : TokenKind → Modifiers
  | .publicWord => { m with isPublic := true }
  | .privateWord => { m with isPrivate := true }
  | .protectedWord => { m with isProtected := true }
  | .internalWord => { m with isInternal := true }
  | .staticWord => { m with isStatic := true }
  | .asyncWord => { m with isAsync := true }
  | _ => m

/-- The modifiers that a run of words stands for. -/
def ofKinds (kinds : List TokenKind) : Modifiers :=
  kinds.foldl add none

/-- The widest access that is written counts; a member without one is private. -/
def accessibility (m : Modifiers) : Accessibility :=
  if m.isPublic then .publicAccess
  else if m.isInternal then .internalAccess
  else if m.isProtected then .protectedAccess
  else .privateAccess

/-- The bits of a modifier set, the lowest first. -/
def flags (m : Modifiers) : List Bool :=
  [m.isPublic, m.isPrivate, m.isProtected, m.isInternal, m.isStatic, m.isAsync]

/-- The set as a number: public 1, private 2, protected 4, internal 8, static 16, async 32. -/
def toBits (m : Modifiers) : Nat :=
  m.flags.foldr (fun flag n => flag.toNat + 2 * n) 0

/-- The set that a number stands for; bits without a meaning are dropped. -/
def ofBits (n : Nat) : Modifiers :=
  ⟨n.testBit 0, n.testBit 1, n.testBit 2, n.testBit 3, n.testBit 4, n.testBit 5⟩

/-- The set that a number stands for, if all its bits have a meaning. -/
def ofBits? (n : Nat) : Option Modifiers :=
  if n < 64 then some (ofBits n) else Option.none

end Modifiers

/-- How an argument reaches a parameter. -/
inductive PassingMode where
  | byValue
  | byRef
  | byOut
  | byIn
  | asParams
deriving DecidableEq, Repr, Inhabited

/-- The word that is written for a passing mode. -/
def PassingMode.keyword? : PassingMode → Option String
  | byValue => none
  | byRef => some "ref"
  | byOut => some "out"
  | byIn => some "in"
  | asParams => some "params"

/-- How a body is written. -/
inductive BodyKind where
  | block
  | expression
  | statement
deriving DecidableEq, Repr, Inhabited

/-- A range of the source that is kept as text: the bytes from `start` up to `stop`. -/
structure Body where
  kind : BodyKind
  start : Nat
  stop : Nat
  span : Span
deriving DecidableEq, Repr, Inhabited

/-- The text of a body in its source; a range that is no text of the source gives none. -/
def Body.text (b : Body) (source : String) : String :=
  ((sliceBytes b.start b.stop source.toList).map String.ofList).getD ""

/-- A parameter of a method as declared. -/
structure ParameterDecl where
  mode : PassingMode
  isReceiver : Bool
  type : TypeExpr
  name : Ident
  hasDefault : Bool
  span : Span
deriving Repr, Inhabited

/-- `#r "reference"`. -/
structure ReferenceDirective where
  reference : String
  span : Span
deriving DecidableEq, Repr, Inhabited

/-- `using System.Net;`, `using static System.Math;` or `using Json = Newtonsoft.Json;`. -/
structure UsingDirective where
  path : List Ident
  isStatic : Bool
  alias? : Option Ident
  span : Span
deriving DecidableEq, Repr, Inhabited

def UsingDirective.target (u : UsingDirective) : String := dottedText u.path

/-- The sorts of type declaration. -/
inductive TypeDeclKind where
  | classDecl
  | structDecl
  | interfaceDecl
  | enumDecl
  | recordDecl
deriving DecidableEq, Repr, Inhabited

/-- A type declared in the script. -/
structure TypeDecl where
  modifiers : Modifiers
  kind : TypeDeclKind
  name : Ident
  typeParameters : List Ident
  bases : List TypeExpr
  span : Span
deriving Repr, Inhabited

structure MethodDecl where
  modifiers : Modifiers
  returns : TypeExpr
  name : Ident
  typeParameters : List Ident
  parameters : List ParameterDecl
  body : Body
  span : Span
deriving Repr, Inhabited

/-- A field declaration; `int a = 1, b;` declares two names. -/
structure FieldDecl where
  modifiers : Modifiers
  type : TypeExpr
  names : List Ident
  span : Span
deriving Repr, Inhabited

structure PropertyDecl where
  modifiers : Modifiers
  type : TypeExpr
  name : Ident
  span : Span
deriving Repr, Inhabited

inductive Item where
  | reference (d : ReferenceDirective)
  | usingDirective (d : UsingDirective)
  | typeDecl (d : TypeDecl)
  | method (d : MethodDecl)
  | field (d : FieldDecl)
  | property (d : PropertyDecl)
  | statement (body : Body)
deriving Repr, Inhabited

/-- The stretch of source an item takes. -/
def Item.span : Item → Span
  | reference d => d.span
  | usingDirective d => d.span
  | typeDecl d => d.span
  | method d => d.span
  | field d => d.span
  | property d => d.span
  | statement body => body.span

end ScriptHost
