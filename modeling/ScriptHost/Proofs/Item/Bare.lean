/-
# Items without places

What is left of an item without the places of its parts: what it declares, as far as a
compilation can tell. Two items that differ only in places have this in common.

Key definitions: `TypeExpr.bare`, `Item.bare`.
-/
import ScriptHost.Item.Basic

namespace ScriptHost

open Source

/-- A name without its place. -/
def Ident.bare (i : Ident) : Ident := ⟨i.name, default⟩

@[simp] theorem Ident.name_bare (i : Ident) : i.bare.name = i.name := rfl

@[simp] theorem names_bare (is : List Ident) :
    (is.map Ident.bare).map (·.name) = is.map (·.name) := by
  rw [List.map_map]
  rfl

@[simp] theorem dottedText_bare (path : List Ident) :
    dottedText (path.map Ident.bare) = dottedText path := by
  rw [dottedText, names_bare, dottedText]

/-! ### Written types -/

mutual
/-- A written type without the places of its parts. -/
def TypeExpr.bare : TypeExpr → TypeExpr
  | mk path args suffixes _ => mk (path.map Ident.bare) (bareAll args) suffixes default

/-- Written types without the places of their parts. -/
def TypeExpr.bareAll : List TypeExpr → List TypeExpr
  | [] => []
  | t :: more => t.bare :: bareAll more
end

theorem TypeExpr.bareAll_eq_map : ∀ ts : List TypeExpr, bareAll ts = ts.map bare
  | [] => rfl
  | t :: more => by rw [bareAll, bareAll_eq_map more, List.map_cons]

namespace TypeExpr

variable (t : TypeExpr)

@[simp] theorem path_bare : t.bare.path = t.path.map Ident.bare := by
  cases t
  rfl

@[simp] theorem name_bare : t.bare.name = t.name := by
  rw [name, path_bare, List.getLast?_map, Option.map_map, name]
  rfl

@[simp] theorem qualifier?_bare : t.bare.qualifier? = t.qualifier? := by
  rw [qualifier?, path_bare, ← List.map_dropLast, qualifier?]
  cases t.path.dropLast with
  | nil => rfl
  | cons i path => exact congrArg some (dottedText_bare (i :: path))

@[simp] theorem isSimple_bare : t.bare.isSimple = t.isSimple := by
  cases t with
  | mk path args suffixes span =>
    cases args <;> simp [isSimple, bare, bareAll, TypeExpr.path, TypeExpr.args, TypeExpr.suffixes]

end TypeExpr

/-! ### Items -/

/-- A body without its place: how it is written. -/
def Body.bare (b : Body) : Body := ⟨b.kind, 0, 0, default⟩

/-- A parameter, without places. -/
def ParameterDecl.bare (p : ParameterDecl) : ParameterDecl :=
  ⟨p.mode, p.isReceiver, p.type.bare, p.name.bare, p.hasDefault, default⟩

/-- A using, without places. -/
def UsingDirective.bare (u : UsingDirective) : UsingDirective :=
  ⟨u.path.map Ident.bare, u.isStatic, u.alias?.map Ident.bare, default⟩

/-- A type declaration, without places. -/
def TypeDecl.bare (d : TypeDecl) : TypeDecl :=
  ⟨d.modifiers, d.kind, d.name.bare, d.typeParameters.map Ident.bare, d.bases.map TypeExpr.bare,
    default⟩

/-- A method without places: of its body the kind is left. -/
def MethodDecl.bare (m : MethodDecl) : MethodDecl :=
  ⟨m.modifiers, m.returns.bare, m.name.bare, m.typeParameters.map Ident.bare,
    m.parameters.map ParameterDecl.bare, m.body.bare, default⟩

/-- A field declaration, without places. -/
def FieldDecl.bare (f : FieldDecl) : FieldDecl :=
  ⟨f.modifiers, f.type.bare, f.names.map Ident.bare, default⟩

/-- A property, without places. -/
def PropertyDecl.bare (p : PropertyDecl) : PropertyDecl :=
  ⟨p.modifiers, p.type.bare, p.name.bare, default⟩

/-- An item without the places of its parts. -/
def Item.bare : Item → Item
  | reference d => reference ⟨d.reference, default⟩
  | usingDirective d => usingDirective d.bare
  | typeDecl d => typeDecl d.bare
  | method d => method d.bare
  | field d => field d.bare
  | property d => property d.bare
  | statement body => statement body.bare

end ScriptHost
