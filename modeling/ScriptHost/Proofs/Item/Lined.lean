/-
# Items without columns

What is left of an item when only the lines of its parts are kept: no columns, no lengths, and of
a body the range is forgotten too. The same for a problem, and for the tokens and cursors that
items are read from.

Key definitions: `TypeExpr.lined`, `Item.lined`, `ParseError.lined`, `Cursor.lined`.
-/
import ScriptHost.Proofs.Token.Insertion
import ScriptHost.Script.Cursor

namespace ScriptHost

open Source

/-- Of a span the line it starts on. -/
def Source.Span.lined (s : Span) : Span := ⟨s.line, 0, 0⟩

/-- A name without its column. -/
def Ident.lined (i : Ident) : Ident := ⟨i.name, i.span.lined⟩

mutual
/-- A written type without the columns of its parts. -/
def TypeExpr.lined : TypeExpr → TypeExpr
  | mk path args suffixes span => mk (path.map Ident.lined) (linedAll args) suffixes span.lined

/-- Written types without the columns of their parts. -/
def TypeExpr.linedAll : List TypeExpr → List TypeExpr
  | [] => []
  | t :: more => t.lined :: linedAll more
end

theorem TypeExpr.linedAll_eq_map : ∀ ts : List TypeExpr, linedAll ts = ts.map lined
  | [] => rfl
  | t :: more => by rw [linedAll, linedAll_eq_map more, List.map_cons]

/-- Of a body how it is written, and the line it starts on. -/
def Body.lined (b : Body) : Body := ⟨b.kind, 0, 0, b.span.lined⟩

/-- A parameter, without columns. -/
def ParameterDecl.lined (p : ParameterDecl) : ParameterDecl :=
  ⟨p.mode, p.isReceiver, p.type.lined, p.name.lined, p.hasDefault, p.span.lined⟩

/-- A reference, without columns. -/
def ReferenceDirective.lined (d : ReferenceDirective) : ReferenceDirective :=
  ⟨d.reference, d.span.lined⟩

/-- A using, without columns. -/
def UsingDirective.lined (u : UsingDirective) : UsingDirective :=
  ⟨u.path.map Ident.lined, u.isStatic, u.alias?.map Ident.lined, u.span.lined⟩

/-- A type declaration, without columns. -/
def TypeDecl.lined (d : TypeDecl) : TypeDecl :=
  ⟨d.modifiers, d.kind, d.name.lined, d.typeParameters.map Ident.lined, d.bases.map TypeExpr.lined,
    d.span.lined⟩

/-- A method, without columns. -/
def MethodDecl.lined (m : MethodDecl) : MethodDecl :=
  ⟨m.modifiers, m.returns.lined, m.name.lined, m.typeParameters.map Ident.lined,
    m.parameters.map ParameterDecl.lined, m.body.lined, m.span.lined⟩

/-- A field declaration, without columns. -/
def FieldDecl.lined (f : FieldDecl) : FieldDecl :=
  ⟨f.modifiers, f.type.lined, f.names.map Ident.lined, f.span.lined⟩

/-- A property, without columns. -/
def PropertyDecl.lined (p : PropertyDecl) : PropertyDecl :=
  ⟨p.modifiers, p.type.lined, p.name.lined, p.span.lined⟩

/-- An item without the columns of its parts. -/
def Item.lined : Item → Item
  | reference d => reference d.lined
  | usingDirective d => usingDirective d.lined
  | typeDecl d => typeDecl d.lined
  | method d => method d.lined
  | field d => field d.lined
  | property d => property d.lined
  | statement body => statement body.lined

/-- A cause without the columns it quotes. -/
def Complaint.lined : Complaint → Complaint
  | openTypeArguments opened => openTypeArguments opened.lined
  | lexical e => lexical ⟨e.fault, e.span.lined⟩
  | complaint => complaint

/-- A problem without its column and those it quotes. -/
def ParseError.lined (e : ParseError) : ParseError := ⟨e.complaint.lined, e.span.lined⟩

/-- The tokens still to read, without their columns. -/
def Cursor.lined (c : Cursor) : Cursor := ⟨c.rest.map Token.lined, c.finish.lined⟩

@[simp] theorem ParseError.kind_lined (e : ParseError) : e.lined.kind = e.kind := by
  obtain ⟨complaint, span⟩ := e
  cases complaint <;> rfl

/-! ### Tokens -/

namespace Token

variable (t : Token)

@[simp] theorem kind_lined : t.lined.kind = t.kind := by
  cases t
  rfl

@[simp] theorem lexeme_lined : t.lined.lexeme = t.lexeme := by
  cases t
  rfl

@[simp] theorem line_lined : t.lined.start.line = t.start.line := by
  cases t
  rfl

@[simp] theorem span_lined : t.lined.span = t.span.lined := rfl

@[simp] theorem ofToken_lined : Ident.ofToken t.lined = (Ident.ofToken t).lined := rfl

end Token

/-! ### Cursors -/

namespace Cursor

variable (c d : Cursor)

@[simp] theorem rest_lined : c.lined.rest = c.rest.map Token.lined := rfl

@[simp] theorem goto_lined (r : List Token) : c.lined.goto (r.map Token.lined) = (c.goto r).lined := rfl

@[simp] theorem tail_lined : c.lined.tail = c.tail.lined := by
  rw [tail, tail, rest_lined, ← List.map_tail, goto_lined]

@[simp] theorem kindAt?_lined (n : Nat) : c.lined.kindAt? n = c.kindAt? n := by
  rw [kindAt?, rest_lined, List.getElem?_map, Option.map_map]
  rfl

@[simp] theorem kind?_lined : c.lined.kind? = c.kind? := by
  rw [kind?, rest_lined, List.head?_map, Option.map_map]
  rfl

@[simp] theorem isAt_lined (kind : TokenKind) : c.lined.isAt kind = c.isAt kind := by
  rw [isAt, kind?_lined, isAt]

@[simp] theorem isAtWord_lined (word : String) : c.lined.isAtWord word = c.isAtWord word := by
  rw [isAtWord, rest_lined, List.head?_map, Option.any_map]
  rfl

@[simp] theorem place_lined : c.lined.place = c.place.lined := by
  unfold place
  cases hr : c.rest <;> simp [hr, lined, Token.lined]

@[simp] theorem span_lined : c.lined.span = c.span.lined := by
  unfold span
  cases hr : c.rest with
  | nil => simp [hr, lined, Span.lined, Span.point, Position.lined]
  | cons t r => simp [hr]

@[simp] theorem readUpTo_lined : c.lined.readUpTo d.lined = (c.readUpTo d).map Token.lined := by
  simp [readUpTo]

@[simp] theorem stopSince_lined : c.lined.stopSince d.lined = 0 := by
  rw [stopSince, readUpTo_lined, List.getLast?_map, Option.map_map, place_lined]
  cases (c.readUpTo d).getLast? <;> rfl

@[simp] theorem spanSince_lined : c.lined.spanSince d.lined = (c.spanSince d).lined := by
  rw [spanSince, stopSince_lined, place_lined]
  rfl

@[simp] theorem bodySince_lined (kind : BodyKind) :
    c.lined.bodySince kind d.lined = (c.bodySince kind d).lined := by
  rw [bodySince, stopSince_lined, spanSince_lined, place_lined]
  rfl

end Cursor

end ScriptHost
