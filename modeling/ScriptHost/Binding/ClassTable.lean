/-
# Collecting the members of the script class

The items of all documents are entered into one table, in order. A method may share its
name with other methods as long as their overload keys differ; a field or a property
shares its name with nobody. The table keeps the members in a list, and beside it what it
needs to tell whether another one fits in: the names and the overload keys of the methods,
and the names of the fields and properties. A member that does not fit in is reported and
left out together with its code. What a member or a statement runs is a range of a
document's text, and these bodies are numbered in the order they were entered.

Key definitions: `MethodSymbol.overloadKey`, `MemberTable`, `MemberTable.rejects`,
`MemberTable.add`, `Entry`, `Scope.entries`, `BoundBody`, `ClassTable`, `ClassTable.enter`.
-/
import ScriptHost.Binding.Scope
import ScriptHost.Symbol.Member

namespace ScriptHost

/-- What an overload is told apart by: name, number of type parameters, and the modes and
types of the parameters. -/
def MethodSymbol.overloadKey (m : MethodSymbol) : String :=
  let parameters := m.parameters.map fun p => p.mode.keyword?.getD "" ++ p.type.text
  m.name ++ "`" ++ toString m.typeParameters.length ++ "(" ++ ",".intercalate parameters ++ ")"

namespace Member

/-- Whether a member is a method. -/
def isMethod : Member → Bool
  | method _ => true
  | field _ | property _ => false

/-- The report of a member that does not fit into the class. -/
def rejection (className : String) (m : Member) : Diagnostic :=
  .error "FS0111"
    (match m with
      | method k =>
        s!"Type '{className}' already defines a member called '{k.name}' "
          ++ "with the same parameter types"
      | other => s!"The type '{className}' already contains a definition for '{other.name}'")
    m.location

end Member

/-- The members of a class, with the names and keys that tell which others fit in. Each of the
three sets is in step with the members. -/
@[ext]
structure MemberTable where
  members : List Member
  methodNames : List String
  methodKeys : List String
  dataNames : List String
  mem_methodNames : ∀ name, name ∈ methodNames ↔ ∃ m, .method m ∈ members ∧ m.name = name
  mem_methodKeys : ∀ key, key ∈ methodKeys ↔ ∃ m, .method m ∈ members ∧ m.overloadKey = key
  mem_dataNames : ∀ name, name ∈ dataNames ↔ ∃ m ∈ members, m.isMethod = false ∧ m.name = name
deriving Repr

namespace MemberTable

def empty : MemberTable where
  members := []
  methodNames := []
  methodKeys := []
  dataNames := []
  mem_methodNames := by simp
  mem_methodKeys := by simp
  mem_dataNames := by simp

instance : Inhabited MemberTable := ⟨empty⟩

/-- Whether a member does not fit in. Methods may overload each other, a field or a property
may share its name with no member. -/
def rejects (t : MemberTable) : Member → Bool
  | .method m => t.dataNames.contains m.name || t.methodKeys.contains m.overloadKey
  | data => t.dataNames.contains data.name || t.methodNames.contains data.name

section

variable {ms : List Member}

/-- A further method is one more of which something may hold. -/
theorem exists_method_concat {P : MethodSymbol → Prop} {k : MethodSymbol} :
    (∃ m, .method m ∈ ms ++ [.method k] ∧ P m) ↔ P k ∨ ∃ m, .method m ∈ ms ∧ P m := by
  constructor
  · rintro ⟨m, hm, hP⟩
    rcases List.mem_append.mp hm with hm | hm
    · exact .inr ⟨m, hm, hP⟩
    · exact .inl (Member.method.inj (List.mem_singleton.mp hm) ▸ hP)
  · rintro (hP | ⟨m, hm, hP⟩)
    · exact ⟨k, List.mem_append_right _ (List.mem_singleton_self _), hP⟩
    · exact ⟨m, List.mem_append_left _ hm, hP⟩

/-- A further field or property changes nothing of the methods. -/
theorem method_mem_concat {d : Member} (h : d.isMethod = false) {m : MethodSymbol} :
    .method m ∈ ms ++ [d] ↔ .method m ∈ ms := by
  refine ⟨fun hm => ?_, List.mem_append_left _⟩
  rcases List.mem_append.mp hm with hm | hm
  · exact hm
  · rw [← List.mem_singleton.mp hm] at h
    exact absurd h.symm Bool.false_ne_true

theorem exists_mem_concat {P : Member → Prop} {k : Member} :
    (∃ m ∈ ms ++ [k], P m) ↔ P k ∨ ∃ m ∈ ms, P m := by
  simp only [List.mem_append, List.mem_singleton, or_and_right, exists_or, exists_eq_left]
  exact or_comm

end

/-- The table with a method. -/
def addMethod (t : MemberTable) (m : MethodSymbol) : MemberTable where
  members := t.members ++ [.method m]
  methodNames := t.methodNames.insert m.name
  methodKeys := t.methodKeys.insert m.overloadKey
  dataNames := t.dataNames
  mem_methodNames name := by
    rw [List.mem_insert_iff, t.mem_methodNames, exists_method_concat, eq_comm]
  mem_methodKeys key := by
    rw [List.mem_insert_iff, t.mem_methodKeys, exists_method_concat, eq_comm]
  mem_dataNames name := by
    rw [t.mem_dataNames, exists_mem_concat]
    exact (or_iff_right fun h => absurd h.1.symm Bool.false_ne_true).symm

/-- The table with a field or a property. -/
def addData (t : MemberTable) (d : Member) (h : d.isMethod = false) : MemberTable where
  members := t.members ++ [d]
  methodNames := t.methodNames
  methodKeys := t.methodKeys
  dataNames := t.dataNames.insert d.name
  mem_methodNames name := by
    simp only [t.mem_methodNames, method_mem_concat h]
  mem_methodKeys key := by
    simp only [t.mem_methodKeys, method_mem_concat h]
  mem_dataNames name := by
    rw [List.mem_insert_iff, t.mem_dataNames, exists_mem_concat, and_iff_right h, eq_comm]

/-- The table with a member that fits in. -/
def add (t : MemberTable) : Member → MemberTable
  | .method m => t.addMethod m
  | .field f => t.addData (.field f) rfl
  | .property p => t.addData (.property p) rfl

end MemberTable

/-- What an item puts into the script class: a member, with the code it runs if it is a
method, or a statement. -/
inductive Entry where
  | member (m : Member) (body? : Option Body)
  | statement (body : Body)
deriving Repr, Inhabited

namespace Scope

/-- The type of fields and properties. A plain `var` has no written type to resolve. -/
def fieldType (s : Scope) (path : String) (t : TypeExpr) : Resolved :=
  if t.isSimple ∧ t.name = "var" then ⟨frameworkType "Object", []⟩ else s.resolve [] path t

/-- A declared parameter with its type. -/
def parameter (s : Scope) (typeParameters : List String) (path : String) (p : ParameterDecl) :
    ParameterSymbol × List Diagnostic :=
  let resolved := s.resolve typeParameters path p.type
  (⟨p.name.name, resolved.type, p.mode, p.hasDefault⟩, resolved.findings)

/-- A declared method as a member of the class. -/
def method (s : Scope) (className path : String) (d : MethodDecl) :
    MethodSymbol × List Diagnostic :=
  let typeParameters := d.typeParameters.map (·.name)
  let returns := s.resolve typeParameters path d.returns
  let parameters := d.parameters.map (s.parameter typeParameters path)
  (⟨d.name.name, className, s.assembly, d.modifiers, returns.type, typeParameters,
      parameters.map (·.1), .within path d.name.span⟩,
    returns.findings ++ parameters.flatMap (·.2))

/-- What an item of the document `path` puts into the class, and what is wrong with the
types that are written in it. -/
def entries (s : Scope) (className path : String) : Item → List Entry × List Diagnostic
  | .method d =>
    let (m, found) := s.method className path d
    ([.member (.method m) (some d.body)], found)
  | .field d =>
    let resolved := s.fieldType path d.type
    (d.names.map fun name =>
        .member (.field ⟨name.name, resolved.type, d.modifiers, .within path name.span⟩) none,
      resolved.findings)
  | .property d =>
    let resolved := s.resolve [] path d.type
    ([.member (.property ⟨d.name.name, resolved.type, d.modifiers, .within path d.name.span⟩)
        none],
      resolved.findings)
  | .statement body => ([.statement body], [])
  | .reference _ | .usingDirective _ | .typeDecl _ => ([], [])

end Scope

/-- A body that is emitted: the member that runs it, unless it is a statement, and the
document it is a range of. -/
structure BoundBody where
  member? : Option Nat
  document : Nat
  body : Body
deriving DecidableEq, Repr, Inhabited

/-- The members and bodies entered so far, and what was reported. -/
structure ClassTable where
  table : MemberTable
  bodies : List BoundBody
  findings : List Diagnostic
deriving Repr, Inhabited

namespace ClassTable

def empty : ClassTable := ⟨.empty, [], []⟩

def members (t : ClassTable) : List Member := t.table.members

/-- The table with an entry of the document at `document`. -/
def enter (className : String) (document : Nat) (t : ClassTable) : Entry → ClassTable
  | .statement body => { t with bodies := t.bodies ++ [⟨none, document, body⟩] }
  | .member m body? =>
    if t.table.rejects m then { t with findings := t.findings ++ [m.rejection className] }
    else
      { t with
        table := t.table.add m
        bodies := t.bodies ++ (body?.map (⟨some t.members.length, document, ·⟩)).toList }

/-- The table with the entries of an item, behind the reports on its types. -/
def enterItem (s : Scope) (className path : String) (document : Nat) (t : ClassTable)
    (item : Item) : ClassTable :=
  let (entries, found) := s.entries className path item
  entries.foldl (enter className document) { t with findings := t.findings ++ found }

end ClassTable

end ScriptHost
