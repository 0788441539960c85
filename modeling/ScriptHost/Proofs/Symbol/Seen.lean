/-
# Types as an assembly sees them

An assembly tells two sorts of types apart: those it owns and those it does not. What a type
is without the rest of its owner is how the assembly sees it, and this is all that its text and
the question whether it is local depend on. Two assemblies that see the same members offer the
same entry points, whatever their identities.

Key definitions: `TypeSymbol.seenFrom`, `Member.seenFrom`, `Diagnostic.bare`.
Key theorems: `TypeSymbol.text_seenFrom`, `TypeSymbol.isLocalTo_seenFrom`,
`FunctionSignature.sameShape_of_seen`, `EntryPointPolicy.resolve_alike`.
-/
import ScriptHost.EntryPoint

namespace ScriptHost

variable (assembly : AssemblyIdentity)

/-! ### Types -/

namespace TypeSymbol

mutual
/-- The type with a mark in place of the assembly where this is its owner, and without an owner
otherwise, down to its arguments. -/
def seenFrom : TypeSymbol → TypeSymbol
  | mk ns name kind owner? args =>
    mk ns name kind (if owner? = some assembly then some default else none) (allSeenFrom args)

/-- The types as the assembly sees them. -/
def allSeenFrom : List TypeSymbol → List TypeSymbol
  | [] => []
  | t :: more => seenFrom t :: allSeenFrom more
end

theorem allSeenFrom_eq_map : ∀ ts : List TypeSymbol,
    allSeenFrom assembly ts = ts.map (seenFrom assembly)
  | [] => rfl
  | t :: more => by rw [allSeenFrom, allSeenFrom_eq_map more, List.map_cons]

@[simp] theorem kind_seenFrom (t : TypeSymbol) : (t.seenFrom assembly).kind = t.kind := by
  cases t
  rfl

mutual
@[simp] theorem text_seenFrom : ∀ t : TypeSymbol, (t.seenFrom assembly).text = t.text
  | mk ns name kind owner? [] => rfl
  | mk ns name kind owner? (first :: more) => by
    simp only [seenFrom, allSeenFrom, text, text_seenFrom first, textsAfter_seenFrom more]

theorem textsAfter_seenFrom : ∀ ts : List TypeSymbol,
    textsAfter (allSeenFrom assembly ts) = textsAfter ts
  | [] => rfl
  | t :: more => by
    simp only [allSeenFrom, textsAfter, text_seenFrom t, textsAfter_seenFrom more]
end

mutual
/-- **What is local to the assembly is what it sees as its own.** -/
theorem isLocalTo_seenFrom : ∀ t : TypeSymbol,
    (t.seenFrom assembly).isLocalTo default = t.isLocalTo assembly
  | mk ns name kind owner? args => by
    have hargs := anyLocalTo_seenFrom args
    by_cases h : owner? = some assembly <;> simp [seenFrom, isLocalTo, hargs, h]

theorem anyLocalTo_seenFrom : ∀ ts : List TypeSymbol,
    anyLocalTo default (allSeenFrom assembly ts) = anyLocalTo assembly ts
  | [] => rfl
  | t :: more => by
    simp only [allSeenFrom, anyLocalTo, isLocalTo_seenFrom t, anyLocalTo_seenFrom more]
end

/-! How types are made -/

@[simp] theorem seenFrom_arrayOf (t : TypeSymbol) :
    (arrayOf t).seenFrom assembly = arrayOf (t.seenFrom assembly) := by
  simp [arrayOf, seenFrom, allSeenFrom]

@[simp] theorem seenFrom_unresolved (name : String) :
    (unresolved name).seenFrom assembly = unresolved name := by
  simp [unresolved, seenFrom, allSeenFrom]

@[simp] theorem seenFrom_construct (t : TypeSymbol) (args : List TypeSymbol) :
    (t.construct args).seenFrom assembly =
      (t.seenFrom assembly).construct (args.map (seenFrom assembly)) := by
  cases t
  simp only [construct, seenFrom, allSeenFrom_eq_map]

@[simp] theorem seenFrom_instantiate (t : TypeSymbol) (args : List TypeSymbol) :
    (t.instantiate args).seenFrom assembly =
      (t.seenFrom assembly).instantiate (args.map (seenFrom assembly)) := by
  cases args with
  | nil => rfl
  | cons first more => exact seenFrom_construct assembly t (first :: more)

/-- An assembly sees its own types like any other assembly does. -/
theorem seenFrom_own (namespace? : Option String) (name : String) (kind : TypeKind) :
    (named namespace? name kind assembly).seenFrom assembly =
      (named namespace? name kind default) := by
  simp [named, seenFrom, allSeenFrom]

/-- Two assemblies see the types of a third one alike. -/
theorem seenFrom_other {assembly assembly' owner : AssemblyIdentity} (h : owner ≠ assembly)
    (h' : owner ≠ assembly') (namespace? : Option String) (name : String) (kind : TypeKind) :
    (named namespace? name kind owner).seenFrom assembly =
      (named namespace? name kind owner).seenFrom assembly' := by
  simp [named, seenFrom, h, h', allSeenFrom]

end TypeSymbol

/-! ### Members -/

/-- A location without the place in its document. -/
def Location.bare (l : Location) : Location := ⟨l.path?, l.span?.map fun _ => default⟩

/-- A diagnostic without the place in its document. -/
def Diagnostic.bare (d : Diagnostic) : Diagnostic := { d with location := d.location.bare }

/-- A parameter as an assembly sees it. -/
def ParameterSymbol.seenFrom (p : ParameterSymbol) : ParameterSymbol :=
  { p with type := p.type.seenFrom assembly }

/-- A method as its own assembly sees it, without its place. -/
def MethodSymbol.seen (m : MethodSymbol) : MethodSymbol :=
  { m with
    assembly := default
    returns := m.returns.seenFrom m.assembly
    parameters := m.parameters.map (·.seenFrom m.assembly)
    location := m.location.bare }

/-- A field or a property as an assembly sees it, without its place. -/
def FieldSymbol.seenFrom (f : FieldSymbol) : FieldSymbol :=
  { f with type := f.type.seenFrom assembly, location := f.location.bare }

/-- A member as an assembly sees it, without its place. -/
def Member.seenFrom : Member → Member
  | method m => method m.seen
  | field f => field (f.seenFrom assembly)
  | property p => property (p.seenFrom assembly)

@[simp] theorem Member.name_seenFrom (m : Member) : (m.seenFrom assembly).name = m.name := by
  cases m <;> rfl

theorem Member.method?_seenFrom (m : Member) :
    (m.seenFrom assembly).method? = m.method?.map MethodSymbol.seen := by
  cases m <;> rfl

/-! ### Entry points -/

namespace FunctionSignature

variable (m : MethodSymbol)

theorem parameters_ofMethod_seen : (ofMethod m).parameters.map parameterShape =
    (ofMethod m.seen).parameters.map parameterShape := by
  simp only [ofMethod, MethodSymbol.seen, List.map_map]
  exact List.map_congr_left fun p _ => by
    simp only [Function.comp_apply, parameterShape, ParameterSymbol.seenFrom,
      TypeSymbol.text_seenFrom]

theorem hasLocalTypes_ofMethod_seen : (ofMethod m).hasLocalTypes = (ofMethod m.seen).hasLocalTypes := by
  simp only [ofMethod, MethodSymbol.seen, List.any_map]
  exact congrArg (List.any _) (funext fun p => (TypeSymbol.isLocalTo_seenFrom _ p.type).symm)

/-- **Methods that their assemblies see alike have signatures of one shape.** -/
theorem sameShape_of_seen {m m' : MethodSymbol} (h : m.seen = m'.seen) :
    (ofMethod m).sameShape (ofMethod m') := by
  have hclass : (ofMethod m).containingType = (ofMethod m').containingType := by
    have hseen : (ofMethod m.seen).containingType = (ofMethod m'.seen).containingType := by rw [h]
    exact hseen
  have hname : (ofMethod m).method = (ofMethod m').method := by
    have hseen : (ofMethod m.seen).method = (ofMethod m'.seen).method := by rw [h]
    exact hseen
  rw [sameShape, hclass, hname, parameters_ofMethod_seen m, parameters_ofMethod_seen m',
    hasLocalTypes_ofMethod_seen m, hasLocalTypes_ofMethod_seen m', h]
  simp only [beq_self_eq_true, Bool.and_self]

end FunctionSignature

/-- A candidate as the assembly of its method sees it. -/
def MethodReference.seen (m : MethodReference) : MethodReference := ⟨m.name, m.isPublic, m.method.seen⟩

theorem onlyMethod_seen (name : String) (ms : List MethodReference) :
    onlyMethod name (ms.map MethodReference.seen) = (onlyMethod name ms).map MethodReference.seen := by
  match ms with
  | [] => rfl
  | [m] => rfl
  | _ :: _ :: _ => rfl

/-- The choice of an entry point depends on names and access only. -/
theorem EntryPointPolicy.resolve_seen (policy : EntryPointPolicy) (ms : List MethodReference) :
    policy.resolve (ms.map MethodReference.seen) = (policy.resolve ms).map MethodReference.seen := by
  have hvisible : (ms.map MethodReference.seen).filter (·.isPublic) =
      (ms.filter (·.isPublic)).map MethodReference.seen := List.filter_map
  have hnamed (p : String → Bool) (ms : List MethodReference) :
      (ms.map MethodReference.seen).filter (fun m => p m.name) =
        (ms.filter fun m => p m.name).map MethodReference.seen := List.filter_map
  unfold resolve
  simp only [hvisible]
  split
  · next name _ => rw [hnamed (· == name), onlyMethod_seen]
  · generalize ms.filter (·.isPublic) = visible
    match visible with
    | [] => rfl
    | [m] => rfl
    | m :: k :: more =>
      have hrun := hnamed (·.toLower == defaultEntryPoint.toLower) (m :: k :: more)
      simp only [List.map_cons] at hrun ⊢
      rw [hrun, onlyMethod_seen]

/-- **Among methods that are seen alike a policy chooses methods that are seen alike**, or refuses
for the same reason. -/
theorem EntryPointPolicy.resolve_alike {ms ms' : List MethodSymbol}
    (h : ms.map MethodSymbol.seen = ms'.map MethodSymbol.seen) (policy : EntryPointPolicy) :
    (∃ m m', policy.resolve (ms.map .ofMethod) = .ok m ∧ policy.resolve (ms'.map .ofMethod) = .ok m' ∧
        m.method.seen = m'.method.seen) ∨
      ∃ e, policy.resolve (ms.map .ofMethod) = .error e ∧
        policy.resolve (ms'.map .ofMethod) = .error e := by
  have hseen (ms : List MethodSymbol) : (policy.resolve (ms.map .ofMethod)).map MethodReference.seen =
      policy.resolve ((ms.map MethodSymbol.seen).map .ofMethod) := by
    rw [← resolve_seen, List.map_map, List.map_map]
    rfl
  have hboth := (hseen ms).trans ((congrArg _ (congrArg _ h)).trans (hseen ms').symm)
  generalize policy.resolve (ms.map .ofMethod) = r at hboth ⊢
  generalize policy.resolve (ms'.map .ofMethod) = r' at hboth ⊢
  cases r with
  | ok m =>
    cases r' with
    | ok m' =>
      exact .inl ⟨m, m', rfl, rfl, congrArg MethodReference.method (Except.ok.inj hboth)⟩
    | error e' => cases hboth
  | error e =>
    cases r' with
    | ok m' => cases hboth
    | error e' =>
      obtain rfl : e = e' := Except.error.inj hboth
      exact .inr ⟨e, rfl, rfl⟩

end ScriptHost
