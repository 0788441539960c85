/-
# Scopes that differ in the assembly that is made

Two compilations may read the same declarations at different places and make assemblies of
different identities. Each resolves every written type to what its own assembly sees alike,
with the same findings but for their places, as long as neither assembly is one of those
referred to.

Key definitions: `Scope.Alike`, `Resolved.seenFrom`, `Entry.seenFrom`.
Key theorems: `Scope.Alike.lookup`, `Scope.Alike.resolve`, `Scope.Alike.entries`.
-/
import Mathlib.Data.List.Basic
import ScriptHost.Proofs.Binding.Kinds
import ScriptHost.Proofs.Item.Bare
import ScriptHost.Proofs.Symbol.Seen

namespace ScriptHost

open Source

/-- What a written type stands for as an assembly sees it, and what is wrong with it, without
places. -/
def Resolved.seenFrom (assembly : AssemblyIdentity) (r : Resolved) : Resolved :=
  ⟨r.type.seenFrom assembly, r.findings.map Diagnostic.bare⟩

/-- What an item puts into the class as an assembly sees it, without places. -/
def Entry.seenFrom (assembly : AssemblyIdentity) : Entry → Entry
  | member m body? => member (m.seenFrom assembly) (body?.map Body.bare)
  | statement body => statement body.bare

namespace Scope

/-- **Names mean the same in both scopes**, but for the assembly that is made: this one is none
of those referred to, nor the one that the predefined words are taken from. -/
structure Alike (s s' : Scope) : Prop where
  declared : s.declared.map (fun e => (e.1, e.2.seenFrom s.assembly)) =
    s'.declared.map fun e => (e.1, e.2.seenFrom s'.assembly)
  references : s.references = s'.references
  imports : s.imports = s'.imports
  aliases : s.aliases = s'.aliases
  other : ∀ a ∈ systemRuntime :: s.references, a.identity ≠ s.assembly ∧ a.identity ≠ s'.assembly

namespace Alike

variable {s s' : Scope} {t t' : TypeSymbol} {args args' : List TypeSymbol}

/-- What a name stands for, if anything, as each assembly sees it. -/
def Same (s s' : Scope) (r r' : Except NameFault TypeSymbol) : Prop :=
  r.map (·.seenFrom s.assembly) = r'.map (·.seenFrom s'.assembly)

theorem symbol (h : s.Alike s') {a : AssemblyMetadata} (ha : a ∈ systemRuntime :: s.references)
    (d : TypeDefinition) : (a.symbol d).seenFrom s.assembly = (a.symbol d).seenFrom s'.assembly :=
  TypeSymbol.seenFrom_other (h.other a ha).1 (h.other a ha).2 _ _ _

/-! ### Names -/

theorem search (h : s.Alike s') (visible : String → Bool) (name : String) (arity : Nat) :
    Same s s' (s.search visible name arity) (s'.search visible name arity) := by
  have heq : s'.search visible name arity = s.search visible name arity := by
    simp only [Scope.search, candidates, visibleArity?, h.references]
  rw [Same, heq]
  cases hr : s.search visible name arity with
  | error fault => rfl
  | ok t =>
    obtain ⟨a, ha, d, -, rfl⟩ := exists_of_search hr
    exact congrArg Except.ok (h.symbol (List.mem_cons_of_mem _ ha) d)

theorem unlisted (h : s.Alike s') (namespace? : Option String) (name : String) :
    Same s s' (s.unlisted namespace? name) (s'.unlisted namespace? name) := by
  rw [Same, Scope.unlisted, Scope.unlisted, ← h.references]
  cases ha : s.references.find? (·.isUnlisted) with
  | none => rfl
  | some a =>
    have hmem := List.mem_cons_of_mem systemRuntime (List.mem_of_find?_eq_some ha)
    exact congrArg Except.ok
      (TypeSymbol.seenFrom_other (h.other a hmem).1 (h.other a hmem).2 _ _ _)

/-- The outcome of a search, or `q` if it finds nothing. -/
def orElse (r q : Except NameFault TypeSymbol) : Except NameFault TypeSymbol :=
  match r with
  | .error .unknown => q
  | outcome => outcome

theorem Same.orElse {r r' q q' : Except NameFault TypeSymbol} (h : Same s s' r r')
    (hq : Same s s' q q') : Same s s' (orElse r q) (orElse r' q') := by
  cases r with
  | ok t =>
    cases r' with
    | ok t' => exact h
    | error fault' => cases h
  | error fault =>
    cases r' with
    | ok t' => cases h
    | error fault' =>
      obtain rfl : fault = fault' := Except.error.inj h
      cases fault with
      | unknown => exact hq
      | _ => rfl

theorem lookupQualified (h : s.Alike s') (qualifier name : String) (arity : Nat) :
    Same s s' (s.lookupQualified qualifier name arity) (s'.lookupQualified qualifier name arity) := by
  simp only [Scope.lookupQualified, ← h.aliases]
  exact (h.search _ name arity).orElse (h.unlisted _ name)

/-- The declared types are found under the same keys. -/
theorem lookup_declared (h : s.Alike s') (key : String × Nat) :
    (s.declared.lookup key).map (·.seenFrom s.assembly) =
      (s'.declared.lookup key).map (·.seenFrom s'.assembly) := by
  have hlookup (assembly : AssemblyIdentity) : ∀ l : List ((String × Nat) × TypeSymbol),
      (l.map fun e => (e.1, e.2.seenFrom assembly)).lookup key =
        (l.lookup key).map (·.seenFrom assembly) := by
    intro l
    induction l with
    | nil => rfl
    | cons e l ih =>
      rw [List.map_cons, List.lookup_cons, List.lookup_cons]
      split
      · rfl
      · exact ih
  rw [← hlookup, ← hlookup, h.declared]

theorem declaredArity? (h : s.Alike s') (name : String) :
    s.declaredArity? name = s'.declaredArity? name := by
  have hfind (assembly : AssemblyIdentity) (l : List ((String × Nat) × TypeSymbol)) :
      ((l.map fun e => (e.1, e.2.seenFrom assembly)).find? (·.1.1 == name)).map (·.1.2) =
        (l.find? (·.1.1 == name)).map (·.1.2) := by
    rw [List.find?_map, Option.map_map]
    rfl
  rw [Scope.declaredArity?, ← hfind s.assembly, h.declared, hfind, ← Scope.declaredArity?]

/-- What a name stands for of which no type is declared or listed with the arity. -/
def behindSearch (s : Scope) (name : String) : Except NameFault TypeSymbol :=
  match s.declaredArity? name with
  | some expected => .error (.wrongArity expected)
  | none => s.unlisted none name

theorem same_behindSearch (h : s.Alike s') (name : String) :
    Same s s' (behindSearch s name) (behindSearch s' name) := by
  unfold behindSearch
  rw [← h.declaredArity? name]
  cases s.declaredArity? name with
  | none => exact h.unlisted none name
  | some expected => rfl

theorem lookupVisible (h : s.Alike s') (name : String) (arity : Nat) :
    Same s s' (s.lookupVisible name arity) (s'.lookupVisible name arity) := by
  have hdeclared := h.lookup_declared (name, arity)
  unfold Scope.lookupVisible
  cases hs : s.declared.lookup (name, arity) with
  | some t =>
    obtain ⟨t', ht', hsame⟩ := Option.map_eq_some_iff.mp (hdeclared.symm.trans (by rw [hs]; rfl))
    rw [ht']
    exact congrArg Except.ok hsame.symm
  | none =>
    rw [hs, Option.map_none, eq_comm, Option.map_eq_none_iff] at hdeclared
    rw [hdeclared, ← h.imports]
    exact (h.search _ name arity).orElse (h.same_behindSearch name)

/-- **A name stands for what both assemblies see alike**, or for nothing by the same fault. -/
theorem lookup (h : s.Alike s') (qualifier? : Option String) (name : String) (arity : Nat) :
    Same s s' (s.lookup qualifier? name arity) (s'.lookup qualifier? name arity) := by
  cases qualifier? with
  | some qualifier => exact h.lookupQualified qualifier name arity
  | none =>
    simp only [Scope.lookup, ← h.aliases]
    generalize (s.aliases.lookup name).bind _ = target?
    cases target? with
    | some target => exact h.search _ target.2 arity
    | none => exact h.lookupVisible name arity

/-! ### Predefined words -/

theorem frameworkType (h : s.Alike s') (name : String) :
    (frameworkType name).seenFrom s.assembly = (ScriptHost.frameworkType name).seenFrom s'.assembly := by
  unfold ScriptHost.frameworkType
  split
  · next d _ => exact h.symbol List.mem_cons_self d
  · rw [TypeSymbol.seenFrom_unresolved, TypeSymbol.seenFrom_unresolved]

theorem nullableOf (h : s.Alike s') (ht : t.seenFrom s.assembly = t'.seenFrom s'.assembly) :
    (nullableOf t).seenFrom s.assembly = (ScriptHost.nullableOf t').seenFrom s'.assembly := by
  unfold ScriptHost.nullableOf
  split
  · next d _ =>
    rw [TypeSymbol.seenFrom_construct, TypeSymbol.seenFrom_construct,
      h.symbol List.mem_cons_self d, List.map_singleton, List.map_singleton, ht]
  · exact ht

theorem word? (h : s.Alike s') (parameters : List String) (name : String) :
    (s.word? parameters name).map (·.seenFrom s.assembly) =
      (s'.word? parameters name).map (·.seenFrom s'.assembly) := by
  unfold Scope.word?
  split
  · next framework _ => exact congrArg some (h.frameworkType framework)
  · split
    · simp [TypeSymbol.parameter, TypeSymbol.seenFrom, TypeSymbol.allSeenFrom]
    · rfl

/-! ### Written types -/

theorem withSuffix (h : s.Alike s') (ht : t.seenFrom s.assembly = t'.seenFrom s'.assembly)
    (suffix : TypeSuffix) :
    (withSuffix t suffix).seenFrom s.assembly = (Scope.withSuffix t' suffix).seenFrom s'.assembly := by
  cases suffix with
  | array =>
    simp only [Scope.withSuffix, TypeSymbol.seenFrom_arrayOf, ht]
  | nullable =>
    have hkind : t.kind = t'.kind := by
      rw [← TypeSymbol.kind_seenFrom s.assembly, ht, TypeSymbol.kind_seenFrom]
    simp only [Scope.withSuffix, hkind]
    split
    · exact h.nullableOf ht
    · exact ht

theorem withSuffixes (h : s.Alike s') : ∀ (suffixes : List TypeSuffix) {t t' : TypeSymbol},
    t.seenFrom s.assembly = t'.seenFrom s'.assembly →
      (suffixes.foldl Scope.withSuffix t).seenFrom s.assembly =
        (suffixes.foldl Scope.withSuffix t').seenFrom s'.assembly
  | [], _, _, ht => ht
  | suffix :: suffixes, _, _, ht => h.withSuffixes suffixes (h.withSuffix ht suffix)

theorem resolveName (h : s.Alike s') (parameters : List String) (path : String) (written : TypeExpr)
    (hargs : args.map (·.seenFrom s.assembly) = args'.map (·.seenFrom s'.assembly)) :
    (s.resolveName parameters path written args).seenFrom s.assembly =
      (s'.resolveName parameters path written.bare args').seenFrom s'.assembly := by
  have hlength : args.length = args'.length := by
    simpa using congrArg List.length hargs
  have hnil : args = [] ↔ args' = [] := by
    rw [← List.length_eq_zero_iff, hlength, List.length_eq_zero_iff]
  have hword : (if written.path.length = 1 ∧ args = [] then s.word? parameters written.name
      else none).map (·.seenFrom s.assembly) =
        (if written.bare.path.length = 1 ∧ args' = [] then s'.word? parameters written.bare.name
          else none).map (·.seenFrom s'.assembly) := by
    simp only [TypeExpr.path_bare, List.length_map, hnil, TypeExpr.name_bare]
    split
    · exact h.word? parameters written.name
    · rfl
  have hlookup := h.lookup written.qualifier? written.name args.length
  unfold Scope.resolveName
  simp only [TypeExpr.qualifier?_bare, TypeExpr.name_bare, ← hlength] at hword ⊢
  generalize (if written.path.length = 1 ∧ args = [] then s.word? parameters written.name
    else none) = word at hword ⊢
  generalize (if written.bare.path.length = 1 ∧ args' = [] then s'.word? parameters written.name
    else none) = word' at hword ⊢
  match word, word', hword with
  | some type, some type', hword =>
    simp only [Resolved.seenFrom, Option.some.inj hword, List.map_nil]
  | none, none, _ =>
    generalize s.lookup written.qualifier? written.name args.length = found at hlookup ⊢
    generalize s'.lookup written.qualifier? written.name args.length = found' at hlookup ⊢
    match found, found', hlookup with
    | .ok type, .ok type', hlookup =>
      have htype : type.seenFrom s.assembly = type'.seenFrom s'.assembly := Except.ok.inj hlookup
      simp only [Resolved.seenFrom, TypeSymbol.seenFrom_instantiate, htype, hargs, List.map_nil]
    | .error fault, .error fault', hlookup =>
      obtain rfl : fault = fault' := Except.error.inj hlookup
      simp only [Resolved.seenFrom, TypeSymbol.seenFrom_unresolved]
      rfl

mutual
/-- **A written type stands for what both assemblies see alike**, wherever it is written, with the
same findings, by induction on the type. -/
theorem resolve (h : s.Alike s') (parameters : List String) (path : String) : ∀ written : TypeExpr,
    (s.resolve parameters path written).seenFrom s.assembly =
      (s'.resolve parameters path written.bare).seenFrom s'.assembly
  | .mk segments args suffixes span => by
    obtain ⟨hargs, hfound⟩ := h.resolveAll parameters path args
    have hname := h.resolveName parameters path (.mk segments args suffixes span) hargs
    obtain ⟨htype, hfindings⟩ := Resolved.mk.inj hname
    have hall := congrArg₂ (· ++ ·) hfound hfindings
    simp only [← List.map_append] at hall
    exact congrArg₂ Resolved.mk (h.withSuffixes suffixes htype) hall

theorem resolveAll (h : s.Alike s') (parameters : List String) (path : String) :
    ∀ written : List TypeExpr,
      (s.resolveAll parameters path written).1.map (·.seenFrom s.assembly) =
          (s'.resolveAll parameters path (TypeExpr.bareAll written)).1.map (·.seenFrom s'.assembly) ∧
        (s.resolveAll parameters path written).2.map Diagnostic.bare =
          (s'.resolveAll parameters path (TypeExpr.bareAll written)).2.map Diagnostic.bare
  | [] => ⟨rfl, rfl⟩
  | t :: more => by
    obtain ⟨htype, hfindings⟩ := Resolved.mk.inj (h.resolve parameters path t)
    obtain ⟨htypes, hmore⟩ := h.resolveAll parameters path more
    have hall := congrArg₂ (· ++ ·) hfindings hmore
    simp only [← List.map_append] at hall
    exact ⟨congrArg₂ List.cons htype htypes, hall⟩
end

/-! ### Items -/

variable (className path : String)

theorem fieldType (h : s.Alike s') (written : TypeExpr) :
    (s.fieldType path written).seenFrom s.assembly =
      (s'.fieldType path written.bare).seenFrom s'.assembly := by
  simp only [Scope.fieldType, TypeExpr.isSimple_bare, TypeExpr.name_bare]
  split
  · simp only [Resolved.seenFrom, h.frameworkType, List.map_nil]
  · exact h.resolve [] path written

theorem parameter (h : s.Alike s') (typeParameters : List String) (p : ParameterDecl) :
    (s.parameter typeParameters path p).1.seenFrom s.assembly =
        (s'.parameter typeParameters path p.bare).1.seenFrom s'.assembly ∧
      (s.parameter typeParameters path p).2.map Diagnostic.bare =
        (s'.parameter typeParameters path p.bare).2.map Diagnostic.bare := by
  obtain ⟨htype, hfindings⟩ := Resolved.mk.inj (h.resolve typeParameters path p.type)
  refine ⟨?_, hfindings⟩
  simp only [Scope.parameter, ParameterSymbol.seenFrom, htype]
  rfl

theorem method (h : s.Alike s') (d : MethodDecl) :
    (s.method className path d).1.seen = (s'.method className path d.bare).1.seen ∧
      (s.method className path d).2.map Diagnostic.bare =
        (s'.method className path d.bare).2.map Diagnostic.bare := by
  obtain ⟨hreturns, hfound⟩ :=
    Resolved.mk.inj (h.resolve (d.typeParameters.map (·.name)) path d.returns)
  have hparameter := h.parameter path (d.typeParameters.map (·.name))
  have hparameters : (d.parameters.map fun p =>
        (s.parameter (d.typeParameters.map (·.name)) path p).1.seenFrom s.assembly) =
      d.parameters.map fun p =>
        (s'.parameter (d.typeParameters.map (·.name)) path p.bare).1.seenFrom s'.assembly :=
    List.map_congr_left fun p _ => (hparameter p).1
  have hmore : (d.parameters.flatMap fun p =>
        (s.parameter (d.typeParameters.map (·.name)) path p).2.map Diagnostic.bare) =
      d.parameters.flatMap fun p =>
        (s'.parameter (d.typeParameters.map (·.name)) path p.bare).2.map Diagnostic.bare :=
    List.flatMap_congr fun p _ => (hparameter p).2
  simp only [Scope.method, MethodDecl.bare, MethodSymbol.seen, List.map_map,
    List.map_append, List.flatMap_map, List.map_flatMap]
  refine ⟨?_, congrArg₂ (· ++ ·) hfound hmore⟩
  rw [MethodSymbol.mk.injEq]
  exact ⟨rfl, rfl, rfl, rfl, hreturns, rfl, hparameters, rfl⟩

/-- **An item puts into the class what both assemblies see alike.** -/
theorem entries (h : s.Alike s') (item : Item) :
    (s.entries className path item).1.map (·.seenFrom s.assembly) =
        (s'.entries className path item.bare).1.map (·.seenFrom s'.assembly) ∧
      (s.entries className path item).2.map Diagnostic.bare =
        (s'.entries className path item.bare).2.map Diagnostic.bare := by
  cases item with
  | method d =>
    obtain ⟨hmethod, hfindings⟩ := h.method className path d
    refine ⟨?_, hfindings⟩
    simp only [Scope.entries, Item.bare, List.map_cons, List.map_nil, Entry.seenFrom,
      Member.seenFrom, hmethod]
    rfl
  | field d =>
    obtain ⟨htype, hfindings⟩ := Resolved.mk.inj (h.fieldType path d.type)
    refine ⟨?_, hfindings⟩
    simp only [Scope.entries, Item.bare, FieldDecl.bare, List.map_map]
    refine List.map_congr_left fun name _ => ?_
    simp only [Function.comp_apply, Entry.seenFrom, Member.seenFrom, FieldSymbol.seenFrom, htype]
    rfl
  | property d =>
    obtain ⟨htype, hfindings⟩ := Resolved.mk.inj (h.resolve [] path d.type)
    refine ⟨?_, hfindings⟩
    simp only [Scope.entries, Item.bare, PropertyDecl.bare, List.map_cons, List.map_nil,
      Entry.seenFrom, Member.seenFrom, FieldSymbol.seenFrom, htype]
    rfl
  | _ => exact ⟨rfl, rfl⟩

theorem baseFindings (h : s.Alike s') (item : Item) :
    (s.baseFindings path item).map Diagnostic.bare =
      (s'.baseFindings path item.bare).map Diagnostic.bare := by
  cases item with
  | typeDecl d =>
    have hbases := (h.resolveAll (d.typeParameters.map (·.name)) path d.bases).2
    rw [TypeExpr.bareAll_eq_map] at hbases
    simp only [Scope.baseFindings, Item.bare, TypeDecl.bare, names_bare]
    exact hbases
  | _ => rfl

end Alike

end Scope

end ScriptHost
