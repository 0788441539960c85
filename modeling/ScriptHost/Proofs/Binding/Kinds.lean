/-
# The kinds of resolved types

A written type that resolves without a finding stands for a type in which nothing is left
open: neither it nor anything under it has the kind `error`, as long as the referenced
assemblies list no type of that kind themselves. The words for predefined types are all
found in the core framework.

Key definitions: `TypeSymbol.Within`, `TypeSymbol.Settled`, `AssemblyMetadata.IsSettled`,
`Scope.IsSettled`, `Scope.Finds`.
Key theorems: `Scope.finds_of_lookup`, `Scope.settled_of_lookup`, `Scope.settled_resolve`,
`isSettled_scopeOf`.
-/
import ScriptHost.Binding.Compilation
import ScriptHost.Proofs.Assembly.Index

namespace ScriptHost

namespace TypeSymbol

/-- A type within another: the type itself, and what is within its type arguments or the
element of an array. -/
inductive Within : TypeSymbol → TypeSymbol → Prop
  | self (t : TypeSymbol) : Within t t
  | arg {u a t : TypeSymbol} (ha : a ∈ t.args) (hu : Within u a) : Within u t

/-- Nothing within the type is an error. -/
def Settled (t : TypeSymbol) : Prop := ∀ u, Within u t → u.kind ≠ .error

theorem settled_iff {t : TypeSymbol} :
    t.Settled ↔ t.kind ≠ .error ∧ ∀ a ∈ t.args, a.Settled := by
  constructor
  · exact fun h => ⟨h t (.self t), fun a ha u hu => h u (.arg ha hu)⟩
  · rintro ⟨hkind, hargs⟩ u hu
    cases hu with
    | self => exact hkind
    | arg ha hu => exact hargs _ ha u hu

/-- A type is as settled as what it is constructed with. -/
theorem settled_construct {t : TypeSymbol} {args : List TypeSymbol} (ht : t.kind ≠ .error)
    (hargs : ∀ a ∈ args, a.Settled) : (t.construct args).Settled := by
  cases t
  exact settled_iff.mpr ⟨ht, hargs⟩

theorem settled_arrayOf {t : TypeSymbol} (h : t.Settled) : (arrayOf t).Settled :=
  settled_iff.mpr ⟨by simp [arrayOf, kind], fun a ha => by
    obtain rfl := List.mem_singleton.mp ha
    exact h⟩

theorem settled_parameter (name : String) (assembly : AssemblyIdentity) :
    (parameter name assembly).Settled :=
  settled_iff.mpr ⟨by simp [parameter, kind], fun a ha => absurd ha List.not_mem_nil⟩

end TypeSymbol

/-- A type behind which type arguments stand is as settled as they are, and one behind which none
stand is as settled as it is by itself. -/
theorem TypeSymbol.settled_instantiate {t : TypeSymbol} {args : List TypeSymbol}
    (ht : t.kind ≠ .error) (hbare : args = [] → t.Settled) (hargs : ∀ a ∈ args, a.Settled) :
    (t.instantiate args).Settled := by
  cases args with
  | nil => exact hbare rfl
  | cons first more => exact settled_construct ht hargs

open TypeSymbol

/-! ### Assemblies -/

/-- The assembly lists no type of the kind `error`. -/
def AssemblyMetadata.IsSettled (a : AssemblyMetadata) : Prop := ∀ d ∈ a.types, d.kind ≠ .error

instance (a : AssemblyMetadata) : Decidable a.IsSettled :=
  inferInstanceAs (Decidable (∀ d ∈ a.types, d.kind ≠ .error))

theorem AssemblyMetadata.mem_types_of_find {a : AssemblyMetadata} {name : String} {arity : Nat}
    {d : TypeDefinition} (h : d ∈ a.find name arity) : d ∈ a.types := by
  obtain ⟨i, -, hi⟩ := List.mem_filterMap.mp h
  exact List.mem_of_getElem? hi

/-- What a reference keeps holds of all references, if it holds of those that every script has. -/
theorem References.ofDocuments_induction {motive : References → Prop} {source : ReferenceSource}
    (hdefaults : motive ⟨source.defaultReferences, []⟩)
    (hadd : ∀ folder? rs r, motive rs → motive (add source folder? rs r))
    (documents : List Document) : motive (ofDocuments source documents) := by
  refine List.foldlRecOn (motive := motive) documents _ hdefaults fun rs hrs d _ => ?_
  exact List.foldlRecOn (motive := motive) d.references _ hrs fun rs hrs r _ => hadd _ rs r hrs

/-- A reference adds the assembly that it is resolved to, if any. -/
theorem References.add_cases (source : ReferenceSource) (folder? : Option String) (rs : References)
    (r : SourceReference) :
    (add source folder? rs r).assemblies = rs.assemblies ∨
      ∃ a, source.resolve? r.reference folder? = some a ∧
        (add source folder? rs r).assemblies = rs.assemblies ++ [a] := by
  unfold add
  split
  next a ha =>
    split
    · exact .inl rfl
    · exact .inr ⟨a, ha, rfl⟩
  · exact .inl rfl

/-- The assemblies that documents refer to are the standard ones and those that were resolved. -/
theorem References.forall_assemblies {P : AssemblyMetadata → Prop} {source : ReferenceSource}
    (hdefaults : ∀ a ∈ source.defaultReferences, P a)
    (hresolved : ∀ reference folder? a, source.resolve? reference folder? = some a → P a)
    (documents : List Document) : ∀ a ∈ (ofDocuments source documents).assemblies, P a := by
  refine ofDocuments_induction (motive := fun rs => ∀ a ∈ rs.assemblies, P a) hdefaults
    (fun folder? rs r h => ?_) documents
  rcases add_cases source folder? rs r with hsame | ⟨a, ha, hmore⟩
  · rwa [hsame]
  · rw [hmore]
    exact List.forall_mem_append.mpr ⟨h, List.forall_mem_singleton.mpr (hresolved _ _ _ ha)⟩

/-- The assemblies that every script refers to stay among the references. -/
theorem References.mem_assemblies {source : ReferenceSource} {a : AssemblyMetadata}
    (h : a ∈ source.defaultReferences) (documents : List Document) :
    a ∈ (ofDocuments source documents).assemblies := by
  refine ofDocuments_induction (motive := fun rs => a ∈ rs.assemblies) h
    (fun folder? rs r h => ?_) documents
  rcases add_cases source folder? rs r with hsame | ⟨b, -, hmore⟩
  · rwa [hsame]
  · rw [hmore]
    exact List.mem_append_left _ h

/-- The declared types are those of type declarations. -/
theorem TypeTable.forall_declared {P : TypeSymbol → Prop} {assembly : AssemblyIdentity}
    {documents : List Document} (h : ∀ d ∈ documents, ∀ decl, .typeDecl decl ∈ d.script.items →
      P (.named none decl.name.name decl.kind.typeKind assembly)) :
    ∀ e ∈ (ofDocuments assembly documents).declared, P e.2 := by
  let Holds (ts : TypeTable) : Prop := ∀ e ∈ ts.declared, P e.2
  refine List.foldlRecOn (motive := Holds) documents _ (by simp [Holds]) fun ts hts d hd => ?_
  refine List.foldlRecOn (motive := Holds) d.script.items _ hts fun ts hts item hitem => ?_
  cases item with
  | typeDecl decl =>
    simp only [add]
    split
    · exact hts
    · exact List.forall_mem_append.mpr ⟨hts, List.forall_mem_singleton.mpr (h d hd decl hitem)⟩
  | _ => exact hts

/-- Declared types are not errors. -/
theorem TypeTable.kind_ne_error (assembly : AssemblyIdentity) (documents : List Document) :
    ∀ e ∈ (ofDocuments assembly documents).declared, e.2.kind ≠ .error :=
  forall_declared (P := fun t => t.kind ≠ .error) fun _ _ decl _ => by
    show decl.kind.typeKind ≠ .error
    cases decl.kind <;> simp [TypeDeclKind.typeKind]

/-- Declared types have no type arguments of their own. -/
theorem TypeTable.args_of_declared (assembly : AssemblyIdentity) (documents : List Document) :
    ∀ e ∈ (ofDocuments assembly documents).declared, e.2.args = [] :=
  forall_declared (P := fun t => t.args = []) fun _ _ _ _ => rfl

/-! ### Predefined words -/

theorem settled_frameworkType {name : String} (h : (frameworkType name).kind ≠ .error) :
    (frameworkType name).Settled := by
  have hargs : (frameworkType name).args = [] := by
    unfold frameworkType
    split <;> rfl
  exact settled_iff.mpr ⟨h, by simp [hargs]⟩

/-- Every predefined word stands for a type that the core framework lists. -/
theorem settled_keywordType {word framework : String} (h : keywordType? word = some framework) :
    (frameworkType framework).Settled := by
  unfold keywordType? at h
  split at h
  all_goals cases h
  all_goals exact settled_frameworkType (by decide +kernel)

theorem settled_nullableOf {t : TypeSymbol} (h : t.Settled) : (nullableOf t).Settled := by
  unfold nullableOf
  split
  next d hd =>
    have hmem := AssemblyMetadata.mem_types_of_find (List.mem_of_head? hd)
    have hkind : ∀ d ∈ systemRuntimeTypes, d.kind ≠ .error := by decide +kernel
    exact settled_construct (hkind d hmem) fun a ha => by
      obtain rfl := List.mem_singleton.mp ha
      exact h
  · exact h

/-! ### Scopes -/

namespace Scope

/-- Nothing that a name may mean in the scope is an error, nor has an error within it. The
arguments of a declared type count if it may be written without any. -/
structure IsSettled (s : Scope) : Prop where
  references : ∀ a ∈ s.references, a.IsSettled
  declared : ∀ e ∈ s.declared, e.2.kind ≠ .error
  arguments : ∀ e ∈ s.declared, e.1.2 = 0 → ∀ a ∈ e.2.args, a.Settled

variable {s : Scope} {name : String} {arity : Nat} {t : TypeSymbol}

/-- What a search finds is a type that one of the references lists. -/
theorem exists_of_search {visible : String → Bool} (h : s.search visible name arity = .ok t) :
    ∃ a ∈ s.references, ∃ d ∈ a.types, t = a.symbol d := by
  unfold search at h
  split at h
  · split at h <;> cases h
  next a d hone =>
    have hmem : (a, d) ∈ s.candidates visible name arity := by
      rw [hone]
      exact List.mem_singleton_self _
    obtain ⟨b, hb, hd⟩ := List.mem_flatMap.mp hmem
    obtain ⟨d', hd', heq⟩ := List.mem_map.mp hd
    obtain ⟨rfl, rfl⟩ := Prod.mk.inj heq
    exact ⟨b, hb, d', AssemblyMetadata.mem_types_of_find (List.mem_filter.mp hd').1,
      (Except.ok.inj h).symm⟩
  · cases h

/-- The ways in which a name with so many type arguments is found. -/
inductive Finds (s : Scope) (name : String) (arity : Nat) (t : TypeSymbol) : Prop
  /-- A reference lists a type of the name. -/
  | listed (visible : String → Bool) (h : s.search visible name arity = .ok t)
  /-- The name is an alias, and a reference lists its target. -/
  | target (text namespaceName target : String) (halias : (name, text) ∈ s.aliases)
      (hsplit : splitAtLastPoint? text = some (namespaceName, target))
      (h : s.search (· == namespaceName) target arity = .ok t)
  /-- A reference that lists no types is taken to have one of the name. -/
  | unlisted (namespace? : Option String) (h : s.unlisted namespace? name = .ok t)
  /-- The documents declare a type of the name. -/
  | declared (h : ((name, arity), t) ∈ s.declared)

theorem finds_of_lookupQualified {qualifier : String}
    (h : s.lookupQualified qualifier name arity = .ok t) : s.Finds name arity t := by
  simp only [lookupQualified] at h
  split at h
  · exact .unlisted _ h
  · exact .listed _ h

theorem finds_of_lookupVisible (h : s.lookupVisible name arity = .ok t) :
    s.Finds name arity t := by
  unfold lookupVisible at h
  split at h
  next type hd =>
    obtain rfl := Except.ok.inj h
    exact .declared (mem_of_lookup_eq_some hd)
  · split at h
    · split at h
      · cases h
      · exact .unlisted _ h
    · exact .listed _ h

/-- **What a name stands for is found in one of the ways.** -/
theorem finds_of_lookup {qualifier? : Option String}
    (h : s.lookup qualifier? name arity = .ok t) : s.Finds name arity t := by
  unfold lookup at h
  split at h
  · exact finds_of_lookupQualified h
  · split at h
    next namespaceName target halias =>
      obtain ⟨text, htext, hsplit⟩ := Option.bind_eq_some_iff.mp halias
      exact .target text namespaceName target (mem_of_lookup_eq_some htext) hsplit h
    · exact finds_of_lookupVisible h

theorem kind_of_search (hs : s.IsSettled) {visible : String → Bool}
    (h : s.search visible name arity = .ok t) : t.kind ≠ .error := by
  obtain ⟨a, ha, d, hd, rfl⟩ := exists_of_search h
  exact hs.references a ha d hd

theorem kind_of_unlisted {namespace? : Option String}
    (h : s.unlisted namespace? name = .ok t) : t.kind ≠ .error := by
  unfold unlisted at h
  split at h
  · obtain rfl := Except.ok.inj h
    simp [named, TypeSymbol.kind]
  · cases h

theorem args_of_search {visible : String → Bool} (h : s.search visible name arity = .ok t) :
    t.args = [] := by
  obtain ⟨a, -, d, -, rfl⟩ := exists_of_search h
  rfl

theorem args_of_unlisted {namespace? : Option String} (h : s.unlisted namespace? name = .ok t) :
    t.args = [] := by
  unfold unlisted at h
  split at h
  · obtain rfl := Except.ok.inj h
    rfl
  · cases h

/-- What a name stands for has no arguments of its own, unless it is a declared type. -/
theorem args_of_lookup {qualifier? : Option String} (h : s.lookup qualifier? name arity = .ok t) :
    t.args = [] ∨ ((name, arity), t) ∈ s.declared := by
  cases finds_of_lookup h with
  | listed visible h => exact .inl (args_of_search h)
  | target text namespaceName target halias hsplit h => exact .inl (args_of_search h)
  | unlisted namespace? h => exact .inl (args_of_unlisted h)
  | declared h => exact .inr h

/-- **What a name stands for is not an error.** -/
theorem kind_of_lookup (hs : s.IsSettled) {qualifier? : Option String}
    (h : s.lookup qualifier? name arity = .ok t) : t.kind ≠ .error := by
  cases finds_of_lookup h with
  | listed visible h => exact kind_of_search hs h
  | target text namespaceName target halias hsplit h => exact kind_of_search hs h
  | unlisted namespace? h => exact kind_of_unlisted h
  | declared h => exact hs.declared _ h

/-- **What a name without type arguments stands for is settled.** -/
theorem settled_of_lookup (hs : s.IsSettled) {qualifier? : Option String}
    (h : s.lookup qualifier? name 0 = .ok t) : t.Settled := by
  refine settled_iff.mpr ⟨kind_of_lookup hs h, fun a ha => ?_⟩
  rcases args_of_lookup h with hargs | hdeclared
  · rw [hargs] at ha
    exact absurd ha List.not_mem_nil
  · exact hs.arguments _ hdeclared rfl a ha

variable {parameters : List String} {path : String}

theorem settled_word (h : s.word? parameters name = some t) : t.Settled := by
  unfold word? at h
  split at h
  next framework hk =>
    obtain rfl := Option.some.inj h
    exact settled_keywordType hk
  · split at h
    · obtain rfl := Option.some.inj h
      exact settled_parameter _ _
    · cases h

theorem settled_resolveName (hs : s.IsSettled) {written : TypeExpr} {args : List TypeSymbol}
    (hargs : ∀ a ∈ args, a.Settled)
    (h : (s.resolveName parameters path written args).findings = []) :
    (s.resolveName parameters path written args).type.Settled := by
  unfold resolveName at h ⊢
  split
  next type hword =>
    split at hword
    · exact settled_word hword
    · cases hword
  · split
    next type hlookup =>
      refine settled_instantiate (kind_of_lookup hs hlookup) (fun hnil => ?_) hargs
      rw [hnil] at hlookup
      exact settled_of_lookup hs hlookup
    next fault hlookup => simp [*] at h

theorem settled_withSuffix (suffix : TypeSuffix) (h : t.Settled) : (withSuffix t suffix).Settled := by
  cases suffix with
  | array => exact settled_arrayOf h
  | nullable =>
    show (if t.kind.isValueType then nullableOf t else t).Settled
    split
    · exact settled_nullableOf h
    · exact h

mutual
/-- **A type that resolves without a finding is settled**, by induction on what is written. -/
theorem settled_resolve (hs : s.IsSettled) : ∀ written : TypeExpr,
    (s.resolve parameters path written).findings = [] →
      (s.resolve parameters path written).type.Settled
  | .mk segments args suffixes span, h => by
    obtain ⟨hargs, hname⟩ := List.append_eq_nil_iff.mp h
    have hbase := settled_resolveName hs (settled_resolveAll hs args hargs) hname
    exact List.foldlRecOn suffixes _ hbase fun t ht suffix _ => settled_withSuffix suffix ht

theorem settled_resolveAll (hs : s.IsSettled) : ∀ written : List TypeExpr,
    (s.resolveAll parameters path written).2 = [] →
      ∀ t ∈ (s.resolveAll parameters path written).1, t.Settled
  | [], _ => by simp [resolveAll]
  | t :: more, h => by
    obtain ⟨hfirst, hmore⟩ := List.append_eq_nil_iff.mp h
    intro u hu
    rcases List.mem_cons.mp hu with rfl | hu
    · exact settled_resolve hs t hfirst
    · exact settled_resolveAll hs more hmore u hu
end

end Scope

/-- The scope of documents is settled if what they refer to is. -/
theorem isSettled_scopeOf {source : ReferenceSource} {documents : List Document}
    (h : ∀ a ∈ (References.ofDocuments source documents).assemblies, a.IsSettled)
    (assembly : AssemblyIdentity) :
    (Compilation.scopeOf assembly source documents).IsSettled where
  references := h
  declared := TypeTable.kind_ne_error assembly documents
  arguments e he _ a ha := by
    rw [TypeTable.args_of_declared assembly documents e he] at ha
    exact absurd ha List.not_mem_nil

end ScriptHost
