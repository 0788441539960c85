/-
# Written types that use the script's own

A type that a method takes is local if the host cannot know it: it is declared in the script, or
one of the method's type parameters, or made with such a type at any depth, but no array. This
can be read off what is written. The name of a local type means a declared type or a type
parameter, or it means some other type that takes part in generic types, and one of the arguments
is local; and no array suffix stands behind it. A nullable suffix makes no difference, and what
the name of no type stands in front of is not local.

Key definitions: `Scope.NamesParameter`, `Scope.NamesDeclared`, `Scope.UsesLocal`,
`Compilation.FlagTold`.
Key theorems: `Scope.assembly?_of_meaning`, `Scope.isLocalTo_resolve_iff`,
`TypeTable.isSome_lookup_iff`, `Compilation.hasLocalTypes_iff`.
-/
import ScriptHost.CompilationUnit
import ScriptHost.Proofs.Binding.Meanings
import ScriptHost.Proofs.Binding.Verdicts
import ScriptHost.Proofs.Binding.Versions
import ScriptHost.Proofs.Emission.Contents
import ScriptHost.Proofs.EntryPoint

namespace ScriptHost

/-! ### How local types are made -/

namespace TypeSymbol

variable (assembly : AssemblyIdentity)

theorem anyLocalTo_iff (ts : List TypeSymbol) :
    anyLocalTo assembly ts = true ↔ ∃ t ∈ ts, t.isLocalTo assembly = true := by
  induction ts with
  | nil => simp [anyLocalTo]
  | cons t more ih => rw [anyLocalTo, Bool.or_eq_true, ih, List.exists_mem_cons_iff]

/-- A constructed type is local if it belongs to the assembly, or if it is no array and one of its
arguments is local. -/
theorem isLocalTo_construct_iff (t : TypeSymbol) (args : List TypeSymbol) :
    (t.construct args).isLocalTo assembly = true ↔
      t.assembly? = some assembly ∨
        t.kind ≠ .array ∧ ∃ a ∈ args, a.isLocalTo assembly = true := by
  obtain ⟨ns, name, kind, owner?, args'⟩ := t
  rw [construct, isLocalTo, Bool.or_eq_true, Bool.and_eq_true, beq_iff_eq, bne_iff_ne,
    anyLocalTo_iff]
  exact Iff.rfl

/-- So is a type with type arguments behind its name, if none of its own are left out. -/
theorem isLocalTo_instantiate_iff {assembly : AssemblyIdentity} {t : TypeSymbol}
    (h : t.args = [] ∨ t.assembly? = some assembly) (args : List TypeSymbol) :
    (t.instantiate args).isLocalTo assembly = true ↔
      t.assembly? = some assembly ∨
        t.kind ≠ .array ∧ ∃ a ∈ args, a.isLocalTo assembly = true := by
  rcases h with hbare | hown
  · rw [instantiate_eq_construct hbare, isLocalTo_construct_iff]
  · refine iff_of_true ?_ (.inl hown)
    cases args with
    | nil =>
      obtain ⟨ns, name, kind, owner?, args⟩ := t
      obtain rfl : owner? = some assembly := hown
      rw [instantiate_nil, isLocalTo, beq_self_eq_true, Bool.true_or]
    | cons first more => exact (isLocalTo_construct_iff assembly t _).mpr (.inl hown)

theorem isLocalTo_arrayOf (t : TypeSymbol) : (arrayOf t).isLocalTo assembly = false := rfl

theorem isLocalTo_unresolved (name : String) : (unresolved name).isLocalTo assembly = false := rfl

/-- The nullable form of a type is as local as the type. -/
theorem isLocalTo_nullableOf {assembly : AssemblyIdentity} (hcore : systemRuntime.identity ≠ assembly)
    (t : TypeSymbol) : (nullableOf t).isLocalTo assembly = t.isLocalTo assembly := by
  unfold nullableOf
  split
  next d hd =>
    have hkinds : ∀ d ∈ systemRuntimeTypes, d.kind ≠ .array := by decide +kernel
    have hkind : (systemRuntime.symbol d).kind ≠ .array :=
      hkinds d (AssemblyMetadata.mem_types_of_find (List.mem_of_head? hd))
    have howner : (systemRuntime.symbol d).assembly? ≠ some assembly :=
      fun h => hcore (Option.some.inj h)
    rw [Bool.eq_iff_iff, isLocalTo_construct_iff]
    simp [howner, hkind]
  · rfl

end TypeSymbol

open TypeSymbol

namespace Scope

/-- The scope's assembly owns the declared types, and none of those that are referred to. -/
structure Owns (s : Scope) : Prop where
  declared : ∀ e ∈ s.declared, e.2.assembly? = some s.assembly
  other : ∀ a ∈ systemRuntime :: s.references, a.identity ≠ s.assembly

variable {s : Scope}

theorem Owns.core (hs : s.Owns) : systemRuntime.identity ≠ s.assembly :=
  hs.other _ List.mem_cons_self

/-- A type with suffixes is local if none of them makes an array and the type itself is local. -/
theorem isLocalTo_suffixes_iff (hs : s.Owns) : ∀ (suffixes : List TypeSuffix) (t : TypeSymbol),
    (suffixes.foldl withSuffix t).isLocalTo s.assembly = true ↔
      .array ∉ suffixes ∧ t.isLocalTo s.assembly = true
  | [], t => by simp
  | .array :: more, t => by
    rw [List.foldl_cons, isLocalTo_suffixes_iff hs more, withSuffix, isLocalTo_arrayOf]
    simp
  | .nullable :: more, t => by
    have hsame : (withSuffix t .nullable).isLocalTo s.assembly = t.isLocalTo s.assembly := by
      show (if t.kind.isValueType then nullableOf t else t).isLocalTo s.assembly = _
      split
      · exact isLocalTo_nullableOf hs.core t
      · rfl
    rw [List.foldl_cons, isLocalTo_suffixes_iff hs more, hsame]
    simp

/-! ### What names stand for -/

/-- The name of a written type is that of a type parameter. -/
structure NamesParameter (parameters : List String) (t : TypeExpr) : Prop where
  lone : t.path.length = 1
  args : t.args = []
  word : keywordType? t.name = none
  name : t.name ∈ parameters

/-- The name of a written type is that of a declared type with as many type parameters as there
are arguments, and it has no other meaning that comes first. -/
structure NamesDeclared (s : Scope) (parameters : List String) (t : TypeExpr) : Prop where
  lone : t.qualifier? = none
  word : t.path.length = 1 → t.args = [] → s.word? parameters t.name = none
  unaliased : (s.aliases.lookup t.name).bind splitAtLastPoint? = none
  name : (s.declared.lookup (t.name, t.args.length)).isSome

/-- A type that a reference lists is not one of the assembly's own. -/
theorem assembly?_of_search (hs : s.Owns) {visible : String → Bool} {name : String} {arity : Nat}
    {type : TypeSymbol} (h : s.search visible name arity = .ok type) :
    type.assembly? ≠ some s.assembly := by
  obtain ⟨a, ha, d, -, rfl⟩ := exists_of_search h
  exact fun howner => hs.other a (List.mem_cons_of_mem _ ha) (Option.some.inj howner)

theorem assembly?_of_unlisted (hs : s.Owns) {namespace? : Option String} {name : String}
    {type : TypeSymbol} (h : s.unlisted namespace? name = .ok type) :
    type.assembly? ≠ some s.assembly := by
  unfold unlisted at h
  split at h
  next a ha =>
    obtain rfl := Except.ok.inj h
    have hmem := List.mem_cons_of_mem systemRuntime (List.mem_of_find?_eq_some ha)
    exact fun howner => hs.other a hmem (Option.some.inj howner)
  · cases h

/-- What a qualified name stands for is not one of the assembly's own. -/
theorem assembly?_of_lookupQualified (hs : s.Owns) {qualifier name : String} {arity : Nat}
    {type : TypeSymbol} (h : s.lookupQualified qualifier name arity = .ok type) :
    type.assembly? ≠ some s.assembly := by
  simp only [lookupQualified] at h
  split at h
  · exact assembly?_of_unlisted hs h
  · exact assembly?_of_search hs h

/-- A lone name stands for one of the assembly's own types if one is declared. -/
theorem assembly?_of_lookupVisible (hs : s.Owns) {name : String} {arity : Nat} {type : TypeSymbol}
    (h : s.lookupVisible name arity = .ok type) :
    type.assembly? = some s.assembly ↔ (s.declared.lookup (name, arity)).isSome := by
  unfold lookupVisible at h
  split at h
  next own hown =>
    obtain rfl := Except.ok.inj h
    rw [hown]
    exact iff_of_true (hs.declared _ (mem_of_lookup_eq_some hown)) rfl
  next hnone =>
    rw [hnone]
    refine iff_of_false ?_ Bool.false_ne_true
    split at h
    · split at h
      · cases h
      · exact assembly?_of_unlisted hs h
    · exact assembly?_of_search hs h

theorem assembly?_of_lookup (hs : s.Owns) {qualifier? : Option String} {name : String}
    {arity : Nat} {type : TypeSymbol} (h : s.lookup qualifier? name arity = .ok type) :
    type.assembly? = some s.assembly ↔ qualifier? = none ∧
      (s.aliases.lookup name).bind splitAtLastPoint? = none ∧
        (s.declared.lookup (name, arity)).isSome := by
  cases qualifier? with
  | some qualifier =>
    exact iff_of_false (assembly?_of_lookupQualified hs h) fun hlone => Option.some_ne_none _ hlone.1
  | none =>
    simp only [lookup] at h
    split at h
    next namespaceName target halias =>
      rw [halias]
      exact iff_of_false (assembly?_of_search hs h) fun hlone => Option.some_ne_none _ hlone.2.1
    next halias =>
      rw [assembly?_of_lookupVisible hs h, halias]
      simp only [true_and]

/-- No predefined type is one of the assembly's own. -/
theorem assembly?_frameworkType (hs : s.Owns) (name : String) :
    (frameworkType name).assembly? ≠ some s.assembly := by
  unfold frameworkType
  split
  · exact fun howner => hs.core (Option.some.inj howner)
  · exact Option.some_ne_none _ ∘ Eq.symm

/-- Of the words that mean something by themselves the type parameters are the assembly's own. -/
theorem assembly?_of_word (hs : s.Owns) {parameters : List String} {name : String}
    {type : TypeSymbol} (h : s.word? parameters name = some type) :
    type.assembly? = some s.assembly ↔ keywordType? name = none ∧ name ∈ parameters := by
  unfold word? at h
  split at h
  next framework hkeyword =>
    obtain rfl := Option.some.inj h
    rw [hkeyword]
    exact iff_of_false (assembly?_frameworkType hs framework) fun hword =>
      Option.some_ne_none _ hword.1
  next hkeyword =>
    split at h
    next hmem =>
      obtain rfl := Option.some.inj h
      exact iff_of_true rfl ⟨hkeyword, List.contains_iff_mem.mp hmem⟩
    · cases h

variable {parameters : List String} {path : String} {t : TypeExpr}

theorem NamesParameter.word?_eq (s : Scope) (h : NamesParameter parameters t) :
    s.word? parameters t.name = some (.parameter t.name s.assembly) := by
  simp only [word?, h.word, List.contains_iff_mem.mpr h.name, if_true]

/-- **The names of the assembly's own types** are those of declared types and of type parameters. -/
theorem assembly?_of_meaning (hs : s.Owns) {type : TypeSymbol}
    (h : s.meaning parameters t = .ok type) :
    type.assembly? = some s.assembly ↔
      s.NamesDeclared parameters t ∨ NamesParameter parameters t := by
  by_cases hword : t.path.length = 1 ∧ t.args = [] ∧ s.word? parameters t.name ≠ none
  · obtain ⟨hlone, hargs, hword⟩ := hword
    obtain ⟨word, hword⟩ := Option.ne_none_iff_exists'.mp hword
    simp only [meaning, hlone, hargs, and_self, if_true, hword] at h
    obtain rfl := Except.ok.inj h
    rw [assembly?_of_word hs hword]
    constructor
    · exact fun hname => .inr ⟨hlone, hargs, hname.1, hname.2⟩
    · rintro (hdeclared | hparameter)
      · exact absurd (hword.symm.trans (hdeclared.word hlone hargs)) (Option.some_ne_none _)
      · exact ⟨hparameter.word, hparameter.name⟩
  · have hnone : t.path.length = 1 → t.args = [] → s.word? parameters t.name = none :=
      fun hlone hargs => by_contra fun hne => hword ⟨hlone, hargs, hne⟩
    rw [meaning_of_word hnone] at h
    rw [assembly?_of_lookup hs h]
    constructor
    · rintro ⟨hlone, hunaliased, hname⟩
      exact .inl ⟨hlone, hnone, hunaliased, hname⟩
    · rintro (hdeclared | hparameter)
      · exact ⟨hdeclared.lone, hdeclared.unaliased, hdeclared.name⟩
      · have hmeans := hparameter.word?_eq s
        rw [hnone hparameter.lone hparameter.args] at hmeans
        cases hmeans

/-- What a name stands for has no type arguments of its own, unless the script declares it. -/
theorem args_of_meaning (hs : s.Owns) {type : TypeSymbol} (h : s.meaning parameters t = .ok type) :
    type.args = [] ∨ type.assembly? = some s.assembly := by
  unfold meaning at h
  split at h
  next word hword =>
    obtain rfl := Except.ok.inj h
    split at hword
    · exact .inl (args_of_word hword)
    · cases hword
  · rcases args_of_lookup h with hargs | hdeclared
    · exact .inl hargs
    · exact .inr (hs.declared _ hdeclared)

/-- Such a name has a meaning. -/
theorem exists_meaning (h : s.NamesDeclared parameters t ∨ NamesParameter parameters t) :
    ∃ type, s.meaning parameters t = .ok type := by
  rcases h with hdeclared | hparameter
  · obtain ⟨type, htype⟩ := Option.isSome_iff_exists.mp hdeclared.name
    refine ⟨type, ?_⟩
    rw [meaning_of_word hdeclared.word, hdeclared.lone]
    simp only [lookup, hdeclared.unaliased, lookupVisible, htype]
  · refine ⟨.parameter t.name s.assembly, ?_⟩
    simp only [meaning, hparameter.lone, hparameter.args, and_self, if_true,
      hparameter.word?_eq s]

/-! ### Types that use the script's own -/

/-- A written type uses a type of the script: its name is that of one, or one of its arguments uses
one and its own name stands for a type whose arguments count. -/
inductive UsesLocal (s : Scope) (parameters : List String) (Counts : TypeSymbol → Prop) :
    TypeExpr → Prop
  | declared {t : TypeExpr} (hsuffixes : .array ∉ t.suffixes)
      (h : s.NamesDeclared parameters t) : UsesLocal s parameters Counts t
  | parameter {t : TypeExpr} (hsuffixes : .array ∉ t.suffixes)
      (h : NamesParameter parameters t) : UsesLocal s parameters Counts t
  | argument {t a : TypeExpr} {type : TypeSymbol} (hsuffixes : .array ∉ t.suffixes)
      (hname : s.meaning parameters t = .ok type) (hcounts : Counts type) (ha : a ∈ t.args)
      (h : UsesLocal s parameters Counts a) : UsesLocal s parameters Counts t

theorem usesLocal_iff {Counts : TypeSymbol → Prop} :
    s.UsesLocal parameters Counts t ↔ .array ∉ t.suffixes ∧
      ((s.NamesDeclared parameters t ∨ NamesParameter parameters t) ∨
        ∃ type, s.meaning parameters t = .ok type ∧ Counts type ∧
          ∃ a ∈ t.args, s.UsesLocal parameters Counts a) := by
  constructor
  · intro h
    cases h with
    | declared hsuffixes h => exact ⟨hsuffixes, .inl (.inl h)⟩
    | parameter hsuffixes h => exact ⟨hsuffixes, .inl (.inr h)⟩
    | argument hsuffixes hname hcounts ha h =>
      exact ⟨hsuffixes, .inr ⟨_, hname, hcounts, _, ha, h⟩⟩
  · rintro ⟨hsuffixes, (h | h) | ⟨type, hname, hcounts, a, ha, h⟩⟩
    · exact .declared hsuffixes h
    · exact .parameter hsuffixes h
    · exact .argument hsuffixes hname hcounts ha h

/-- What a written type stands for is local by its suffixes, its name and its arguments. -/
theorem isLocalTo_resolve_step (hs : s.Owns) :
    (s.resolve parameters path t).type.isLocalTo s.assembly = true ↔ .array ∉ t.suffixes ∧
      ((s.NamesDeclared parameters t ∨ NamesParameter parameters t) ∨
        ∃ type, s.meaning parameters t = .ok type ∧ type.kind ≠ .array ∧
          ∃ a ∈ (s.resolveAll parameters path t.args).1, a.isLocalTo s.assembly = true) := by
  rw [resolve_eq_standsFor]
  cases hname : s.meaning parameters t with
  | ok type =>
    rw [standsFor, isLocalTo_suffixes_iff hs, isLocalTo_instantiate_iff (args_of_meaning hs hname),
      assembly?_of_meaning hs hname]
    simp only [Except.ok.injEq, exists_eq_left']
  | error fault =>
    rw [standsFor, isLocalTo_suffixes_iff hs, isLocalTo_unresolved]
    refine and_congr_right fun _ => iff_of_false Bool.false_ne_true ?_
    rintro (h | ⟨type, h, -⟩)
    · obtain ⟨type, htype⟩ := exists_meaning h
      cases hname.symm.trans htype
    · cases h

mutual

/-- **A written type stands for a local type exactly if it uses one**, by recursion on what is
written. Arguments count in all types but those that a reference lists as arrays. -/
theorem isLocalTo_resolve_iff (hs : s.Owns) : ∀ t : TypeExpr,
    (s.resolve parameters path t).type.isLocalTo s.assembly = true ↔
      s.UsesLocal parameters (·.kind ≠ .array) t
  | .mk segments args suffixes span => by
    have hargs := isLocalTo_resolveAll_iff hs args
    rw [isLocalTo_resolve_step hs, usesLocal_iff]
    simp only [TypeExpr.args, hargs]

theorem isLocalTo_resolveAll_iff (hs : s.Owns) : ∀ ts : List TypeExpr,
    (∃ a ∈ (s.resolveAll parameters path ts).1, a.isLocalTo s.assembly = true) ↔
      ∃ t ∈ ts, s.UsesLocal parameters (·.kind ≠ .array) t
  | [] => by simp [resolveAll]
  | t :: more => by
    rw [resolveAll, List.exists_mem_cons_iff, List.exists_mem_cons_iff, isLocalTo_resolve_iff hs t,
      isLocalTo_resolveAll_iff hs more]

end

/-- A nullable suffix is of no weight. -/
theorem usesLocal_without_nullable {Counts : TypeSymbol → Prop} (segments : List Ident)
    (args : List TypeExpr) (suffixes : List TypeSuffix) (span span' : Source.Span) :
    s.UsesLocal parameters Counts (.mk segments args (suffixes.filter (· ≠ .nullable)) span) ↔
      s.UsesLocal parameters Counts (.mk segments args suffixes span') := by
  have harray : .array ∈ suffixes.filter (· ≠ .nullable) ↔ .array ∈ suffixes := by
    rw [List.mem_filter]
    exact and_iff_left rfl
  have hdeclared : s.NamesDeclared parameters
        (.mk segments args (suffixes.filter (· ≠ .nullable)) span) ↔
      s.NamesDeclared parameters (.mk segments args suffixes span') :=
    ⟨fun ⟨h₁, h₂, h₃, h₄⟩ => ⟨h₁, h₂, h₃, h₄⟩, fun ⟨h₁, h₂, h₃, h₄⟩ => ⟨h₁, h₂, h₃, h₄⟩⟩
  have hparameter : NamesParameter parameters
        (.mk segments args (suffixes.filter (· ≠ .nullable)) span) ↔
      NamesParameter parameters (.mk segments args suffixes span') :=
    ⟨fun ⟨h₁, h₂, h₃, h₄⟩ => ⟨h₁, h₂, h₃, h₄⟩, fun ⟨h₁, h₂, h₃, h₄⟩ => ⟨h₁, h₂, h₃, h₄⟩⟩
  have hmeaning : s.meaning parameters (.mk segments args (suffixes.filter (· ≠ .nullable)) span) =
      s.meaning parameters (.mk segments args suffixes span') := rfl
  rw [usesLocal_iff, usesLocal_iff, hdeclared, hparameter, hmeaning]
  exact and_congr_left fun _ => not_congr harray

end Scope

/-! ### Declared types -/

namespace TypeTable

theorem mem_keys_add (assembly : AssemblyIdentity) (path : String) (ts : TypeTable) (item : Item)
    (key : String × Nat) :
    key ∈ (ts.add assembly path item).keys ↔ key ∈ ts.keys ∨ item.declaredKey? = some key := by
  cases item with
  | typeDecl d =>
    rw [Item.declaredKey?, Option.some_inj]
    simp only [add]
    split
    next htwice =>
      obtain ⟨e, he, hkey⟩ := List.any_eq_true.mp htwice
      refine ⟨.inl, ?_⟩
      rintro (h | rfl)
      · exact h
      · exact List.mem_map.mpr ⟨e, he, beq_iff_eq.mp hkey⟩
    · simp only [keys, List.map_append, List.map_singleton, List.mem_append, List.mem_singleton]
      exact or_congr_right eq_comm
  | _ => exact (or_iff_left (fun h => Option.some_ne_none key h.symm)).symm

/-- What the steps of a fold add is what the fold adds, by induction on what is folded. -/
theorem mem_keys_foldl {β : Type} {f : TypeTable → β → TypeTable} {key : String × Nat} {P : β → Prop}
    (h : ∀ ts x, key ∈ (f ts x).keys ↔ key ∈ ts.keys ∨ P x) : ∀ (xs : List β) (ts : TypeTable),
      key ∈ (xs.foldl f ts).keys ↔ key ∈ ts.keys ∨ ∃ x ∈ xs, P x
  | [], ts => by simp
  | x :: xs, ts => by
    rw [List.foldl_cons, mem_keys_foldl h xs, h, List.exists_mem_cons_iff, or_assoc]

theorem isSome_lookup_iff_mem_keys (ts : TypeTable) (key : String × Nat) :
    (ts.declared.lookup key).isSome ↔ key ∈ ts.keys := by
  rw [List.lookup_isSome_iff]
  constructor
  · rintro ⟨e, he, hkey⟩
    exact List.mem_map.mpr ⟨e, he, (beq_iff_eq.mp hkey).symm⟩
  · intro h
    obtain ⟨e, he, rfl⟩ := List.mem_map.mp h
    exact ⟨e, he, beq_self_eq_true _⟩

/-- **The declared types are those that an item declares.** -/
theorem isSome_lookup_iff (assembly : AssemblyIdentity) (documents : List Document)
    (key : String × Nat) :
    ((ofDocuments assembly documents).declared.lookup key).isSome ↔
      ∃ d ∈ documents, ∃ item ∈ d.script.items, item.declaredKey? = some key := by
  have hkeys : key ∈ (ofDocuments assembly documents).keys ↔ key ∈ keys ⟨[], []⟩ ∨
      ∃ d ∈ documents, ∃ item ∈ d.script.items, item.declaredKey? = some key :=
    mem_keys_foldl (fun ts (d : Document) =>
      mem_keys_foldl (fun ts item => mem_keys_add assembly d.path ts item key) d.script.items ts)
      documents ⟨[], []⟩
  exact (isSome_lookup_iff_mem_keys _ key).trans (hkeys.trans (or_iff_right List.not_mem_nil))

end TypeTable

namespace Compilation

variable {options : CompilationOptions} {sources : List SourceText} {source : ReferenceSource}

/-- A method of the class is declared by an item of one of the documents. -/
theorem exists_decl_of_mem_methods {m : MethodSymbol}
    (hm : m ∈ (create options sources source).scriptClass.methods) :
    ∃ d ∈ sources.map Document.read, ∃ decl, .method decl ∈ d.script.items ∧
      m = ((scopeFor options sources source).method options.scriptClassName d.path decl).1 := by
  obtain ⟨member, hmember, hmethod⟩ := List.mem_filterMap.mp hm
  rw [members_create] at hmember
  obtain ⟨v, hv, rfl⟩ := List.mem_map.mp hmember
  have hdeclared := member_mem_declared (List.mem_of_mem_filter hv)
  rw [Member.eq_method_of_method? hmethod] at hdeclared
  exact exists_decl_of_mem hdeclared

/-- The signature of an entry point is that of a method of the class. -/
theorem exists_method_of_signature {analyzers : List Analyzer} {policy : EntryPointPolicy}
    {c : Compilation} {sig : FunctionSignature}
    (h : (CompilationUnit.mk c analyzers).signature policy = .ok sig) :
    ∃ m ∈ c.scriptClass.methods, sig = .ofMethod m := by
  obtain ⟨m, hm, -, hsig⟩ := CompilationUnit.resolve_of_signature h
  exact ⟨m, hm, hsig⟩

theorem owns_scopeFor (hfresh : (create options sources source).IsFresh) :
    (scopeFor options sources source).Owns where
  declared := TypeTable.forall_declared
    (P := fun t => t.assembly? = some (identityOf options sources)) fun _ _ _ _ => rfl
  other := hfresh

/-- The flag of a signature tells whether a written parameter type uses a local type. -/
theorem hasLocalTypes_ofMethod_iff (hfresh : (create options sources source).IsFresh)
    (path : String) (decl : MethodDecl) :
    (FunctionSignature.ofMethod ((scopeFor options sources source).method
        options.scriptClassName path decl).1).hasLocalTypes = true ↔
      ∃ p ∈ decl.parameters, (scopeFor options sources source).UsesLocal
        (decl.typeParameters.map (·.name)) (·.kind ≠ .array) p.type := by
  have hs := owns_scopeFor hfresh
  simp only [FunctionSignature.ofMethod, Scope.method, List.map_map, List.any_map,
    List.any_eq_true, Function.comp_apply, Scope.parameter]
  refine exists_congr fun p => and_congr_right fun _ => ?_
  exact Scope.isLocalTo_resolve_iff hs p.type

/-- **Which signatures have local types.** The signature of an entry point is that of a method that
one of the documents declares, and it has local types exactly if the written type of one of the
parameters uses one. Declared types are those that the items of the documents declare; nullable
suffixes never change whether a written type is local, and one whose name stands for nothing is
not. All this is so as long as the assembly that is made is none of those referred to. -/
theorem hasLocalTypes_iff (hfresh : (create options sources source).IsFresh) :
    (∀ (analyzers : List Analyzer) (policy : EntryPointPolicy) (sig : FunctionSignature),
      (CompilationUnit.mk (create options sources source) analyzers).signature policy = .ok sig →
        ∃ d ∈ sources.map Document.read, ∃ decl, .method decl ∈ d.script.items ∧
          sig = .ofMethod ((scopeFor options sources source).method
            options.scriptClassName d.path decl).1 ∧
          (sig.hasLocalTypes = true ↔ ∃ p ∈ decl.parameters,
            (scopeFor options sources source).UsesLocal (decl.typeParameters.map (·.name))
              (·.kind ≠ .array) p.type)) ∧
    (∀ key, ((scopeFor options sources source).declared.lookup key).isSome ↔
      ∃ d ∈ sources.map Document.read, ∃ item ∈ d.script.items, item.declaredKey? = some key) ∧
    ∀ (parameters : List String) (path : String) (t : TypeExpr),
      (((scopeFor options sources source).resolve parameters path t).type.isLocalTo
          (create options sources source).assembly =
        ((scopeFor options sources source).resolve parameters path
          (.mk t.path t.args (t.suffixes.filter (· ≠ .nullable)) t.span)).type.isLocalTo
          (create options sources source).assembly) ∧
      (((scopeFor options sources source).resolve parameters path t).findings ≠
          ((scopeFor options sources source).resolveAll parameters path t.args).2 →
        ((scopeFor options sources source).resolve parameters path t).type.isLocalTo
          (create options sources source).assembly = false) := by
  have hs := owns_scopeFor hfresh
  refine ⟨fun analyzers policy sig hsig => ?_, TypeTable.isSome_lookup_iff _ _,
    fun parameters path t => ⟨?_, fun hfault => ?_⟩⟩
  · obtain ⟨m, hm, rfl⟩ := exists_method_of_signature hsig
    obtain ⟨d, hd, decl, hdecl, rfl⟩ := exists_decl_of_mem_methods hm
    exact ⟨d, hd, decl, hdecl, rfl, hasLocalTypes_ofMethod_iff hfresh d.path decl⟩
  · obtain ⟨segments, args, suffixes, span⟩ := t
    refine Bool.eq_iff_iff.mpr ?_
    exact (Scope.isLocalTo_resolve_iff hs _).trans ((Scope.usesLocal_without_nullable segments args
      suffixes span span).symm.trans (Scope.isLocalTo_resolve_iff hs _).symm)
  · refine Bool.eq_false_iff.mpr fun hlocal => hfault (Scope.findings_resolve_iff.mpr ?_)
    obtain ⟨-, h | ⟨type, hname, -⟩⟩ := (Scope.isLocalTo_resolve_step hs).mp hlocal
    · exact Scope.exists_meaning h
    · exact ⟨type, hname⟩

/-- The flag of every signature is told by the written parameter types, for compilations of the sort
`P`, where type arguments count in the types that satisfy `Counts`. -/
def FlagTold (P : Compilation → Prop) (Counts : TypeSymbol → Prop) : Prop :=
  ∀ (options : CompilationOptions) (sources : List SourceText) (source : ReferenceSource),
    P (create options sources source) → ∀ (analyzers : List Analyzer)
      (policy : EntryPointPolicy) (sig : FunctionSignature),
      (CompilationUnit.mk (create options sources source) analyzers).signature policy = .ok sig →
        ∃ d ∈ sources.map Document.read, ∃ decl, .method decl ∈ d.script.items ∧
          (sig.hasLocalTypes = true ↔ ∃ p ∈ decl.parameters,
            (scopeFor options sources source).UsesLocal (decl.typeParameters.map (·.name))
              Counts p.type)

theorem exists_ok_of_toOption {ε α β : Type} {r : Except ε α} {f : α → β} {y : β}
    (h : r.toOption.map f = some y) : ∃ x, r = .ok x ∧ f x = y := by
  cases r with
  | ok x => exact ⟨x, rfl, Option.some.inj h⟩
  | error e => cases h

/-- An entry point that takes a list of nullable values of a declared type, and an array. -/
def sampleOrders : List SourceText :=
  [⟨"run.csx", "struct Order { }\npublic void Run(List<Order?> orders, int[] counts) { }"⟩]

theorem sampleOrders_local :
    (create .standard sampleOrders (AssemblyLibrary.standard.source .empty)).IsFresh ∧
    ∃ sig, (CompilationUnit.mk (create .standard sampleOrders
        (AssemblyLibrary.standard.source .empty)) []).signature ⟨none⟩ = .ok sig ∧
      sig.hasLocalTypes = true ∧
      ∃ d ∈ sampleOrders.map Document.read, ∃ decl, .method decl ∈ d.script.items ∧
        ∃ p ∈ decl.parameters, (scopeFor .standard sampleOrders
          (AssemblyLibrary.standard.source .empty)).UsesLocal (decl.typeParameters.map (·.name))
            (·.kind ≠ .array) p.type := by
  have hfresh : (create .standard sampleOrders
      (AssemblyLibrary.standard.source .empty)).IsFresh :=
    isFresh_of_references (by decide +kernel)
  have hflag : ((CompilationUnit.mk (create .standard sampleOrders
      (AssemblyLibrary.standard.source .empty)) []).signature ⟨none⟩).toOption.map
        (·.hasLocalTypes) = some true := by decide +kernel
  obtain ⟨sig, hsig, hlocal⟩ := exists_ok_of_toOption hflag
  obtain ⟨d, hd, decl, hdecl, -, hiff⟩ := (hasLocalTypes_iff hfresh).1 [] ⟨none⟩ sig hsig
  exact ⟨hfresh, sig, hsig, hlocal, d, hd, decl, hdecl, hiff.mp hlocal⟩

/-- A library with a generic type that it lists as an array. -/
def rowLibrary : AssemblyLibrary :=
  AssemblyLibrary.standard.register (.ofCatalog "Lib" [⟨"N", "Row", 1, .array⟩])

/-- An entry point that takes such a type of a declared type. -/
def rowOfOrders : List SourceText :=
  [⟨"run.csx", "#r \"Lib\"\nusing N;\nclass Order { }\npublic void Run(Row<Order> rows) { }"⟩]

/-- What is written as a type, but for the arguments themselves. -/
structure Outline where
  qualifier? : Option String
  name : String
  suffixes : List TypeSuffix
  arity : Nat
deriving DecidableEq

def outline (t : TypeExpr) : Outline := ⟨t.qualifier?, t.name, t.suffixes, t.args.length⟩

/-- In the script there is one parameter, and it uses the declared type. -/
theorem rowOfOrders_usesLocal {d : Document} (hd : d ∈ rowOfOrders.map Document.read)
    {decl : MethodDecl} (hdecl : .method decl ∈ d.script.items) :
    ∃ p ∈ decl.parameters, (scopeFor .standard rowOfOrders (rowLibrary.source .empty)).UsesLocal
      (decl.typeParameters.map (·.name)) (fun _ => True) p.type := by
  let s := scopeFor .standard rowOfOrders (rowLibrary.source .empty)
  have hview : ((rowOfOrders.map Document.read).flatMap fun d =>
      d.script.items.filterMap Item.method?).map (fun m => (m.typeParameters.map (·.name),
        m.parameters.map fun p => (outline p.type, p.type.args.map outline))) =
      [([], [(⟨none, "Row", [], 1⟩, [⟨none, "Order", [], 0⟩])])] := by decide +kernel
  obtain ⟨m, hm, hview⟩ := List.map_eq_singleton_iff.mp hview
  have hmem : decl ∈ (rowOfOrders.map Document.read).flatMap fun d =>
      d.script.items.filterMap Item.method? :=
    List.mem_flatMap.mpr ⟨d, hd, List.mem_filterMap.mpr ⟨_, hdecl, rfl⟩⟩
  rw [hm] at hmem
  obtain rfl := List.mem_singleton.mp hmem
  obtain ⟨hparameters, htypes⟩ := Prod.mk.inj hview
  obtain ⟨p, hp, houtline⟩ := List.map_eq_singleton_iff.mp htypes
  obtain ⟨hrow, hargs⟩ := Prod.mk.inj houtline
  obtain ⟨a, ha, horder⟩ := List.map_eq_singleton_iff.mp hargs
  simp only [outline, Outline.mk.injEq] at hrow horder
  obtain ⟨hqualifier, hname, hsuffixes, hcount⟩ := hrow
  obtain ⟨hqualifier', hname', hsuffixes', hcount'⟩ := horder
  have hdeclared : s.NamesDeclared [] a := by
    refine ⟨hqualifier', fun _ _ => ?_, ?_, ?_⟩
    all_goals rw [hname']
    · decide +kernel
    · decide +kernel
    · rw [hcount']
      decide +kernel
  have hfound : (s.lookup none "Row" 1).toOption.map (fun _ => ()) = some () := by decide +kernel
  obtain ⟨row, hlookup, -⟩ := exists_ok_of_toOption hfound
  have hmeaning : s.meaning [] p.type = .ok row := by
    rw [Scope.meaning_of_word fun _ hnone => absurd hnone (by rw [ha]; exact List.cons_ne_nil _ _),
      hqualifier, hname, hcount, hlookup]
  refine ⟨p, by rw [hp]; exact List.mem_singleton_self p, ?_⟩
  rw [hparameters]
  refine .argument ?_ hmeaning trivial (ha ▸ List.mem_singleton_self a) (.declared ?_ hdeclared)
  · rw [hsuffixes]
    exact List.not_mem_nil
  · rw [hsuffixes']
    exact List.not_mem_nil

/-- The arguments of a type that a reference lists as an array do not count. -/
theorem rowOfOrders_not_local : ¬ FlagTold IsFresh (fun _ => True) := by
  intro h
  have hflag : ((CompilationUnit.mk (create .standard rowOfOrders (rowLibrary.source .empty))
      []).signature ⟨none⟩).toOption.map (·.hasLocalTypes) = some false := by decide +kernel
  obtain ⟨sig, hsig, hlocal⟩ := exists_ok_of_toOption hflag
  obtain ⟨d, hd, decl, hdecl, hiff⟩ := h .standard rowOfOrders (rowLibrary.source .empty)
    (isFresh_of_references (by decide +kernel)) [] ⟨none⟩ sig hsig
  rw [hlocal] at hiff
  exact absurd (hiff.mpr (rowOfOrders_usesLocal hd hdecl)) Bool.false_ne_true

/-- A script that makes an assembly with the identity of the core framework. -/
def coreNamesake : List SourceText := [⟨"run.csx", coreFront ++ coreBlock⟩]

/-- In the script there is one parameter, and it is written with a predefined word. -/
theorem coreNamesake_usesNone {d : Document} (hd : d ∈ coreNamesake.map Document.read)
    {decl : MethodDecl} (hdecl : .method decl ∈ d.script.items) {Counts : TypeSymbol → Prop} :
    ¬ ∃ p ∈ decl.parameters, (scopeFor coreOptions coreNamesake noReferences).UsesLocal
      (decl.typeParameters.map (·.name)) Counts p.type := by
  have hview : ∀ d ∈ coreNamesake.map Document.read, ∀ m ∈ d.script.items.filterMap Item.method?,
      m.typeParameters = [] ∧ ∀ p ∈ m.parameters, p.type.args.length = 0 := by decide +kernel
  have hdeclared : (scopeFor coreOptions coreNamesake noReferences).declared.length = 0 := by
    decide +kernel
  obtain ⟨hparameters, hargs⟩ := hview d hd decl (List.mem_filterMap.mpr ⟨_, hdecl, rfl⟩)
  rw [hparameters]
  rintro ⟨p, hp, huses⟩
  obtain ⟨-, (hname | hname) | ⟨type, -, -, a, ha, -⟩⟩ := Scope.usesLocal_iff.mp huses
  · have hsome := hname.name
    rw [List.length_eq_zero_iff.mp hdeclared] at hsome
    exact absurd hsome Bool.false_ne_true
  · exact absurd hname.name List.not_mem_nil
  · rw [List.length_eq_zero_iff.mp (hargs p hp)] at ha
    exact absurd ha List.not_mem_nil

/-- An assembly with the identity of the core framework owns the predefined types, also if it is none
of those referred to. -/
theorem coreNamesake_local :
    ¬ FlagTold (fun c => ∀ a ∈ c.references, a.identity ≠ c.assembly) (·.kind ≠ .array) := by
  intro h
  have hflag : ((CompilationUnit.mk (create coreOptions coreNamesake noReferences)
      []).signature ⟨none⟩).toOption.map (·.hasLocalTypes) = some true := by decide +kernel
  obtain ⟨sig, hsig, hlocal⟩ := exists_ok_of_toOption hflag
  obtain ⟨d, hd, decl, hdecl, hiff⟩ := h coreOptions coreNamesake noReferences
    (forall_noReferences _ _) [] ⟨none⟩ sig hsig
  exact coreNamesake_usesNone hd hdecl (hiff.mp hlocal)

/-- Neither condition can be left out: that the assembly is not the core framework either, and that
arguments do not count in a type that is listed as an array. -/
theorem flagTold_conditions : ¬ FlagTold IsFresh (fun _ => True) ∧
    ¬ FlagTold (fun c => ∀ a ∈ c.references, a.identity ≠ c.assembly) (·.kind ≠ .array) :=
  ⟨rowOfOrders_not_local, coreNamesake_local⟩

end Compilation

end ScriptHost
