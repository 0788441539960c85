/-
# Why a written type stands for what it stands for

A written type that is resolved without a report stands for a type in which every name has a reason:
it is a predefined word, a type parameter, a type that the script declares with as many type
parameters as there are arguments, the only listed type of the name and arity in the namespaces that
are looked in, or, where these list no type of the name at all, one of the first assembly whose
types cannot be listed. A declared type that is written without arguments keeps what it is declared
with. What is reported leaves an error in the type, and nothing else does unless a type that is
listed is an error, or one that is declared is or holds one.

Key definitions: `Scope.IsCandidate`, `Scope.Names`, `Scope.Means`, `Scope.Justifies`,
`Scope.WithinDeclared`, `TypeSymbol.HasError`, `Scope.resolveInto`.
Key theorems: `Scope.isOnly_of_search`, `Scope.names_of_lookup`, `Scope.means_resolve`,
`Scope.Means.justifies`, `Scope.hasError_resolve`, `Scope.resolve_justified`.
-/
import ScriptHost.Proofs.Binding.Kinds
import ScriptHost.Proofs.Binding.Meanings
import ScriptHost.Proofs.Binding.Spelling
import ScriptHost.Proofs.Only

namespace ScriptHost

open TypeSymbol

namespace TypeSymbol

/-- Something within the type is an error. -/
def HasError (t : TypeSymbol) : Prop := ∃ u, Within u t ∧ u.kind = .error

theorem HasError.arg {a t : TypeSymbol} (h : a.HasError) (ha : a ∈ t.args) : t.HasError := by
  obtain ⟨u, hu, herror⟩ := h
  exact ⟨u, .arg ha hu, herror⟩

theorem HasError.construct {a : TypeSymbol} {types : List TypeSymbol} (h : a.HasError)
    (ha : a ∈ types) (t : TypeSymbol) : (t.construct types).HasError := by
  cases t
  exact h.arg ha

theorem HasError.instantiate {a : TypeSymbol} {types : List TypeSymbol} (h : a.HasError)
    (ha : a ∈ types) (t : TypeSymbol) : (t.instantiate types).HasError := by
  cases types with
  | nil => exact absurd ha List.not_mem_nil
  | cons first more => exact h.construct ha t

end TypeSymbol

namespace Scope

/-! ### What a search finds -/

/-- All types that the references list, each with its assembly. -/
def listed (s : Scope) : List (AssemblyMetadata × TypeDefinition) :=
  s.references.flatMap fun a => a.types.map (a, ·)

/-- A listed type of the name and arity in one of the namespaces. -/
structure IsCandidate (visible : String → Prop) (name : String) (arity : Nat)
    (e : AssemblyMetadata × TypeDefinition) : Prop where
  name : e.2.name = name
  arity : e.2.arity = arity
  visible : visible e.2.namespaceName

variable {s : Scope} {parameters : List String} {path : String} {name : String} {arity : Nat}
  {visible : String → Bool} {type : TypeSymbol}

/-- The candidates of a search are those listed types, in order. -/
theorem candidates_eq_filter (hindexed : ∀ a ∈ s.references, a.IsIndexed)
    (visible : String → Bool) (name : String) (arity : Nat) :
    s.candidates visible name arity =
      s.listed.filter fun e => visible e.2.namespaceName && e.2.key == (name, arity) := by
  unfold candidates listed
  rw [List.filter_flatMap]
  refine List.flatMap_congr fun a ha => ?_
  rw [AssemblyMetadata.find_eq_filter (hindexed a ha), List.filter_filter, List.filter_map]
  rfl

/-- **What a search finds is the only candidate** among all listed types. -/
theorem isOnly_of_search (hindexed : ∀ a ∈ s.references, a.IsIndexed) {looked : String → Prop}
    (hlooked : ∀ namespaceName, visible namespaceName ↔ looked namespaceName)
    (h : s.search visible name arity = .ok type) :
    ∃ a d, IsOnly (IsCandidate looked name arity) s.listed (a, d) ∧ type = a.symbol d := by
  unfold search at h
  split at h
  · split at h <;> cases h
  next a d hone =>
    rw [candidates_eq_filter hindexed] at hone
    refine ⟨a, d, (filter_eq_singleton_iff.mp hone).congr fun e => ?_, (Except.ok.inj h).symm⟩
    rw [Bool.and_eq_true, hlooked, beq_iff_eq]
    exact ⟨fun ⟨hvisible, hkey⟩ => ⟨congrArg Prod.fst hkey, congrArg Prod.snd hkey, hvisible⟩,
      fun he => ⟨he.visible, Prod.ext he.name he.arity⟩⟩
  · cases h

/-- Where a search knows nothing of a name, no type of it is listed in any arity. -/
theorem not_looked_of_search {looked : String → Prop}
    (hlooked : ∀ namespaceName, visible namespaceName ↔ looked namespaceName)
    (h : s.search visible name arity = .error .unknown) :
    ∀ e ∈ s.listed, e.2.name = name → ¬ looked e.2.namespaceName := by
  unfold search at h
  split at h
  · split at h
    · cases h
    next hnone =>
      intro e he hname hvisible
      obtain ⟨a, ha, hmem⟩ := List.mem_flatMap.mp he
      obtain ⟨d, hd, rfl⟩ := List.mem_map.mp hmem
      have hall := List.findSome?_eq_none_iff.mp hnone a ha
      rw [Option.map_eq_none_iff, List.find?_eq_none] at hall
      exact hall d hd (Bool.and_eq_true_iff.mpr ⟨beq_iff_eq.mpr hname, (hlooked _).mpr hvisible⟩)
  · cases h
  · cases h

/-! ### The core framework -/

/-- What is found in the core framework is listed in it, under the name and arity. -/
theorem mem_systemRuntime_of_find {d : TypeDefinition} (h : d ∈ systemRuntime.find name arity) :
    d ∈ systemRuntime.types ∧ d.name = name ∧ d.arity = arity := by
  have hkey : d ∈ systemRuntime.types.filter (·.key == (name, arity)) :=
    AssemblyMetadata.find_eq_filter (AssemblyMetadata.isIndexed_ofCatalog _ _) name arity ▸ h
  obtain ⟨hd, hkey⟩ := List.mem_filter.mp hkey
  have hkey : d.key = (name, arity) := beq_iff_eq.mp hkey
  exact ⟨hd, congrArg Prod.fst hkey, congrArg Prod.snd hkey⟩

/-- Every predefined word stands for a type that the core framework lists. -/
theorem exists_of_keywordType {word framework : String} (h : keywordType? word = some framework) :
    ∃ d ∈ systemRuntime.types, d.name = framework ∧ d.arity = 0 ∧ d.namespaceName = "System" ∧
      frameworkType framework = systemRuntime.symbol d := by
  have hsettled := (settled_iff.mp (settled_keywordType h)).1
  cases hfound : (systemRuntime.find framework 0).find? (·.namespaceName == "System") with
  | none =>
    rw [frameworkType, hfound] at hsettled
    exact absurd rfl hsettled
  | some d =>
    obtain ⟨hd, hname, harity⟩ := mem_systemRuntime_of_find (List.mem_of_find?_eq_some hfound)
    have hnamespace := List.find?_some hfound
    refine ⟨d, hd, hname, harity, beq_iff_eq.mp hnamespace, ?_⟩
    rw [frameworkType, hfound]

/-- The core framework has a form for nullable values. -/
theorem exists_nullable : ∃ d ∈ systemRuntime.types, d.name = "Nullable" ∧ d.arity = 1 ∧
    ∀ t, nullableOf t = (systemRuntime.symbol d).construct [t] := by
  have hsome : (systemRuntime.find "Nullable" 1).head?.isSome = true := by decide +kernel
  obtain ⟨d, hfound⟩ := Option.isSome_iff_exists.mp hsome
  obtain ⟨hd, hname, harity⟩ := mem_systemRuntime_of_find (List.mem_of_head? hfound)
  refine ⟨d, hd, hname, harity, fun t => ?_⟩
  rw [nullableOf, hfound]

/-- Behind `?`, a value type is in its nullable form, and any other type is as it was. -/
theorem withSuffix_nullable (t : TypeSymbol) :
    (t.kind.isValueType ∧ ∃ d ∈ systemRuntime.types, d.name = "Nullable" ∧ d.arity = 1 ∧
      withSuffix t .nullable = (systemRuntime.symbol d).construct [t]) ∨
    (¬ t.kind.isValueType ∧ withSuffix t .nullable = t) := by
  by_cases ht : t.kind.isValueType
  · obtain ⟨d, hd, hname, harity, hnullable⟩ := exists_nullable
    exact .inl ⟨ht, d, hd, hname, harity, (if_pos ht).trans (hnullable t)⟩
  · exact .inr ⟨ht, if_neg ht⟩

/-! ### What a name stands for -/

/-- The namespace that a qualifier names: its target, if it is an alias. -/
def namespaceOf (s : Scope) (qualifier : String) : String :=
  (s.aliases.lookup qualifier).getD qualifier

/-- The namespaces that a name is looked for in: the one that its qualifier names, and the imported
ones for a lone name. -/
def Visible (s : Scope) (namespaceName : String) : Option String → Prop
  | some qualifier => namespaceName = s.namespaceOf qualifier
  | none => namespaceName ∈ s.imports

/-- The reasons for which a name, behind a qualifier or alone, stands for a type with so many type
arguments. -/
inductive Names (s : Scope) (parameters : List String) :
    Option String → String → Nat → TypeSymbol → Prop
  /-- A predefined word stands for a type of the core framework. -/
  | keyword {word framework : String} {d : TypeDefinition}
      (hword : keywordType? word = some framework) (hd : d ∈ systemRuntime.types)
      (hname : d.name = framework) (harity : d.arity = 0) (hnamespace : d.namespaceName = "System") :
      Names s parameters none word 0 (systemRuntime.symbol d)
  /-- It is a type parameter in scope. -/
  | parameter {name : String} (h : name ∈ parameters) :
      Names s parameters none name 0 (.parameter name s.assembly)
  /-- The script declares a type of the name and arity. -/
  | declared {name : String} {arity : Nat} {type : TypeSymbol}
      (h : s.declared.lookup (name, arity) = some type) : Names s parameters none name arity type
  /-- Among all listed types there is one of the name and arity in the namespaces looked in. -/
  | listed {qualifier? : Option String} {name : String} {arity : Nat} {a : AssemblyMetadata}
      {d : TypeDefinition}
      (h : IsOnly (IsCandidate (s.Visible · qualifier?) name arity) s.listed (a, d)) :
      Names s parameters qualifier? name arity (a.symbol d)
  /-- The name is an alias, and there is one of the last name of the target and the arity in the
  namespace in front of it. -/
  | target {name namespaceName last : String} {arity : Nat} {a : AssemblyMetadata}
      {d : TypeDefinition} (halias : s.aliases.lookup name = some (namespaceName ++ "." ++ last))
      (hlast : '.' ∉ last.toList)
      (h : IsOnly (IsCandidate (· = namespaceName) last arity) s.listed (a, d)) :
      Names s parameters none name arity (a.symbol d)
  /-- No type of the name is listed there in any arity, nor does the script declare one that a lone
  name could mean; it is taken for a class of the first assembly whose types cannot be listed. -/
  | unlisted {qualifier? : Option String} {name : String} {arity : Nat} {a : AssemblyMetadata}
      (hlisted : ∀ e ∈ s.listed, e.2.name = name → ¬ s.Visible e.2.namespaceName qualifier?)
      (hdeclared : qualifier? = none → ∀ e ∈ s.declared, e.1.1 ≠ name)
      (ha : s.references.find? (·.isUnlisted) = some a) :
      Names s parameters qualifier? name arity
        (.named (qualifier?.map s.namespaceOf) name .classType a.identity)

/-- What is not listed belongs to the first assembly whose types cannot be. -/
theorem find?_of_unlisted {namespace? : Option String}
    (h : s.unlisted namespace? name = .ok type) :
    ∃ a, s.references.find? (·.isUnlisted) = some a ∧
      type = .named namespace? name .classType a.identity := by
  unfold unlisted at h
  split at h
  next a ha => exact ⟨a, ha, (Except.ok.inj h).symm⟩
  · cases h

theorem names_of_lookupQualified (hindexed : ∀ a ∈ s.references, a.IsIndexed) {qualifier : String}
    (h : s.lookupQualified qualifier name arity = .ok type) :
    s.Names parameters (some qualifier) name arity type := by
  simp only [lookupQualified] at h
  split at h
  next hunknown =>
    obtain ⟨a, ha, rfl⟩ := find?_of_unlisted h
    have hlisted := not_looked_of_search (fun _ => beq_iff_eq) hunknown
    exact @Names.unlisted s parameters (some qualifier) name arity a hlisted
      (fun hlone => absurd hlone (Option.some_ne_none qualifier)) ha
  · obtain ⟨a, d, honly, rfl⟩ := isOnly_of_search hindexed (fun _ => beq_iff_eq) h
    exact .listed honly

theorem names_of_lookupVisible (hindexed : ∀ a ∈ s.references, a.IsIndexed)
    (h : s.lookupVisible name arity = .ok type) : s.Names parameters none name arity type := by
  unfold lookupVisible at h
  split at h
  next own hown =>
    obtain rfl := Except.ok.inj h
    exact .declared hown
  · split at h
    next hunknown =>
      split at h
      · cases h
      next hnone =>
        obtain ⟨a, ha, rfl⟩ := find?_of_unlisted h
        have hlisted := not_looked_of_search (fun _ => List.contains_iff_mem) hunknown
        rw [declaredArity?, Option.map_eq_none_iff, List.find?_eq_none] at hnone
        exact @Names.unlisted s parameters none name arity a hlisted
          (fun _ e he hname => hnone e he (beq_iff_eq.mpr hname)) ha
    · obtain ⟨a, d, honly, rfl⟩ := isOnly_of_search hindexed (fun _ => List.contains_iff_mem) h
      exact .listed honly

/-- **What is looked up is found for one of the reasons.** -/
theorem names_of_lookup (hindexed : ∀ a ∈ s.references, a.IsIndexed) {qualifier? : Option String}
    (h : s.lookup qualifier? name arity = .ok type) :
    s.Names parameters qualifier? name arity type := by
  cases qualifier? with
  | some qualifier => exact names_of_lookupQualified hindexed h
  | none =>
    simp only [lookup] at h
    split at h
    next namespaceName last halias =>
      obtain ⟨text, htext, hsplit⟩ := Option.bind_eq_some_iff.mp halias
      obtain ⟨rfl, hlast⟩ := of_splitAtLastPoint? hsplit
      obtain ⟨a, d, honly, rfl⟩ := isOnly_of_search hindexed (fun _ => beq_iff_eq) h
      exact .target htext hlast honly
    · exact names_of_lookupVisible hindexed h

/-- A word that means something by itself is predefined or a type parameter. -/
theorem names_of_word (h : s.word? parameters name = some type) :
    s.Names parameters none name 0 type := by
  unfold word? at h
  split at h
  next framework hword =>
    obtain rfl := Option.some.inj h
    obtain ⟨d, hd, hname, harity, hnamespace, hsymbol⟩ := exists_of_keywordType hword
    rw [hsymbol]
    exact .keyword hword hd hname harity hnamespace
  · split at h
    next hparameter =>
      obtain rfl := Option.some.inj h
      exact .parameter (List.contains_iff_mem.mp hparameter)
    · cases h

/-- **What the name of a written type stands for**, it stands for with a reason. -/
theorem names_of_meaning (hindexed : ∀ a ∈ s.references, a.IsIndexed) {t : TypeExpr}
    (h : s.meaning parameters t = .ok type) :
    s.Names parameters t.qualifier? t.name t.args.length type := by
  unfold meaning at h
  split at h
  next word hword =>
    obtain rfl := Except.ok.inj h
    split at hword
    next hlone =>
      have hqualifier : t.qualifier? = none := by
        obtain ⟨i, hi⟩ := List.length_eq_one_iff.mp hlone.1
        rw [TypeExpr.qualifier?, hi]
        rfl
      rw [hqualifier, hlone.2]
      exact names_of_word hword
    · cases hword
  · exact names_of_lookup hindexed h

/-! ### What a written type stands for -/

/-- What a type becomes behind suffixes: arrays of it, and the nullable form of a value type. -/
inductive Suffixed : List TypeSuffix → TypeSymbol → TypeSymbol → Prop
  | nil (t : TypeSymbol) : Suffixed [] t t
  | array {suffixes : List TypeSuffix} {t u : TypeSymbol}
      (more : Suffixed suffixes (.arrayOf t) u) : Suffixed (.array :: suffixes) t u
  | nullable {suffixes : List TypeSuffix} {t u : TypeSymbol} {d : TypeDefinition}
      (hd : d ∈ systemRuntime.types) (hname : d.name = "Nullable") (harity : d.arity = 1)
      (ht : t.kind.isValueType)
      (more : Suffixed suffixes ((systemRuntime.symbol d).construct [t]) u) :
      Suffixed (.nullable :: suffixes) t u
  | same {suffixes : List TypeSuffix} {t u : TypeSymbol} (ht : ¬ t.kind.isValueType)
      (more : Suffixed suffixes t u) : Suffixed (.nullable :: suffixes) t u

/-- A written type stands for what its name stands for, with what its arguments stand for, behind
its suffixes. -/
inductive Means (s : Scope) (parameters : List String) : TypeExpr → TypeSymbol → Prop
  | mk {t : TypeExpr} {type u : TypeSymbol} {types : List TypeSymbol}
      (hname : s.Names parameters t.qualifier? t.name t.args.length type)
      (hlength : types.length = t.args.length)
      (hargs : ∀ p ∈ t.args.zip types, Means s parameters p.1 p.2)
      (hsuffixes : Suffixed t.suffixes (type.instantiate types) u) : Means s parameters t u

theorem suffixed_foldl : ∀ (suffixes : List TypeSuffix) (t : TypeSymbol),
    Suffixed suffixes t (suffixes.foldl withSuffix t)
  | [], t => .nil t
  | .array :: suffixes, t => .array (suffixed_foldl suffixes (.arrayOf t))
  | .nullable :: suffixes, t => by
    have ih := suffixed_foldl suffixes (withSuffix t .nullable)
    rw [List.foldl_cons]
    rcases withSuffix_nullable t with ⟨ht, d, hd, hname, harity, hsuffix⟩ | ⟨ht, hsuffix⟩
    · rw [hsuffix] at ih ⊢
      exact .nullable hd hname harity ht ih
    · rw [hsuffix] at ih ⊢
      exact .same ht ih

mutual
/-- **A type that is resolved without a report means what it stands for**, by induction on what is
written. -/
theorem means_resolve (hindexed : ∀ a ∈ s.references, a.IsIndexed) : ∀ t : TypeExpr,
    (s.resolve parameters path t).findings = [] →
      s.Means parameters t (s.resolve parameters path t).type
  | .mk segments args suffixes span, h => by
    rw [resolve_eq_standsFor] at h ⊢
    cases hmeaning : s.meaning parameters (.mk segments args suffixes span) with
    | error fault =>
      rw [hmeaning] at h
      exact absurd h (List.append_ne_nil_of_right_ne_nil _ (List.cons_ne_nil _ _))
    | ok type =>
      rw [hmeaning] at h
      exact .mk (names_of_meaning hindexed hmeaning) (length_resolveAll _ _ _ _)
        (means_resolveAll hindexed args h) (suffixed_foldl _ _)

theorem means_resolveAll (hindexed : ∀ a ∈ s.references, a.IsIndexed) : ∀ ts : List TypeExpr,
    (s.resolveAll parameters path ts).2 = [] →
      ∀ p ∈ ts.zip (s.resolveAll parameters path ts).1, s.Means parameters p.1 p.2
  | [], _ => nofun
  | t :: more, h => by
    obtain ⟨hfirst, hmore⟩ := List.append_eq_nil_iff.mp h
    exact List.forall_mem_cons.mpr ⟨means_resolve hindexed t hfirst,
      means_resolveAll hindexed more hmore⟩
end

/-! ### The types within -/

/-- A type that is made of types for a reason: an array, the nullable form of a value type, or what
a name stands for with as many type arguments as the type has. -/
inductive Justifies (s : Scope) (parameters : List String) : TypeSymbol → Prop
  | array (t : TypeSymbol) : Justifies s parameters (.arrayOf t)
  | nullable {d : TypeDefinition} {t : TypeSymbol} (hd : d ∈ systemRuntime.types)
      (hname : d.name = "Nullable") (harity : d.arity = 1) (ht : t.kind.isValueType) :
      Justifies s parameters ((systemRuntime.symbol d).construct [t])
  | name {qualifier? : Option String} {name : String} {type : TypeSymbol} {types : List TypeSymbol}
      (h : s.Names parameters qualifier? name types.length type) :
      Justifies s parameters (type.instantiate types)

/-- A type that comes with a declared type: it is within the arguments that a type is declared with
which is found without any. -/
def WithinDeclared (s : Scope) (u : TypeSymbol) : Prop :=
  ∃ name type, s.declared.lookup (name, 0) = some type ∧ ∃ a ∈ type.args, Within u a

/-- What a name stands for has no type arguments of its own, unless it is a declared type. -/
theorem Names.args {qualifier? : Option String} (h : s.Names parameters qualifier? name arity type) :
    type.args = [] ∨ s.declared.lookup (name, arity) = some type := by
  cases h with
  | declared h => exact .inr h
  | _ => exact .inl rfl

/-- What is within a type that is constructed is the type, or within one of the arguments. -/
theorem within_construct {t u : TypeSymbol} {types : List TypeSymbol}
    (h : Within u (t.construct types)) : u = t.construct types ∨ ∃ a ∈ types, Within u a := by
  cases t
  cases h with
  | self => exact .inl rfl
  | arg ha hu => exact .inr ⟨_, ha, hu⟩

/-- What is within a type with type arguments behind its name is the type, or within one of them; if
there are none, it may be within those that the type has by itself. -/
theorem within_instantiate {t u : TypeSymbol} {types : List TypeSymbol}
    (h : Within u (t.instantiate types)) :
    u = t.instantiate types ∨ (∃ a ∈ types, Within u a) ∨
      (types = [] ∧ ∃ a ∈ t.args, Within u a) := by
  cases types with
  | nil =>
    cases h with
    | self => exact .inl rfl
    | arg ha hu => exact .inr (.inr ⟨rfl, _, ha, hu⟩)
  | cons first more =>
    rcases within_construct h with hself | harg
    · exact .inl hself
    · exact .inr (.inl harg)

/-- Suffixes add arrays and nullable forms, by induction on them. -/
theorem Suffixed.justifies {suffixes : List TypeSuffix} {t u : TypeSymbol}
    (h : Suffixed suffixes t u)
    (ht : ∀ v, Within v t → s.Justifies parameters v ∨ s.WithinDeclared v) :
    ∀ v, Within v u → s.Justifies parameters v ∨ s.WithinDeclared v := by
  induction h with
  | nil t => exact ht
  | @array suffixes t u _ ih =>
    refine ih fun v hv => ?_
    cases hv with
    | self => exact .inl (.array t)
    | arg ha hv =>
      obtain rfl := List.mem_singleton.mp ha
      exact ht v hv
  | nullable hd hname harity hvalue _ ih =>
    refine ih fun v hv => ?_
    rcases within_construct hv with rfl | ⟨a, ha, hva⟩
    · exact .inl (.nullable hd hname harity hvalue)
    · obtain rfl := List.mem_singleton.mp ha
      exact ht v hva
  | same _ _ ih => exact ih ht

/-- **Every type within a meaning is justified**, or comes with a declared type, by induction on what
is written. -/
theorem Means.justifies {t : TypeExpr} {u : TypeSymbol} (h : s.Means parameters t u) :
    ∀ v, Within v u → s.Justifies parameters v ∨ s.WithinDeclared v := by
  induction h with
  | @mk t type u types hname hlength _ hsuffixes ih =>
    refine hsuffixes.justifies fun v hv => ?_
    rw [← hlength] at hname
    rcases within_instantiate hv with rfl | ⟨a, ha, hva⟩ | ⟨rfl, a, ha, hva⟩
    · exact .inl (.name hname)
    · have hall : (t.args.zip types).map Prod.snd = types := List.map_snd_zip hlength.le
      rw [← hall] at ha
      obtain ⟨p, hp, rfl⟩ := List.mem_map.mp ha
      exact ih p hp v hva
    · rcases hname.args with hnone | hdeclared
      · rw [hnone] at ha
        exact absurd ha List.not_mem_nil
      · exact .inr ⟨t.name, type, hdeclared, a, ha, hva⟩

/-! ### Errors -/

/-- An error stays behind a suffix. -/
theorem hasError_withSuffix {t : TypeSymbol} (h : t.HasError) (suffix : TypeSuffix) :
    (withSuffix t suffix).HasError := by
  cases suffix with
  | array => exact h.arg List.mem_cons_self
  | nullable =>
    rcases withSuffix_nullable t with ⟨-, d, -, -, -, hsuffix⟩ | ⟨-, hsuffix⟩
    · rw [hsuffix]
      exact h.construct (List.mem_singleton_self t) _
    · rwa [hsuffix]

mutual
/-- **What is reported leaves an error in the type**, by induction on what is written: a name that
stands for nothing is one itself, and the arguments stay within the type. -/
theorem hasError_resolve : ∀ t : TypeExpr, (s.resolve parameters path t).findings ≠ [] →
    (s.resolve parameters path t).type.HasError
  | .mk segments args suffixes span, h => by
    rw [resolve_eq_standsFor] at h ⊢
    cases hmeaning : s.meaning parameters (.mk segments args suffixes span) with
    | error fault =>
      have herror : (unresolved (TypeExpr.mk segments args suffixes span).name).HasError :=
        ⟨_, .self _, rfl⟩
      exact List.foldlRecOn suffixes _ herror fun t ht suffix _ => hasError_withSuffix ht suffix
    | ok type =>
      rw [hmeaning] at h
      obtain ⟨a, ha, herror⟩ := hasError_resolveAll args h
      exact List.foldlRecOn suffixes _ (herror.instantiate ha type) fun t ht suffix _ =>
        hasError_withSuffix ht suffix

theorem hasError_resolveAll : ∀ ts : List TypeExpr, (s.resolveAll parameters path ts).2 ≠ [] →
    ∃ a ∈ (s.resolveAll parameters path ts).1, a.HasError
  | [], h => absurd rfl h
  | t :: more, h => by
    by_cases hfirst : (s.resolve parameters path t).findings = []
    · have hmore : (s.resolveAll parameters path more).2 ≠ [] := fun hnil =>
        h (List.append_eq_nil_iff.mpr ⟨hfirst, hnil⟩)
      obtain ⟨a, ha, herror⟩ := hasError_resolveAll more hmore
      exact ⟨a, List.mem_cons_of_mem _ ha, herror⟩
    · exact ⟨_, List.mem_cons_self, hasError_resolve t hfirst⟩
end

/-! ### The report -/

mutual
/-- What a written type stands for, and the report with what is wrong with it. -/
def resolveInto (s : Scope) (parameters : List String) (path : String) (report : List Diagnostic) :
    TypeExpr → TypeSymbol × List Diagnostic
  | .mk segments args suffixes span =>
    let (types, report) := resolveAllInto s parameters path report args
    let base := s.resolveName parameters path (.mk segments args suffixes span) types
    (suffixes.foldl withSuffix base.type, report ++ base.findings)

/-- What several written types stand for, each reported behind those in front of it. -/
def resolveAllInto (s : Scope) (parameters : List String) (path : String)
    (report : List Diagnostic) : List TypeExpr → List TypeSymbol × List Diagnostic
  | [] => ([], report)
  | t :: more =>
    let (type, report) := resolveInto s parameters path report t
    let (types, report) := resolveAllInto s parameters path report more
    (type :: types, report)
end

mutual
/-- **A report is only added to**, and what is added does not depend on it. -/
theorem resolveInto_eq : ∀ (report : List Diagnostic) (t : TypeExpr),
    s.resolveInto parameters path report t =
      ((s.resolve parameters path t).type, report ++ (s.resolve parameters path t).findings)
  | report, .mk segments args suffixes span => by
    simp only [resolveInto, resolveAllInto_eq report args, resolve, List.append_assoc]

theorem resolveAllInto_eq : ∀ (report : List Diagnostic) (ts : List TypeExpr),
    s.resolveAllInto parameters path report ts =
      ((s.resolveAll parameters path ts).1, report ++ (s.resolveAll parameters path ts).2)
  | report, [] => by rw [resolveAllInto, resolveAll, List.append_nil]
  | report, t :: more => by
    simp only [resolveAllInto, resolveInto_eq report t, resolveAllInto_eq _ more, resolveAll,
      List.append_assoc]
end

/-- **Resolving a written type.** Whatever is in a report already, what is wrong with the type is
added behind it. Where something is added, the type has an error, and where nothing is, it has none,
as long as nothing that is listed is an error, and nothing that is declared is or holds one. Where
nothing is added the type is what the written one means, and every type within it is there for a
reason, or is one that a declared type is declared with. The index that `hindexed` asks for is the
one that an assembly gets when it is made, from a catalog (`AssemblyMetadata.isIndexed_ofCatalog`) or
from a file (`AssemblyMetadata.isIndexed_ofFile`). -/
theorem resolve_justified (hindexed : ∀ a ∈ s.references, a.IsIndexed) (parameters : List String)
    (path : String) (t : TypeExpr) :
    (∀ report, s.resolveInto parameters path report t =
      ((s.resolve parameters path t).type, report ++ (s.resolve parameters path t).findings)) ∧
    ((s.resolve parameters path t).findings ≠ [] →
      (s.resolve parameters path t).type.HasError) ∧
    (s.IsSettled → (s.resolve parameters path t).type.HasError →
      (s.resolve parameters path t).findings ≠ []) ∧
    ((s.resolve parameters path t).findings = [] →
      s.Means parameters t (s.resolve parameters path t).type ∧
        ∀ u, Within u (s.resolve parameters path t).type →
          s.Justifies parameters u ∨ s.WithinDeclared u) := by
  refine ⟨fun report => resolveInto_eq report t, hasError_resolve t, ?_, fun hnone => ?_⟩
  · rintro hsettled ⟨u, hu, herror⟩ hnone
    exact settled_resolve hsettled t hnone u hu herror
  · have hmeans := means_resolve hindexed t hnone
    exact ⟨hmeans, hmeans.justifies⟩

/-- A scope with a listed type, a declared one, and an assembly whose types cannot be listed. -/
def mixedScope : Scope where
  assembly := ⟨"Submission", 42⟩
  declared := [(("Order", 0), .named none "Order" .structType ⟨"Submission", 42⟩)]
  references := [systemRuntime, .ofCatalog "Lib" [⟨"N", "Row", 2, .classType⟩],
    .ofFile "/bin/Models.dll"]
  imports := ["System", "N"]
  aliases := []

/-- `Row<Order?, Invoice>[]`. -/
def mixedType : TypeExpr :=
  .mk [⟨"Row", default⟩]
    [.mk [⟨"Order", default⟩] [] [.nullable] default, .mk [⟨"Invoice", default⟩] [] [] default]
    [.array] default

theorem mixedType_justified :
    (mixedScope.resolve [] "run.csx" mixedType).type.text = "Row<Nullable<Order>, Invoice>[]" ∧
      ¬ (mixedScope.resolve [] "run.csx" mixedType).type.HasError ∧
      ∀ u, Within u (mixedScope.resolve [] "run.csx" mixedType).type →
        mixedScope.Justifies [] u ∨ mixedScope.WithinDeclared u := by
  have hindexed : ∀ a ∈ mixedScope.references, a.IsIndexed :=
    List.forall_mem_cons.mpr ⟨AssemblyMetadata.isIndexed_ofCatalog _ _,
      List.forall_mem_cons.mpr ⟨AssemblyMetadata.isIndexed_ofCatalog _ _,
        List.forall_mem_singleton.mpr (AssemblyMetadata.isIndexed_ofFile _)⟩⟩
  have hbare : ∀ e ∈ mixedScope.declared, e.2.args = [] := List.forall_mem_singleton.mpr rfl
  have hsettled : mixedScope.IsSettled := by
    refine ⟨by decide +kernel, by decide, fun e he _ a ha => ?_⟩
    rw [hbare e he] at ha
    exact absurd ha List.not_mem_nil
  have hnone : (mixedScope.resolve [] "run.csx" mixedType).findings = [] := by decide +kernel
  obtain ⟨-, -, herror, hmeans⟩ := resolve_justified hindexed [] "run.csx" mixedType
  exact ⟨by decide +kernel, fun h => herror hsettled h hnone, (hmeans hnone).2⟩

/-- A scope with an assembly that lists a type which is an error by itself. -/
def errorScope : Scope where
  assembly := ⟨"Submission", 42⟩
  declared := []
  references := [.ofCatalog "Lib" [⟨"N", "Foo", 0, .error⟩]]
  imports := ["N"]
  aliases := []

def errorType : TypeExpr := .mk [⟨"Foo", ⟨1, 1, 3⟩⟩] [] [] ⟨1, 1, 3⟩

/-- A scope with a declared type that holds an error, and one that is an error by itself. -/
def boxScope : Scope where
  assembly := ⟨"Submission", 42⟩
  declared := [(("Box", 0),
      .mk none "Box" .classType (some ⟨"Submission", 42⟩) [.unresolved "Gone"]),
    (("Foo", 0), .named none "Foo" .error ⟨"Submission", 42⟩)]
  references := []
  imports := []
  aliases := []

def boxType : TypeExpr := .mk [⟨"Box", ⟨1, 1, 3⟩⟩] [] [] ⟨1, 1, 3⟩

/-- In that scope whatever a name stands for belongs to an assembly. -/
theorem assembly?_of_names_boxScope {qualifier? : Option String}
    (h : boxScope.Names [] qualifier? name arity type) : type.assembly? ≠ none := by
  cases h with
  | parameter h => exact absurd h List.not_mem_nil
  | declared h =>
    have hall : ∀ e ∈ boxScope.declared, e.2.assembly? ≠ none := by decide
    exact hall _ (mem_of_lookup_eq_some h)
  | unlisted _ _ ha => cases ha
  | _ => exact Option.some_ne_none _

theorem assembly?_instantiate (t : TypeSymbol) (types : List TypeSymbol) :
    (t.instantiate types).assembly? = t.assembly? := by
  cases t
  cases types <;> rfl

theorem not_justifies_boxScope : ¬ boxScope.Justifies [] (.unresolved "Gone") := by
  intro h
  generalize hgone : TypeSymbol.unresolved "Gone" = gone at h
  cases h with
  | array t =>
    have hargs : ([] : List TypeSymbol) = [t] := congrArg TypeSymbol.args hgone
    exact absurd hargs (List.cons_ne_nil t []).symm
  | @nullable d t hd hname harity ht =>
    have hargs : ([] : List TypeSymbol) = [t] := congrArg TypeSymbol.args hgone
    exact absurd hargs (List.cons_ne_nil t []).symm
  | @name qualifier? name type types hname =>
    have howner : none = (type.instantiate types).assembly? := congrArg TypeSymbol.assembly? hgone
    rw [assembly?_instantiate] at howner
    exact assembly?_of_names_boxScope hname howner.symm

/-- Nothing is reported of these types, though all have an error; and the one within a declared type
has no other reason. -/
theorem ownErrors_unreported :
    (∀ a ∈ errorScope.references ++ boxScope.references, a.IsIndexed) ∧
      ¬ ((errorScope.resolve [] "run.csx" errorType).type.HasError ↔
        (errorScope.resolve [] "run.csx" errorType).findings ≠ []) ∧
      ¬ ((boxScope.resolve [] "run.csx" errorType).type.HasError ↔
        (boxScope.resolve [] "run.csx" errorType).findings ≠ []) ∧
      ¬ ((boxScope.resolve [] "run.csx" boxType).type.HasError ↔
        (boxScope.resolve [] "run.csx" boxType).findings ≠ []) ∧
      ∃ u, Within u (boxScope.resolve [] "run.csx" boxType).type ∧ ¬ boxScope.Justifies [] u := by
  have hnone : (errorScope.resolve [] "run.csx" errorType).findings = [] := by decide +kernel
  have hkind : (errorScope.resolve [] "run.csx" errorType).type.kind = .error := by decide +kernel
  have hfoo : boxScope.resolve [] "run.csx" errorType =
      ⟨.named none "Foo" .error ⟨"Submission", 42⟩, []⟩ := rfl
  have hbox : boxScope.resolve [] "run.csx" boxType =
      ⟨.mk none "Box" .classType (some ⟨"Submission", 42⟩) [.unresolved "Gone"], []⟩ := rfl
  have hgone : Within (.unresolved "Gone") (boxScope.resolve [] "run.csx" boxType).type := by
    rw [hbox]
    exact .arg List.mem_cons_self (.self _)
  refine ⟨List.forall_mem_singleton.mpr (AssemblyMetadata.isIndexed_ofCatalog _ _), fun h => ?_,
    fun h => ?_, fun h => ?_, _, hgone, not_justifies_boxScope⟩
  · exact h.mp ⟨_, .self _, hkind⟩ hnone
  · rw [hfoo] at h
    exact h.mp ⟨_, .self _, rfl⟩ rfl
  · refine h.mp ⟨_, hgone, rfl⟩ ?_
    rw [hbox]

end Scope

end ScriptHost
