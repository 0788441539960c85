/-
# The names in resolved types

Every name in the type that a written type stands for is a name, whether it was found or not: a
predefined word stands for a framework type, a listed or declared type is found under its own
name, the target of an alias ends in a name, and what is unlisted or unknown keeps the name that
was written. So all methods that documents declare are made of names.

Key definitions: `Scope.IsNamed`, `MethodSymbol.IsNamed`.
Key theorems: `isName_of_splitAtLastPoint?`, `Scope.isNamed_of_lookup`, `Scope.isNamed_resolve`,
`isNamed_of_declared`.
-/
import Mathlib.Data.List.TakeWhile
import ScriptHost.Proofs.Assembly.Index
import ScriptHost.Proofs.Binding.Verdicts
import ScriptHost.Proofs.Reading.Names
import ScriptHost.Proofs.Symbol.Texts

namespace ScriptHost

open TypeSymbol

/-! ### Dotted texts -/

/-- A text without a point is not split. -/
theorem splitAtLastPoint?_of_not_mem {name : String} (h : '.' ∉ name.toList) :
    splitAtLastPoint? name = none := by
  have hall : name.toList.reverse.dropWhile (· != '.') = [] := by
    rw [List.dropWhile_eq_nil_iff]
    intro c hc
    refine bne_iff_ne.mpr ?_
    rintro rfl
    exact h (List.mem_reverse.mp hc)
  simp only [splitAtLastPoint?, hall]

/-- A text is split at its last point. -/
theorem splitAtLastPoint?_append {front name : String} (h : '.' ∉ name.toList) :
    splitAtLastPoint? (front ++ "." ++ name) = some (front, name) := by
  have hpoint : ".".toList = ['.'] := by decide
  have hbackwards : (front ++ "." ++ name).toList.reverse =
      name.toList.reverse ++ '.' :: front.toList.reverse := by
    simp only [String.toList_append, hpoint, List.reverse_append, List.reverse_singleton,
      List.singleton_append]
  have hname : ∀ c ∈ name.toList.reverse, (c != '.') = true := by
    intro c hc
    refine bne_iff_ne.mpr ?_
    rintro rfl
    exact h (List.mem_reverse.mp hc)
  simp only [splitAtLastPoint?, hbackwards, List.dropWhile_append_of_pos hname,
    List.takeWhile_append_of_pos hname]
  simp

/-- What a text is split into makes it up again, and the last part has no point. -/
theorem of_splitAtLastPoint? {text front name : String}
    (h : splitAtLastPoint? text = some (front, name)) :
    text = front ++ "." ++ name ∧ '.' ∉ name.toList := by
  simp only [splitAtLastPoint?] at h
  split at h
  · cases h
  next c rest hdrop =>
    obtain ⟨rfl, rfl⟩ := Prod.mk.inj (Option.some.inj h)
    have hc : c = '.' := by
      have hhead := List.head?_dropWhile_not (· != '.') text.toList.reverse
      rw [hdrop] at hhead
      simpa using hhead
    constructor
    · have hall := List.takeWhile_append_dropWhile (p := (· != '.')) (l := text.toList.reverse)
      rw [hdrop, hc] at hall
      have htext := congrArg List.reverse hall
      rw [List.reverse_reverse] at htext
      rw [← String.toList_inj]
      exact htext.symm.trans (by simp)
    · intro hmem
      rw [String.toList_ofList, List.mem_reverse] at hmem
      exact absurd (List.mem_takeWhile_imp hmem) (by simp)

theorem dottedText_concat {lead : List Ident} (h : lead ≠ []) (last : Ident) :
    dottedText (lead ++ [last]) = dottedText lead ++ "." ++ last.name := by
  have hlead : lead.map (·.name) ≠ [] := fun hnil => h (List.map_eq_nil_iff.mp hnil)
  have hlast : [last].map (·.name) ≠ [] := List.cons_ne_nil _ _
  rw [dottedText, List.map_append, String.intercalate_append_of_ne_nil hlead hlast, List.map_singleton,
    String.intercalate_singleton]
  rfl

/-- **The last name of a dotted text is a name.** -/
theorem isName_of_splitAtLastPoint? {path : List Ident} (h : IsPath path)
    {namespaceName target : String}
    (hsplit : splitAtLastPoint? (dottedText path) = some (namespaceName, target)) :
    IsName target := by
  obtain ⟨lead, last, rfl⟩ := (List.eq_nil_or_concat' path).resolve_left h.nonempty
  have hlast : IsName last.name := h.names last (List.mem_append_right _ (List.mem_singleton_self _))
  by_cases hlead : lead = []
  · have hsingle : dottedText (lead ++ [last]) = last.name := by
      rw [hlead, List.nil_append, dottedText, List.map_singleton, String.intercalate_singleton]
    rw [hsingle, splitAtLastPoint?_of_not_mem (hlast.not_mem (by decide))] at hsplit
    cases hsplit
  · rw [dottedText_concat hlead, splitAtLastPoint?_append (hlast.not_mem (by decide))] at hsplit
    obtain ⟨-, rfl⟩ := Prod.mk.inj (Option.some.inj hsplit)
    exact hlast

/-! ### Framework types -/

namespace TypeSymbol

theorem isNamed_named {namespace? : Option String} {name : String} {kind : TypeKind}
    {assembly : AssemblyIdentity} (h : IsName name) : (named namespace? name kind assembly).IsNamed :=
  .mk h fun _ ha => absurd ha List.not_mem_nil

theorem isNamed_unresolved {name : String} (h : IsName name) : (unresolved name).IsNamed :=
  .mk h fun _ ha => absurd ha List.not_mem_nil

theorem isNamed_construct {t : TypeSymbol} {args : List TypeSymbol} (ht : IsName t.name)
    (hargs : ∀ a ∈ args, a.IsNamed) : (t.construct args).IsNamed := by
  cases t
  exact .mk ht hargs

theorem isNamed_of_args {t : TypeSymbol} (ht : IsName t.name) (hargs : t.args = []) :
    t.IsNamed := by
  obtain ⟨ns, name, kind, owner?, args⟩ := t
  obtain rfl : args = [] := hargs
  exact .mk ht fun _ ha => absurd ha List.not_mem_nil

theorem isNamed_instantiate {t : TypeSymbol} {args : List TypeSymbol} (ht : t.IsNamed)
    (hargs : ∀ a ∈ args, a.IsNamed) : (t.instantiate args).IsNamed := by
  cases args with
  | nil => exact ht
  | cons first more =>
    obtain ⟨hname, -⟩ := ht
    exact .mk hname hargs

theorem isNamed_arrayOf {t : TypeSymbol} (h : t.IsNamed) : (arrayOf t).IsNamed :=
  .mk (by decide) (List.forall_mem_singleton.mpr h)

end TypeSymbol

theorem isNamed_frameworkType {name : String} (h : IsName name) : (frameworkType name).IsNamed := by
  unfold frameworkType
  split
  next d hd =>
    have hfind := AssemblyMetadata.name_of_mem_find (AssemblyMetadata.isIndexed_ofCatalog _ _)
      (List.mem_of_find?_eq_some hd)
    exact isNamed_named (hfind ▸ h)
  · exact isNamed_unresolved h

theorem isNamed_keywordType {word framework : String} (h : keywordType? word = some framework) :
    (frameworkType framework).IsNamed := by
  unfold keywordType? at h
  split at h
  all_goals cases h
  all_goals exact isNamed_frameworkType (by decide)

theorem isNamed_nullableOf {t : TypeSymbol} (h : t.IsNamed) : (nullableOf t).IsNamed := by
  unfold nullableOf
  split
  next d hd =>
    have hfind := AssemblyMetadata.name_of_mem_find (AssemblyMetadata.isIndexed_ofCatalog _ _)
      (List.mem_of_head? hd)
    refine isNamed_construct ?_ (List.forall_mem_singleton.mpr h)
    show IsName d.name
    rw [hfind]
    decide
  · exact h

/-! ### Scopes -/

namespace Scope

/-- What the names in the scope may mean is found under names. -/
structure IsNamed (s : Scope) : Prop where
  indexed : ∀ a ∈ s.references, a.IsIndexed
  declared : ∀ e ∈ s.declared, e.2.IsNamed
  aliases : ∀ e ∈ s.aliases, ∀ namespaceName target,
    splitAtLastPoint? e.2 = some (namespaceName, target) → IsName target

variable {s : Scope} {name : String} {arity : Nat} {t : TypeSymbol}

/-- What a search finds has the name that was searched for. -/
theorem name_of_search (hs : s.IsNamed) {visible : String → Bool}
    (h : s.search visible name arity = .ok t) : t.name = name := by
  unfold search at h
  split at h
  · split at h <;> cases h
  next a d hone =>
    have hmem : (a, d) ∈ s.candidates visible name arity := by
      rw [hone]
      exact List.mem_singleton_self _
    obtain ⟨b, hb, hd⟩ := List.mem_flatMap.mp hmem
    obtain ⟨d', hd', heq⟩ := List.mem_map.mp hd
    obtain ⟨rfl, rfl⟩ := Prod.mk.inj heq
    obtain rfl := Except.ok.inj h
    exact AssemblyMetadata.name_of_mem_find (hs.indexed b hb) (List.mem_filter.mp hd').1
  · cases h

theorem name_of_unlisted {namespace? : Option String} (h : s.unlisted namespace? name = .ok t) :
    t.name = name := by
  unfold unlisted at h
  split at h
  · obtain rfl := Except.ok.inj h
    rfl
  · cases h

/-- **What a name stands for is made of names.** -/
theorem isNamed_of_lookup (hs : s.IsNamed) {qualifier? : Option String} (hname : IsName name)
    (h : s.lookup qualifier? name arity = .ok t) : t.IsNamed := by
  cases finds_of_lookup h with
  | listed visible h => exact isNamed_of_args (name_of_search hs h ▸ hname) (args_of_search h)
  | target text namespaceName target halias hsplit h =>
    refine isNamed_of_args ?_ (args_of_search h)
    rw [name_of_search hs h]
    exact hs.aliases _ halias namespaceName target hsplit
  | unlisted namespace? h =>
    exact isNamed_of_args (name_of_unlisted h ▸ hname) (args_of_unlisted h)
  | declared h => exact hs.declared _ h

variable {parameters : List String} {path : String}

theorem isNamed_word (hname : IsName name) (h : s.word? parameters name = some t) : t.IsNamed := by
  unfold word? at h
  split at h
  next framework hk =>
    obtain rfl := Option.some.inj h
    exact isNamed_keywordType hk
  · split at h
    · obtain rfl := Option.some.inj h
      exact .mk hname fun _ ha => absurd ha List.not_mem_nil
    · cases h

theorem isNamed_resolveName (parameters : List String) (path : String) (hs : s.IsNamed)
    {written : TypeExpr} {args : List TypeSymbol} (hname : IsName written.name)
    (hargs : ∀ a ∈ args, a.IsNamed) :
    (s.resolveName parameters path written args).type.IsNamed := by
  unfold resolveName
  split
  next type hword =>
    split at hword
    · exact isNamed_word hname hword
    · cases hword
  · split
    next type hlookup => exact isNamed_instantiate (isNamed_of_lookup hs hname hlookup) hargs
    · exact isNamed_unresolved hname

theorem isNamed_withSuffix (suffix : TypeSuffix) (h : t.IsNamed) : (withSuffix t suffix).IsNamed := by
  cases suffix with
  | array => exact isNamed_arrayOf h
  | nullable =>
    show (if t.kind.isValueType then nullableOf t else t).IsNamed
    split
    · exact isNamed_nullableOf h
    · exact h

mutual

/-- **A written type stands for a type made of names**, by recursion on what is written. -/
theorem isNamed_resolve (hs : s.IsNamed) : ∀ {written : TypeExpr}, written.IsNamed →
    (s.resolve parameters path written).type.IsNamed
  | .mk segments args suffixes span, h => by
    have hname := h.isName
    obtain ⟨-, hargs⟩ := h
    have hbase := isNamed_resolveName parameters path hs hname (isNamed_resolveAll hs hargs)
    exact List.foldlRecOn suffixes _ hbase fun t ht suffix _ => isNamed_withSuffix suffix ht

theorem isNamed_resolveAll (hs : s.IsNamed) : ∀ {written : List TypeExpr},
    (∀ w ∈ written, w.IsNamed) → ∀ t ∈ (s.resolveAll parameters path written).1, t.IsNamed
  | [], _ => by simp [resolveAll]
  | w :: more, h => by
    obtain ⟨hw, hmore⟩ := List.forall_mem_cons.mp h
    exact List.forall_mem_cons.mpr ⟨isNamed_resolve hs hw, isNamed_resolveAll hs hmore⟩

end

end Scope

/-! ### Documents -/

/-- The names in the items of the document are names. -/
def Document.IsNamed (d : Document) : Prop := ∀ item ∈ d.script.items, item.IsNamed

theorem Document.isNamed_read (source : SourceText) : (read source).IsNamed :=
  fun _ hitem => Script.isNamed_of_mem hitem

theorem isName_of_aliases {usings : List UsingDirective} (h : ∀ u ∈ usings, u.IsNamed) :
    ∀ e ∈ aliasesOf usings, ∀ namespaceName target,
      splitAtLastPoint? e.2 = some (namespaceName, target) → IsName target := by
  intro e he namespaceName target hsplit
  obtain ⟨u, hu, halias⟩ := List.mem_filterMap.mp (List.mem_reverse.mp he)
  obtain ⟨a, -, rfl⟩ := Option.map_eq_some_iff.mp halias
  exact isName_of_splitAtLastPoint? (h u hu).path hsplit

/-- The scope of documents is made of names if what they may refer to is indexed. -/
theorem isNamed_scopeOf {source : ReferenceSource} (h : source.IsIndexed)
    (assembly : AssemblyIdentity) {documents : List Document} (hd : ∀ d ∈ documents, d.IsNamed) :
    (Compilation.scopeOf assembly source documents).IsNamed where
  indexed := References.forall_assemblies h.defaults h.resolved documents
  declared := TypeTable.forall_declared (P := TypeSymbol.IsNamed)
    fun d hmem decl hdecl => isNamed_named (hd d hmem _ hdecl).name
  aliases := by
    refine isName_of_aliases fun u hu => ?_
    obtain ⟨d, hmem, hu⟩ := List.mem_flatMap.mp hu
    obtain ⟨item, hitem, hu⟩ := List.mem_filterMap.mp hu
    have hnamed := hd d hmem item hitem
    cases item with
    | usingDirective u' =>
      obtain rfl := Option.some.inj hu
      exact hnamed
    | _ => cases hu

/-! ### Methods -/

/-- The method and the types of its parameters are made of names. -/
structure MethodSymbol.IsNamed (m : MethodSymbol) : Prop where
  name : IsName m.name
  parameters : ∀ p ∈ m.parameters, p.type.IsNamed

theorem Scope.isNamed_method {s : Scope} (hs : s.IsNamed) (className path : String) {d : MethodDecl}
    (h : d.IsNamed) : (s.method className path d).1.IsNamed := by
  refine ⟨h.name, fun p hp => ?_⟩
  simp only [method, List.map_map, List.mem_map] at hp
  obtain ⟨decl, hdecl, rfl⟩ := hp
  exact isNamed_resolve hs (h.parameters decl hdecl).type

/-- **The methods that documents declare are made of names.** -/
theorem isNamed_of_declared {s : Scope} (hs : s.IsNamed) {className : String}
    {documents : List Document} (hd : ∀ d ∈ documents, d.IsNamed) {m : MethodSymbol}
    (hm : .method m ∈ declaredMembers s className documents) : m.IsNamed := by
  obtain ⟨d, hmem, decl, hitem, rfl⟩ := exists_decl_of_mem hm
  exact s.isNamed_method hs className d.path (hd d hmem _ hitem)

end ScriptHost
