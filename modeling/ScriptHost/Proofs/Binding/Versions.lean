/-
# Compilations of sources that declare the same

Two lists of sources may declare the same at different places, and with other code. Compiled
under the same options they make assemblies of different identities, but as long as neither is
one of those referred to, everything else that a compilation tells is the same: its findings but
for their places, and the members of its class as its own assembly sees them.

Key definitions: `Document.bare`, `MemberTable.seenFrom`, `ClassTable.seenFrom`,
`Compilation.IsFresh`.
Key theorems: `References.bare_ofDocuments`, `TypeTable.seenFrom_ofDocuments`,
`ClassTable.seenFrom_ofDocuments`, `Compilation.create_alike`.
-/
import ScriptHost.Proofs.Binding.Alike
import ScriptHost.Proofs.Binding.Table

namespace ScriptHost

open Source

/-! ### Documents -/

/-- What a document declares, without its text, its problems and all places. -/
def Document.bare (d : Document) : Document :=
  ⟨⟨d.path, ""⟩, ⟨d.script.items.map Item.bare, default⟩, []⟩

/-- A reference without the place where it is written. -/
def SourceReference.bare (r : SourceReference) : SourceReference := ⟨r.reference, r.location.bare⟩

theorem Document.references_bare (d : Document) :
    d.bare.references = d.references.map SourceReference.bare := by
  simp only [references, Script.references, bare, List.filterMap_map, List.map_filterMap]
  refine List.filterMap_congr fun item _ => ?_
  cases item <;> rfl

theorem Document.usings_bare (d : Document) :
    d.bare.script.usings = d.script.usings.map UsingDirective.bare := by
  simp only [Script.usings, bare, List.filterMap_map, List.map_filterMap]
  refine List.filterMap_congr fun item _ => ?_
  cases item <;> rfl

@[simp] theorem UsingDirective.target_bare (u : UsingDirective) : u.bare.target = u.target :=
  dottedText_bare u.path

/-! ### References and usings -/

/-- The assemblies referred to, and what was reported, without places. -/
def References.bare (rs : References) : References := ⟨rs.assemblies, rs.findings.map Diagnostic.bare⟩

theorem References.bare_add (source : ReferenceSource) (folder? : Option String) (rs : References)
    (r : SourceReference) :
    (add source folder? rs r).bare = add source folder? rs.bare r.bare := by
  unfold add
  simp only [SourceReference.bare]
  cases source.resolve? r.reference folder? with
  | some a =>
    by_cases h : rs.assemblies.any (·.identity == a.identity) <;> simp [bare, h]
  | none => simp [bare, Diagnostic.bare, SourceReference.notFound, Diagnostic.error]

/-- **The references depend on what the documents declare only.** -/
theorem References.bare_ofDocuments (source : ReferenceSource) (documents : List Document) :
    (ofDocuments source documents).bare = ofDocuments source (documents.map Document.bare) := by
  have hdocument (rs : References) (d : Document) :
      d.bare.references.foldl (add source d.folder?) rs.bare =
        (d.references.foldl (add source d.folder?) rs).bare := by
    rw [d.references_bare, List.foldl_map]
    exact List.foldl_hom bare fun rs r => (bare_add source d.folder? rs r).symm
  rw [ofDocuments, ofDocuments, List.foldl_map]
  exact (List.foldl_hom bare hdocument).symm

theorem importsOf_bare (defaults : List String) (usings : List UsingDirective) :
    importsOf defaults (usings.map UsingDirective.bare) = importsOf defaults usings := by
  rw [importsOf, List.foldl_map, importsOf]
  refine congrArg (List.foldl · defaults usings) (funext₂ fun imports u => ?_)
  simp only [UsingDirective.target_bare]
  simp only [UsingDirective.bare, Option.isSome_map]

theorem aliasesOf_bare (usings : List UsingDirective) :
    aliasesOf (usings.map UsingDirective.bare) = aliasesOf usings := by
  simp only [aliasesOf, List.filterMap_map]
  congr 1
  refine List.filterMap_congr fun u _ => ?_
  simp only [Function.comp_apply, UsingDirective.target_bare]
  simp only [UsingDirective.bare, Option.map_map]
  rfl

/-! ### Declared types -/

namespace TypeTable

/-- The declared types as an assembly sees them, and what was reported, without places. -/
def seenFrom (assembly : AssemblyIdentity) (ts : TypeTable) : TypeTable :=
  ⟨ts.declared.map fun e => (e.1, e.2.seenFrom assembly), ts.findings.map Diagnostic.bare⟩

theorem seenFrom_add (assembly : AssemblyIdentity) (path : String) (ts : TypeTable) (item : Item) :
    (add assembly path ts item).seenFrom assembly =
      add default path (ts.seenFrom assembly) item.bare := by
  cases item with
  | typeDecl d =>
    have hkey : (ts.seenFrom assembly).declared.any (·.1 == (d.name.name, d.typeParameters.length)) =
        ts.declared.any (·.1 == (d.name.name, d.typeParameters.length)) := by
      rw [seenFrom, List.any_map]
      rfl
    by_cases h : ts.declared.any (·.1 == (d.name.name, d.typeParameters.length))
    · simp only [add, Item.bare, TypeDecl.bare, Ident.name_bare, List.length_map, hkey, h,
        ↓reduceIte]
      simp [seenFrom, Diagnostic.bare, Diagnostic.error]
      rfl
    · simp only [add, Item.bare, TypeDecl.bare, Ident.name_bare, List.length_map, hkey, h,
        Bool.false_eq_true, ↓reduceIte]
      simp [seenFrom, TypeSymbol.seenFrom_own]
  | _ => rfl

/-- **The declared types depend on what the documents declare only**, as the assembly sees them
that they belong to. -/
theorem seenFrom_ofDocuments (assembly : AssemblyIdentity) (documents : List Document) :
    (ofDocuments assembly documents).seenFrom assembly =
      ofDocuments default (documents.map Document.bare) := by
  have hdocument (ts : TypeTable) (d : Document) :
      d.bare.script.items.foldl (add default d.path) (ts.seenFrom assembly) =
        (d.script.items.foldl (add assembly d.path) ts).seenFrom assembly := by
    rw [Document.bare, List.foldl_map]
    exact List.foldl_hom (seenFrom assembly) fun ts i => (seenFrom_add assembly d.path ts i).symm
  rw [ofDocuments, ofDocuments, List.foldl_map]
  exact (List.foldl_hom (seenFrom assembly) hdocument).symm

end TypeTable

/-! ### The class -/

@[simp] theorem MethodSymbol.overloadKey_seen (m : MethodSymbol) :
    m.seen.overloadKey = m.overloadKey := by
  simp only [overloadKey, seen, List.map_map]
  refine congrArg (fun l => _ ++ ",".intercalate l ++ _) (List.map_congr_left fun p _ => ?_)
  simp only [Function.comp_apply, ParameterSymbol.seenFrom, TypeSymbol.text_seenFrom]

namespace Member

theorem isMethod_seenFrom (assembly : AssemblyIdentity) (m : Member) :
    (m.seenFrom assembly).isMethod = m.isMethod := by
  cases m <;> rfl

/-- The methods among members, as an assembly sees them. -/
theorem exists_method_seenFrom (assembly : AssemblyIdentity) {P : MethodSymbol → Prop}
    (hP : ∀ m, P m.seen ↔ P m) (ms : List Member) :
    (∃ m, .method m ∈ ms.map (·.seenFrom assembly) ∧ P m) ↔ ∃ m, .method m ∈ ms ∧ P m := by
  constructor
  · rintro ⟨m, hm, hPm⟩
    obtain ⟨k, hk, hseen⟩ := List.mem_map.mp hm
    cases k with
    | method k =>
      obtain rfl := Member.method.inj hseen
      exact ⟨k, hk, (hP k).mp hPm⟩
    | field f => cases hseen
    | property p => cases hseen
  · rintro ⟨m, hm, hPm⟩
    exact ⟨m.seen, List.mem_map.mpr ⟨_, hm, rfl⟩, (hP m).mpr hPm⟩

end Member

namespace MemberTable

/-- The members as an assembly sees them. It sees names and keys as they are. -/
def seenFrom (assembly : AssemblyIdentity) (t : MemberTable) : MemberTable where
  members := t.members.map (·.seenFrom assembly)
  methodNames := t.methodNames
  methodKeys := t.methodKeys
  dataNames := t.dataNames
  mem_methodNames name := by
    rw [t.mem_methodNames, Member.exists_method_seenFrom assembly fun m => Iff.rfl]
  mem_methodKeys key := by
    rw [t.mem_methodKeys, Member.exists_method_seenFrom assembly fun m => by
      rw [MethodSymbol.overloadKey_seen]]
  mem_dataNames name := by
    rw [t.mem_dataNames]
    constructor
    · rintro ⟨m, hm, hdata, hname⟩
      refine ⟨_, List.mem_map_of_mem hm, ?_, ?_⟩
      · rw [Member.isMethod_seenFrom, hdata]
      · rw [Member.name_seenFrom, hname]
    · rintro ⟨k, hk, hdata, hname⟩
      obtain ⟨m, hm, rfl⟩ := List.mem_map.mp hk
      rw [Member.isMethod_seenFrom] at hdata
      rw [Member.name_seenFrom] at hname
      exact ⟨m, hm, hdata, hname⟩

/-- A table of an assembly rejects a member as far as this one sees. -/
theorem rejects_seenFrom (assembly : AssemblyIdentity) (t : MemberTable) (m : Member) :
    (t.seenFrom assembly).rejects (m.seenFrom assembly) = t.rejects m := by
  cases m with
  | method m =>
    show (t.dataNames.contains m.name || t.methodKeys.contains m.seen.overloadKey) = _
    rw [MethodSymbol.overloadKey_seen]
    rfl
  | field f => rfl
  | property p => rfl

theorem seenFrom_add (assembly : AssemblyIdentity) (t : MemberTable) (m : Member) :
    (t.add m).seenFrom assembly = (t.seenFrom assembly).add (m.seenFrom assembly) := by
  have hmembers : (t.add m).members.map (·.seenFrom assembly) =
      ((t.seenFrom assembly).add (m.seenFrom assembly)).members := by
    rw [members_add, members_add, List.map_append]
    rfl
  cases m with
  | method m =>
    have hkeys : t.methodKeys.insert m.overloadKey = t.methodKeys.insert m.seen.overloadKey := by
      rw [MethodSymbol.overloadKey_seen]
    exact MemberTable.ext hmembers rfl hkeys rfl
  | field f => exact MemberTable.ext hmembers rfl rfl rfl
  | property p => exact MemberTable.ext hmembers rfl rfl rfl

end MemberTable

namespace ClassTable

/-- The table of the class as an assembly sees it, without places. -/
def seenFrom (assembly : AssemblyIdentity) (t : ClassTable) : ClassTable :=
  ⟨t.table.seenFrom assembly, t.bodies.map fun b => { b with body := b.body.bare },
    t.findings.map Diagnostic.bare⟩

theorem rejection_seenFrom (assembly : AssemblyIdentity) (className : String) (m : Member) :
    (m.seenFrom assembly).rejection className = (m.rejection className).bare := by
  cases m <;> rfl

theorem seenFrom_enter (assembly : AssemblyIdentity) (className : String) (document : Nat)
    (t : ClassTable) (e : Entry) :
    (t.enter className document e).seenFrom assembly =
      (t.seenFrom assembly).enter className document (e.seenFrom assembly) := by
  cases e with
  | statement body => simp [enter, seenFrom, Entry.seenFrom]
  | member m body? =>
    have hrejects : (t.seenFrom assembly).table.rejects (m.seenFrom assembly) = t.table.rejects m :=
      t.table.rejects_seenFrom assembly m
    have hlength : (t.seenFrom assembly).members.length = t.members.length := List.length_map _
    by_cases h : t.table.rejects m
    · simp only [enter, Entry.seenFrom, hrejects, h, ↓reduceIte, rejection_seenFrom]
      simp [seenFrom]
    · simp only [enter, Entry.seenFrom, hrejects, h, hlength, Bool.false_eq_true, ↓reduceIte]
      cases body? <;> simp [seenFrom, MemberTable.seenFrom_add]

section

variable {s s' : Scope} {t t' : ClassTable} (className path : String) (document : Nat)

theorem seenFrom_enterItem (h : s.Alike s') (ht : t.seenFrom s.assembly = t'.seenFrom s'.assembly)
    (item : Item) :
    (t.enterItem s className path document item).seenFrom s.assembly =
      (t'.enterItem s' className path document item.bare).seenFrom s'.assembly := by
  obtain ⟨hentries, hfound⟩ := h.entries className path item
  have hfold (assembly : AssemblyIdentity) (t : ClassTable) (es : List Entry) :
      (es.foldl (enter className document) t).seenFrom assembly =
        (es.map (·.seenFrom assembly)).foldl (enter className document) (t.seenFrom assembly) := by
    rw [List.foldl_map]
    exact (List.foldl_hom (seenFrom assembly) fun t e =>
      (seenFrom_enter assembly className document t e).symm).symm
  obtain ⟨hmembers, hbodies, hfindings⟩ := ClassTable.mk.inj ht
  simp only [enterItem]
  rw [hfold, hfold, hentries]
  refine congrArg (List.foldl _ · _) ?_
  simp only [seenFrom, List.map_append, hmembers, hbodies, hfindings, hfound]

theorem seenFrom_enterItems (h : s.Alike s') : ∀ (items : List Item) {t t' : ClassTable},
    t.seenFrom s.assembly = t'.seenFrom s'.assembly →
      (items.foldl (enterItem s className path document) t).seenFrom s.assembly =
        ((items.map Item.bare).foldl (enterItem s' className path document) t').seenFrom s'.assembly
  | [], _, _, ht => ht
  | item :: items, _, _, ht =>
    seenFrom_enterItems h items (seenFrom_enterItem className path document h ht item)

end

/-- **The class depends on what the documents declare only**, as the assembly sees it that it
belongs to. -/
theorem seenFrom_ofDocuments {s s' : Scope} (h : s.Alike s') (className : String)
    (documents : List Document) :
    (ofDocuments s className documents).seenFrom s.assembly =
      (ofDocuments s' className (documents.map Document.bare)).seenFrom s'.assembly := by
  have hdocuments : ∀ (ds : List (Document × Nat)) {t t' : ClassTable},
      t.seenFrom s.assembly = t'.seenFrom s'.assembly →
        (ds.foldl (fun t d => d.1.script.items.foldl (enterItem s className d.1.path d.2) t)
          t).seenFrom s.assembly =
        ((ds.map (Prod.map Document.bare id)).foldl (fun t d =>
          d.1.script.items.foldl (enterItem s' className d.1.path d.2) t) t').seenFrom
            s'.assembly := by
    intro ds
    induction ds with
    | nil => exact id
    | cons d ds ih => exact fun ht => ih (seenFrom_enterItems className d.1.path d.2 h _ ht)
  rw [ofDocuments, ofDocuments, List.zipIdx_map]
  exact hdocuments documents.zipIdx rfl

end ClassTable

/-! ### Compilations -/

namespace Compilation

section Scopes

variable {assembly assembly' : AssemblyIdentity} {source : ReferenceSource}
  {documents documents' : List Document}

theorem references_eq (source : ReferenceSource)
    (h : documents.map Document.bare = documents'.map Document.bare) :
    (References.ofDocuments source documents).assemblies =
        (References.ofDocuments source documents').assemblies ∧
      (References.ofDocuments source documents).findings.map Diagnostic.bare =
        (References.ofDocuments source documents').findings.map Diagnostic.bare := by
  rw [← References.mk.injEq]
  calc (References.ofDocuments source documents).bare
      = References.ofDocuments source (documents.map Document.bare) :=
        References.bare_ofDocuments source documents
    _ = References.ofDocuments source (documents'.map Document.bare) := by rw [h]
    _ = (References.ofDocuments source documents').bare :=
        (References.bare_ofDocuments source documents').symm

theorem usings_eq (h : documents.map Document.bare = documents'.map Document.bare) :
    (documents.flatMap (·.script.usings)).map UsingDirective.bare =
      (documents'.flatMap (·.script.usings)).map UsingDirective.bare := by
  have hbare (documents : List Document) :
      (documents.flatMap (·.script.usings)).map UsingDirective.bare =
        (documents.map Document.bare).flatMap (·.script.usings) := by
    rw [List.map_flatMap, List.flatMap_map]
    exact List.flatMap_congr fun d _ => d.usings_bare.symm
  rw [hbare, h, hbare]

/-- **Documents that declare the same make scopes that are alike.** -/
theorem alike_scopeOf (h : documents.map Document.bare = documents'.map Document.bare)
    (hother : ∀ a ∈ systemRuntime :: (References.ofDocuments source documents).assemblies,
      a.identity ≠ assembly ∧ a.identity ≠ assembly') :
    (scopeOf assembly source documents).Alike (scopeOf assembly' source documents') where
  declared := by
    have htypes : (TypeTable.ofDocuments assembly documents).seenFrom assembly =
        (TypeTable.ofDocuments assembly' documents').seenFrom assembly' := by
      rw [TypeTable.seenFrom_ofDocuments, h, TypeTable.seenFrom_ofDocuments]
    exact congrArg TypeTable.declared htypes
  references := (references_eq source h).1
  imports := by
    have husings := congrArg (importsOf source.defaultImports) (usings_eq h)
    rwa [importsOf_bare, importsOf_bare] at husings
  aliases := by
    have husings := congrArg aliasesOf (usings_eq h)
    rwa [aliasesOf_bare, aliasesOf_bare] at husings
  other := hother

theorem baseFindings_eq {s s' : Scope} (h : s.Alike s') (documents : List Document) :
    (documents.flatMap fun d => d.script.items.flatMap (s.baseFindings d.path)).map Diagnostic.bare =
      ((documents.map Document.bare).flatMap fun d =>
        d.script.items.flatMap (s'.baseFindings d.path)).map Diagnostic.bare := by
  simp only [List.map_flatMap, List.flatMap_map]
  refine List.flatMap_congr fun d _ => ?_
  simp only [Document.bare, List.flatMap_map]
  exact List.flatMap_congr fun item _ => h.baseFindings d.path item

end Scopes

/-- The assembly that is made is none of those that the compilation refers to. The predefined
words are taken from the core framework in any case. -/
def IsFresh (c : Compilation) : Prop := ∀ a ∈ systemRuntime :: c.references, a.identity ≠ c.assembly

/-- Over a library the core framework is one of the references. -/
theorem isFresh_of_references {options : CompilationOptions} {sources : List SourceText}
    {l : AssemblyLibrary} {fs : FileTree}
    (h : ∀ a ∈ (create options sources (l.source fs)).references,
      a.identity ≠ (create options sources (l.source fs)).assembly) :
    (create options sources (l.source fs)).IsFresh :=
  List.forall_mem_cons.mpr ⟨h systemRuntime (References.mem_assemblies List.mem_cons_self _), h⟩

/-- No references at all, not even to the core framework. -/
def noReferences : ReferenceSource := ⟨[], [], fun _ _ => none⟩

theorem forall_noReferences {P : AssemblyMetadata → Prop} (options : CompilationOptions)
    (sources : List SourceText) :
    ∀ a ∈ (create options sources noReferences).references, P a := by
  refine References.forall_assemblies (fun a ha => absurd ha List.not_mem_nil) ?_ _
  intro reference folder? a h
  exact absurd h (Option.some_ne_none a).symm

/-- Options under which an assembly gets the name of the core framework. -/
def coreOptions : CompilationOptions := ⟨"System.Runtime", "Submission#0", .debug, true⟩

/-- A body whose script, in the document `run.csx`, has the number of the core framework for its
fingerprint. -/
def coreBlock : String := "\x7b/*001c08GQHrLeiN*/\x7d"

def coreFront : String := "public void Run(int a) "

/-- **What sources declare decides all findings but for their places, and the members of the
class** as its assembly sees them. -/
theorem create_alike {options : CompilationOptions} {sources sources' : List SourceText}
    {source : ReferenceSource}
    (h : (sources.map Document.read).map Document.bare =
      (sources'.map Document.read).map Document.bare)
    (hproblems : ((sources.map Document.read).flatMap Document.findings).map Diagnostic.bare =
      ((sources'.map Document.read).flatMap Document.findings).map Diagnostic.bare)
    (hfresh : (create options sources source).IsFresh)
    (hfresh' : (create options sources' source).IsFresh) :
    (create options sources source).findings.map Diagnostic.bare =
        (create options sources' source).findings.map Diagnostic.bare ∧
      (create options sources source).scriptClass.members.map
          (·.seenFrom (create options sources source).assembly) =
        (create options sources' source).scriptClass.members.map
          (·.seenFrom (create options sources' source).assembly) := by
  obtain ⟨hassemblies, hreferences⟩ := references_eq source h
  have hsame : (create options sources source).references =
      (create options sources' source).references := hassemblies
  have halike : (scopeFor options sources source).Alike (scopeFor options sources' source) := by
    refine alike_scopeOf h fun a ha => ⟨hfresh a ha, hfresh' a ?_⟩
    rw [← hsame]
    exact ha
  have hself : (scopeFor options sources' source).Alike (scopeFor options sources' source) :=
    alike_scopeOf rfl fun a ha => ⟨hfresh' a ha, hfresh' a ha⟩
  have htable : (ClassTable.ofDocuments (scopeFor options sources source) options.scriptClassName
        (sources.map Document.read)).seenFrom (identityOf options sources) =
      (ClassTable.ofDocuments (scopeFor options sources' source) options.scriptClassName
        (sources'.map Document.read)).seenFrom (identityOf options sources') := by
    have hleft := ClassTable.seenFrom_ofDocuments halike options.scriptClassName
      (sources.map Document.read)
    have hright := ClassTable.seenFrom_ofDocuments hself options.scriptClassName
      (sources'.map Document.read)
    rw [h] at hleft
    exact hleft.trans hright.symm
  have hbases := (baseFindings_eq halike (sources.map Document.read)).trans
    ((congrArg _ (congrArg _ h)).trans (baseFindings_eq hself (sources'.map Document.read)).symm)
  have htypes : (TypeTable.ofDocuments (identityOf options sources)
        (sources.map Document.read)).seenFrom (identityOf options sources) =
      (TypeTable.ofDocuments (identityOf options sources')
        (sources'.map Document.read)).seenFrom (identityOf options sources') := by
    rw [TypeTable.seenFrom_ofDocuments, h, TypeTable.seenFrom_ofDocuments]
  refine ⟨?_, congrArg (·.table.members) htable⟩
  have hdeclared := congrArg TypeTable.findings htypes
  have hmembers := congrArg ClassTable.findings htable
  simp only [create, List.map_append, hproblems]
  refine congrArg₂ (· ++ ·) (congrArg₂ (· ++ ·) (congrArg₂ (· ++ ·) (congrArg _ ?_) ?_) ?_) ?_
  · exact hreferences
  · exact hdeclared
  · exact hbases
  · exact hmembers

end Compilation

end ScriptHost
