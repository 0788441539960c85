/-
# When a compilation has no findings

A compilation has no finding exactly if every source parses, every reference is found, no
two declared types share name and arity, the class takes every declared member, and every
written type resolves. So nothing that is wrong stays without a report: for every step of
the compilation, the report is empty behind it if it was empty before and the step found
what it looked for. In a compilation without findings every type of a member is settled.

Key definitions: `Item.declaredKey?`, `Item.writtenTypes`, `Member.types`, `TypeTable.Adds`,
`ClassTable.Reports`, `Compilation.Accepted`.
Key theorems: `findings_foldl_eq_nil_iff`, `TypeTable.Adds.append`, `ClassTable.Reports.append`,
`Compilation.findings_exact`.
-/
import Mathlib.Data.List.Nodup
import ScriptHost.Proofs.Binding.Kinds
import ScriptHost.Proofs.Binding.Table

namespace ScriptHost

open TypeSymbol

/-! ### What items declare and write -/

/-- The name and the arity of the type that an item declares. -/
def Item.declaredKey? : Item → Option (String × Nat)
  | .typeDecl d => some (d.name.name, d.typeParameters.length)
  | _ => none

/-- The types that are written in an item, each with the type parameters that it may name. The
plain `var` of a field is no written type. -/
def Item.writtenTypes : Item → List (List String × TypeExpr)
  | .typeDecl d => d.bases.map (d.typeParameters.map (·.name), ·)
  | .method d =>
    (d.typeParameters.map (·.name), d.returns) ::
      d.parameters.map (d.typeParameters.map (·.name), ·.type)
  | .field d => if d.type.isSimple ∧ d.type.name = "var" then [] else [([], d.type)]
  | .property d => [([], d.type)]
  | .reference _ | .usingDirective _ | .statement _ => []

/-- The types in the shape of a member. -/
def Member.types : Member → List TypeSymbol
  | .method m => m.returns :: m.parameters.map (·.type)
  | .field f => [f.type]
  | .property p => [p.type]

/-! ### Folds -/

/-- A fold whose steps report nothing exactly under a condition reports nothing exactly if all
of these hold, by induction on what is folded. -/
theorem findings_foldl_eq_nil_iff {σ α : Type} (findings : σ → List Diagnostic) {P : α → Prop}
    {f : σ → α → σ} (h : ∀ s x, findings (f s x) = [] ↔ findings s = [] ∧ P x) :
    ∀ (xs : List α) (s : σ), findings (xs.foldl f s) = [] ↔ findings s = [] ∧ ∀ x ∈ xs, P x
  | [], s => by simp
  | x :: xs, s => by
    rw [List.foldl_cons, findings_foldl_eq_nil_iff findings h xs, h, List.forall_mem_cons, and_assoc]

/-! ### Texts and references -/

theorem Script.parse_iff {text : String} :
    (∃ script, parse text = .ok script) ↔ (parseLenient text).2 = [] := by
  unfold parse
  split
  next script h => simp [h]
  next script errors hne h =>
    rw [h]
    refine ⟨fun hparse => ?_, fun herrors => absurd herrors hne⟩
    obtain ⟨script', hparse⟩ := hparse
    cases hparse

theorem Document.findings_read_eq_nil_iff {s : SourceText} :
    (read s).findings = [] ↔ ∃ script, Script.parse s.text = .ok script := by
  rw [Script.parse_iff, findings, List.map_eq_nil_iff]
  exact Iff.rfl

theorem References.findings_add_eq_nil_iff (source : ReferenceSource) (folder? : Option String)
    (rs : References) (r : SourceReference) :
    (add source folder? rs r).findings = [] ↔
      rs.findings = [] ∧ (source.resolve? r.reference folder?).isSome := by
  unfold add
  split
  next a ha => split <;> simp [ha]
  next ha => simp [ha]

/-- Every reference of every document is found, or one is reported. -/
theorem References.findings_eq_nil_iff (source : ReferenceSource) (documents : List Document) :
    (ofDocuments source documents).findings = [] ↔
      ∀ d ∈ documents, ∀ r ∈ d.references, (source.resolve? r.reference d.folder?).isSome := by
  have hdocument (rs : References) (d : Document) :=
    findings_foldl_eq_nil_iff References.findings (findings_add_eq_nil_iff source d.folder?)
      d.references rs
  exact (findings_foldl_eq_nil_iff References.findings hdocument documents _).trans
    (and_iff_right rfl)

/-! ### Declared types -/

namespace TypeTable

/-- The keys of the declared types, in order. -/
def keys (ts : TypeTable) : List (String × Nat) := ts.declared.map (·.1)

/-- The table `ts'` is `ts` with the types of the keys; nothing is reported if none of the keys
comes twice. -/
structure Adds (ts : TypeTable) (ks : List (String × Nat)) (ts' : TypeTable) : Prop where
  nodup : ts.keys.Nodup → ts'.keys.Nodup
  clean : ts.keys.Nodup → (ts'.findings = [] ↔ ts.findings = [] ∧ (ts.keys ++ ks).Nodup)
  keys : ts.keys.Nodup → ts'.findings = [] → ts'.keys = ts.keys ++ ks

variable {ts ts' ts'' : TypeTable} {a b : List (String × Nat)}

theorem Adds.none (ts : TypeTable) : Adds ts [] ts where
  nodup := id
  clean h := by simp [h]
  keys _ _ := (List.append_nil _).symm

/-- **Keys behind others.** -/
theorem Adds.append (h : Adds ts a ts') (h' : Adds ts' b ts'') : Adds ts (a ++ b) ts'' where
  nodup hn := h'.nodup (h.nodup hn)
  clean hn := by
    rw [h'.clean (h.nodup hn), h.clean hn, ← List.append_assoc]
    constructor
    · rintro ⟨hc, hb⟩
      rw [h.keys hn ((h.clean hn).mpr hc)] at hb
      exact ⟨hc.1, hb⟩
    · rintro ⟨hc, hb⟩
      have ha := (List.nodup_append.mp hb).1
      rw [h.keys hn ((h.clean hn).mpr ⟨hc, ha⟩)]
      exact ⟨⟨hc, ha⟩, hb⟩
  keys hn hc := by
    have hc' := ((h'.clean (h.nodup hn)).mp hc).1
    rw [h'.keys (h.nodup hn) hc, h.keys hn hc', List.append_assoc]

theorem adds_add (assembly : AssemblyIdentity) (path : String) (ts : TypeTable) (item : Item) :
    Adds ts item.declaredKey?.toList (ts.add assembly path item) := by
  cases item with
  | typeDecl d =>
    show Adds ts [(d.name.name, d.typeParameters.length)] _
    generalize hkey : (d.name.name, d.typeParameters.length) = key
    have hnew : (ts.keys ++ [key]).Nodup ↔ key ∉ ts.keys ∧ ts.keys.Nodup := by
      rw [← List.concat_eq_append, List.nodup_concat]
    have hany : ts.declared.any (·.1 == key) = true ↔ key ∈ ts.keys := by
      simp [keys, List.any_eq_true]
    simp only [add, hkey]
    split
    next htwice =>
      have hmem := hany.mp htwice
      exact ⟨id, fun hn => by simp [hnew, hmem], fun _ hc => by simp at hc⟩
    next honce =>
      have hmem : key ∉ ts.keys := fun h => honce (hany.mpr h)
      have hkeys : ts.declared.map (·.1) ++ [key] = ts.keys ++ [key] := rfl
      refine ⟨fun hn => ?_, fun hn => ?_, fun _ _ => ?_⟩
      · simpa [keys] using hnew.mpr ⟨hmem, hn⟩
      · simp [hnew, hmem, hn]
      · simp [keys]
  | _ => exact .none ts

/-- **A fold adds what its steps add**, by induction on what is folded. -/
theorem Adds.foldl {β : Type} {f : TypeTable → β → TypeTable} {g : β → List (String × Nat)}
    (h : ∀ ts x, Adds ts (g x) (f ts x)) : ∀ (xs : List β) (ts : TypeTable),
      Adds ts (xs.flatMap g) (xs.foldl f ts)
  | [], ts => .none ts
  | x :: xs, ts => by
    rw [List.flatMap_cons, List.foldl_cons]
    exact (h ts x).append (Adds.foldl h xs (f ts x))

/-- No two declared types share name and arity, or one is reported. -/
theorem findings_eq_nil_iff (assembly : AssemblyIdentity) (documents : List Document) :
    (ofDocuments assembly documents).findings = [] ↔
      (documents.flatMap fun d => d.script.items.filterMap Item.declaredKey?).Nodup := by
  have hadds : Adds ⟨[], []⟩ (documents.flatMap fun d => d.script.items.flatMap
      fun item => item.declaredKey?.toList) (ofDocuments assembly documents) :=
    .foldl (fun ts d => .foldl (adds_add assembly d.path) d.script.items ts) documents _
  have hclean := hadds.clean List.nodup_nil
  simp only [List.filterMap_eq_flatMap_toList]
  exact hclean.trans (and_iff_right rfl)

end TypeTable

/-! ### Written types -/

namespace Scope

theorem findings_resolveAll (s : Scope) (parameters : List String) (path : String) :
    ∀ ts : List TypeExpr, (s.resolveAll parameters path ts).2 =
      ts.flatMap fun t => (s.resolve parameters path t).findings := by
  intro ts
  induction ts with
  | nil => rfl
  | cons t ts ih => rw [resolveAll, List.flatMap_cons, ← ih]

/-- What is reported of an item are the findings of the types written in it. -/
theorem reports_item (s : Scope) (className path : String) (item : Item) :
    s.baseFindings path item ++ (s.entries className path item).2 =
      item.writtenTypes.flatMap fun w => (s.resolve w.1 path w.2).findings := by
  cases item with
  | typeDecl d =>
    rw [baseFindings, findings_resolveAll, entries, List.append_nil, Item.writtenTypes,
      List.flatMap_map]
  | method d =>
    simp only [baseFindings, entries, method, parameter, Item.writtenTypes, List.nil_append,
      List.flatMap_cons, List.flatMap_map]
  | field d =>
    simp only [baseFindings, entries, fieldType, Item.writtenTypes, List.nil_append]
    split <;> simp
  | property d => simp [baseFindings, entries, Item.writtenTypes]
  | _ => rfl

/-- The types in a member are those that its item writes; without findings they are settled. -/
theorem settled_entries {s : Scope} (hs : s.IsSettled) {className path : String} {item : Item}
    (h : ∀ w ∈ item.writtenTypes, (s.resolve w.1 path w.2).findings = []) :
    ∀ e ∈ (s.entries className path item).1, ∀ m, e.member? = some m →
      ∀ t ∈ m.types, t.Settled := by
  intro e he m hm t ht
  cases item with
  | method d =>
    obtain rfl := List.mem_singleton.mp he
    obtain rfl := Option.some.inj hm
    rcases List.mem_cons.mp ht with rfl | ht
    · exact settled_resolve hs _ (h _ List.mem_cons_self)
    · simp only [List.map_map, List.mem_map] at ht
      obtain ⟨p, hp, rfl⟩ := ht
      exact settled_resolve hs _ (h _ (List.mem_cons_of_mem _ (List.mem_map_of_mem hp)))
  | field d =>
    obtain ⟨name, -, rfl⟩ := List.mem_map.mp he
    obtain rfl := Option.some.inj hm
    obtain rfl := List.mem_singleton.mp ht
    simp only [fieldType, Item.writtenTypes] at h ⊢
    split
    · have hword : keywordType? "object" = some "Object" := rfl
      exact settled_keywordType hword
    next hvar =>
      rw [if_neg hvar] at h
      exact settled_resolve hs _ (h _ (List.mem_singleton_self _))
  | property d =>
    obtain rfl := List.mem_singleton.mp he
    obtain rfl := Option.some.inj hm
    obtain rfl := List.mem_singleton.mp ht
    exact settled_resolve hs _ (h _ (List.mem_singleton_self _))
  | statement body =>
    obtain rfl := List.mem_singleton.mp he
    cases hm
  | _ => cases he

end Scope

/-! ### Members -/

theorem membersOf_keptBehind_le : ∀ (ms : List Member) (es : List (Nat × Entry)),
    (membersOf (keptBehind ms es)).length ≤ (membersOf es).length
  | ms, [] => Nat.le_refl _
  | ms, (n, .statement body) :: es => membersOf_keptBehind_le ms es
  | ms, (n, .member m body?) :: es => by
    rw [keptBehind, membersOf_member]
    split
    · exact Nat.le_succ_of_le (membersOf_keptBehind_le ms es)
    · exact Nat.succ_le_succ (membersOf_keptBehind_le (ms ++ [m]) es)

/-- All entries are kept if no member among them is dropped. -/
theorem keptBehind_eq_iff : ∀ (ms : List Member) (es : List (Nat × Entry)),
    keptBehind ms es = es ↔ membersOf (keptBehind ms es) = membersOf es
  | ms, [] => by simp [keptBehind]
  | ms, (n, .statement body) :: es => by
    rw [keptBehind, List.cons_inj_right, keptBehind_eq_iff ms es, membersOf_statement,
      membersOf_statement]
  | ms, (n, .member m body?) :: es => by
    rw [keptBehind]
    split
    · -- a dropped member leaves fewer of them
      have hle := membersOf_keptBehind_le ms es
      refine ⟨fun h => congrArg membersOf h, fun h => absurd (congrArg List.length h) ?_⟩
      rw [membersOf_member, List.length_cons]
      omega
    · rw [List.cons_inj_right, keptBehind_eq_iff (ms ++ [m]) es, membersOf_member,
        membersOf_member, List.cons_inj_right]

/-- All of several entries are kept if the first are, and the others behind them. -/
theorem keptBehind_append_eq_iff (ms : List Member) (a b : List (Nat × Entry)) :
    keptBehind ms (a ++ b) = a ++ b ↔
      keptBehind ms a = a ∧ keptBehind (ms ++ membersOf (keptBehind ms a)) b = b := by
  rw [keptBehind_append]
  constructor
  · intro h
    have hmembers := congrArg membersOf h
    rw [membersOf_append, membersOf_append] at hmembers
    have ha := membersOf_keptBehind_le ms a
    have hb := membersOf_keptBehind_le (ms ++ membersOf (keptBehind ms a)) b
    have hlen := congrArg List.length hmembers
    rw [List.length_append, List.length_append] at hlen
    obtain ⟨ha', hb'⟩ := List.append_inj hmembers (by omega)
    exact ⟨(keptBehind_eq_iff _ _).mpr ha', (keptBehind_eq_iff _ _).mpr hb'⟩
  · rintro ⟨ha, hb⟩
    rw [ha] at hb ⊢
    rw [hb]

namespace ClassTable

/-- The table `t'` is `t` with what is kept of the entries, and nothing is reported exactly if
`P` holds and all of them are kept. -/
structure Reports (t : ClassTable) (es : List (Nat × Entry)) (P : Prop) (t' : ClassTable) :
    Prop where
  enters : Enters t es t'
  clean : t'.findings = [] ↔ t.findings = [] ∧ P ∧ keptBehind t.members es = es

variable {t t' t'' : ClassTable} {a b : List (Nat × Entry)} {P Q : Prop}

/-- **Reports behind others.** -/
theorem Reports.append (h : Reports t a P t') (h' : Reports t' b Q t'') :
    Reports t (a ++ b) (P ∧ Q) t'' where
  enters := h.enters.append h'.enters
  clean := by
    rw [h'.clean, h.clean, h.enters.members, keptBehind_append_eq_iff]
    simp only [and_assoc, and_left_comm]

theorem reports_enter (className : String) (document : Nat) (t : ClassTable) (e : Entry) :
    Reports t [(document, e)] True (t.enter className document e) := by
  refine ⟨enters_enter className document t e, ?_⟩
  cases e with
  | statement body => simp [enter_statement, keptBehind]
  | member m body? =>
    rw [enter_member]
    by_cases h : t.members.any m.clashesWith <;> simp [keptBehind, h]

/-- **A fold reports what its steps report**, by induction on what is folded. -/
theorem Reports.foldl {β : Type} {f : ClassTable → β → ClassTable} {g : β → List (Nat × Entry)}
    {P : β → Prop} (h : ∀ t x, Reports t (g x) (P x) (f t x)) : ∀ (xs : List β) (t : ClassTable),
      Reports t (xs.flatMap g) (∀ x ∈ xs, P x) (xs.foldl f t)
  | [], t => ⟨.none rfl rfl id, by simp [keptBehind]⟩
  | x :: xs, t => by
    rw [List.flatMap_cons, List.foldl_cons]
    have hall := (h t x).append (Reports.foldl h xs (f t x))
    rwa [← List.forall_mem_cons] at hall

theorem reports_enterItem (s : Scope) (className path : String) (document : Nat) (t : ClassTable)
    (item : Item) :
    Reports t ((s.entries className path item).1.map (document, ·))
      ((s.entries className path item).2 = []) (t.enterItem s className path document item) := by
  refine ⟨enters_enterItem s className path document t item, ?_⟩
  have hentries := Reports.foldl (reports_enter className document) (s.entries className path item).1
    { t with findings := t.findings ++ (s.entries className path item).2 }
  rw [List.map_eq_flatMap]
  refine hentries.clean.trans ?_
  rw [List.append_eq_nil_iff, and_assoc]
  simp only [implies_true, true_and]
  exact Iff.rfl

/-- **The table of documents reports nothing exactly if it takes all members** and nothing is
wrong with the types of their items. -/
theorem reports_ofDocuments (s : Scope) (className : String) (documents : List Document) :
    Reports .empty (entriesOf s className documents)
      (∀ d ∈ documents, ∀ item ∈ d.script.items, (s.entries className d.path item).2 = [])
      (ofDocuments s className documents) := by
  have hfold := Reports.foldl (fun t (x : Document × Nat) =>
    Reports.foldl (reports_enterItem s className x.1.path x.2) x.1.script.items t)
    documents.zipIdx .empty
  have hall := List.forall_mem_map (f := Prod.fst) (l := documents.zipIdx)
    (P := fun d => ∀ item ∈ d.script.items, (s.entries className d.path item).2 = [])
  rw [List.zipIdx_map_fst] at hall
  refine ⟨hfold.enters, ?_⟩
  rw [hall]
  exact hfold.clean

end ClassTable

/-- The members among the entries of documents, in order. -/
theorem membersOf_entriesOf (s : Scope) (className : String) (documents : List Document) :
    membersOf (entriesOf s className documents) = documents.flatMap fun d =>
      d.script.items.flatMap fun item =>
        (s.entries className d.path item).1.filterMap Entry.member? := by
  have hall := List.flatMap_map Prod.fst (fun d : Document => d.script.items.flatMap fun item =>
    (s.entries className d.path item).1.filterMap Entry.member?) documents.zipIdx
  rw [List.zipIdx_map_fst] at hall
  simp only [hall, membersOf, entriesOf, List.filterMap_flatMap, List.filterMap_map]
  rfl

/-! ### Compilations -/

namespace Compilation

variable {options : CompilationOptions} {sources : List SourceText} {source : ReferenceSource}

/-- Nothing is wrong with the sources. -/
structure Accepted (options : CompilationOptions) (sources : List SourceText)
    (source : ReferenceSource) : Prop where
  parses : ∀ s ∈ sources, ∃ script, Script.parse s.text = .ok script
  /-- Every `#r` is found from the folder of its document. -/
  references : ∀ d ∈ (create options sources source).documents, ∀ r ∈ d.references,
    (source.resolve? r.reference d.folder?).isSome
  /-- No two declared types share name and arity. -/
  keys : ((create options sources source).documents.flatMap fun d =>
    d.script.items.filterMap Item.declaredKey?).Nodup
  /-- The class rejects no member: it holds those of all items, in order. -/
  members : (create options sources source).scriptClass.members =
    (create options sources source).documents.flatMap fun d => d.script.items.flatMap fun item =>
      ((scopeFor options sources source).entries options.scriptClassName d.path item).1.filterMap
        Entry.member?
  types : ∀ d ∈ (create options sources source).documents, ∀ item ∈ d.script.items,
    ∀ w ∈ item.writtenTypes,
      ((scopeFor options sources source).resolve w.1 d.path w.2).findings = []

/-- Nothing is reported of any item exactly if every written type resolves. -/
theorem reports_eq_nil_iff (s : Scope) (className : String) (documents : List Document) :
    documents.flatMap (fun d => d.script.items.flatMap (s.baseFindings d.path)) = [] ∧
        (∀ d ∈ documents, ∀ item ∈ d.script.items, (s.entries className d.path item).2 = []) ↔
      ∀ d ∈ documents, ∀ item ∈ d.script.items, ∀ w ∈ item.writtenTypes,
        (s.resolve w.1 d.path w.2).findings = [] := by
  have hitem (d : Document) (item : Item) :
      (∀ w ∈ item.writtenTypes, (s.resolve w.1 d.path w.2).findings = []) ↔
        s.baseFindings d.path item = [] ∧ (s.entries className d.path item).2 = [] := by
    rw [← List.flatMap_eq_nil_iff, ← s.reports_item className, List.append_eq_nil_iff]
  simp only [hitem, List.flatMap_eq_nil_iff, imp_and, forall_and]

/-- The members of the class are those of all items exactly if the table keeps all entries. -/
theorem table_clean_iff (options : CompilationOptions) (sources : List SourceText)
    (source : ReferenceSource) :
    (ClassTable.ofDocuments (scopeFor options sources source) options.scriptClassName
        (sources.map Document.read)).findings = [] ↔
      (∀ d ∈ sources.map Document.read, ∀ item ∈ d.script.items,
        ((scopeFor options sources source).entries options.scriptClassName d.path item).2 = []) ∧
      (create options sources source).scriptClass.members =
        (sources.map Document.read).flatMap fun d => d.script.items.flatMap fun item =>
          ((scopeFor options sources source).entries options.scriptClassName d.path item).1.filterMap
            Entry.member? := by
  have htable := ClassTable.reports_ofDocuments (scopeFor options sources source)
    options.scriptClassName (sources.map Document.read)
  have hmembers : (create options sources source).scriptClass.members =
      [] ++ membersOf (keptBehind [] (entriesOf (scopeFor options sources source)
        options.scriptClassName (sources.map Document.read))) := htable.enters.members
  rw [htable.clean, keptBehind_eq_iff, hmembers, ← membersOf_entriesOf, List.nil_append]
  exact and_iff_right rfl

/-- A compilation has no finding exactly if nothing is wrong with its sources. -/
theorem findings_eq_nil_iff : (create options sources source).findings = [] ↔
    Accepted options sources source := by
  have htable := table_clean_iff options sources source
  have htypes := reports_eq_nil_iff (scopeFor options sources source) options.scriptClassName
    (sources.map Document.read)
  have hreferences := References.findings_eq_nil_iff source (sources.map Document.read)
  have hkeys := TypeTable.findings_eq_nil_iff (identityOf options sources)
    (sources.map Document.read)
  have hparses : (sources.map Document.read).flatMap Document.findings = [] ↔
      ∀ s ∈ sources, ∃ script, Script.parse s.text = .ok script := by
    simp only [List.flatMap_eq_nil_iff, List.forall_mem_map, Document.findings_read_eq_nil_iff]
  constructor
  · intro h
    obtain ⟨h, htable'⟩ := List.append_eq_nil_iff.mp h
    obtain ⟨h, hbases⟩ := List.append_eq_nil_iff.mp h
    obtain ⟨h, hkeys'⟩ := List.append_eq_nil_iff.mp h
    obtain ⟨hparses', hreferences'⟩ := List.append_eq_nil_iff.mp h
    obtain ⟨hentries, hmembers⟩ := htable.mp htable'
    exact ⟨hparses.mp hparses', hreferences.mp hreferences', hkeys.mp hkeys', hmembers,
      htypes.mp ⟨hbases, hentries⟩⟩
  · intro h
    obtain ⟨hbases, hentries⟩ := htypes.mpr h.types
    have htable' := htable.mpr ⟨hentries, h.members⟩
    refine List.append_eq_nil_iff.mpr ⟨?_, htable'⟩
    refine List.append_eq_nil_iff.mpr ⟨?_, hbases⟩
    refine List.append_eq_nil_iff.mpr ⟨?_, hkeys.mpr h.keys⟩
    exact List.append_eq_nil_iff.mpr ⟨hparses.mpr h.parses, hreferences.mpr h.references⟩

/-- **A compilation has no finding exactly if nothing is wrong with its sources**; and where it
has none and no assembly that it refers to lists an error, the types of all members are settled. -/
theorem findings_exact (options : CompilationOptions) (sources : List SourceText)
    (source : ReferenceSource) :
    ((create options sources source).findings = [] ↔ Accepted options sources source) ∧
      ((∀ a ∈ (create options sources source).references, a.IsSettled) →
        (create options sources source).findings = [] →
        ∀ m ∈ (create options sources source).scriptClass.members, ∀ t ∈ m.types, t.Settled) := by
  refine ⟨findings_eq_nil_iff, fun hreferences hnone => ?_⟩
  have haccepted := findings_eq_nil_iff.mp hnone
  rw [haccepted.members]
  intro m hm
  obtain ⟨d, hd, hm⟩ := List.mem_flatMap.mp hm
  obtain ⟨item, hitem, hm⟩ := List.mem_flatMap.mp hm
  obtain ⟨e, he, hm⟩ := List.mem_filterMap.mp hm
  exact Scope.settled_entries (isSettled_scopeOf hreferences _) (haccepted.types d hd item hitem) e
    he m hm

/-- An array of lists of a declared type. -/
def sampleTypes : List SourceText := [⟨"run.csx", "class Order { } List<Order>[] x;"⟩]

theorem sampleTypes_settled :
    ((create .standard sampleTypes (AssemblyLibrary.standard.source .empty)).findings = [] ↔
        Accepted .standard sampleTypes (AssemblyLibrary.standard.source .empty)) ∧
      (create .standard sampleTypes (AssemblyLibrary.standard.source .empty)).findings = [] ∧
      (create .standard sampleTypes (AssemblyLibrary.standard.source .empty)).scriptClass.members.map
        (·.types.map TypeSymbol.text) = [["List<Order>[]"]] ∧
      ∀ m ∈ (create .standard sampleTypes
          (AssemblyLibrary.standard.source .empty)).scriptClass.members,
        ∀ t ∈ m.types, t.Settled := by
  obtain ⟨hiff, hsettled⟩ :=
    findings_exact .standard sampleTypes (AssemblyLibrary.standard.source .empty)
  have hnone : (create .standard sampleTypes
      (AssemblyLibrary.standard.source .empty)).findings = [] := by decide +kernel
  have hreferences : ∀ a ∈ (create .standard sampleTypes
      (AssemblyLibrary.standard.source .empty)).references, a.IsSettled := by decide +kernel
  exact ⟨hiff, hnone, by decide +kernel, hsettled hreferences hnone⟩

/-- An assembly that lists a type of the kind `error`. -/
def brokenAssembly : AssemblyMetadata := .ofCatalog "Lib" [⟨"N", "Foo", 0, .error⟩]

/-- A field of that type. -/
def brokenField : List SourceText := [⟨"run.csx", "#r \"Lib\"\nusing N;\nFoo x;"⟩]

/-- Without the condition on the assemblies members need not be settled: a listed error is handed
on without a report. -/
theorem brokenField_unreported :
    ¬ ∀ (options : CompilationOptions) (sources : List SourceText) (source : ReferenceSource),
      (create options sources source).findings = [] →
        ∀ m ∈ (create options sources source).scriptClass.members, ∀ t ∈ m.types, t.Settled := by
  intro h
  let source := (AssemblyLibrary.standard.register brokenAssembly).source .empty
  have hnone : (create .standard brokenField source).findings = [] := by decide +kernel
  have hkinds : (create .standard brokenField source).scriptClass.members.map
      (·.types.map TypeSymbol.kind) = [[.error]] := by decide +kernel
  obtain ⟨m, hm⟩ : ∃ m, (create .standard brokenField source).scriptClass.members = [m] :=
    List.length_eq_one_iff.mp (by simpa using congrArg List.length hkinds)
  rw [hm] at hkinds
  obtain ⟨t, ht⟩ : ∃ t, m.types = [t] :=
    List.length_eq_one_iff.mp (by simpa using congrArg (List.map List.length) hkinds)
  have hsettled := h .standard brokenField source hnone m (by rw [hm]; simp) t (by rw [ht]; simp)
  rw [List.map_singleton, ht] at hkinds
  exact hsettled t (.self t) (by simpa using hkinds)

end Compilation

end ScriptHost
