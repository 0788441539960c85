/-
# What each part of a compilation reports

Every part of a compilation reports under codes of its own: the texts of the documents under
those of the parse errors, the declared types under one, the written types under those of the
faults of names, and the class under one more. The references that nobody knows are reported
one for one, in order, and nothing else is reported under their code.

Key definitions: `References.unknownOf`.
Key theorems: `findings_foldl`, `References.findings_ofDocuments`, `forall_findings_foldl`,
`Scope.code_of_mem_resolve`, `Compilation.eq_notFound_of_code`.
-/
import ScriptHost.Proofs.Binding.Gate

namespace ScriptHost

/-! ### Folds -/

/-- A fold whose steps put findings behind what they are given puts all of them behind, by
induction on what is folded. -/
theorem findings_foldl {σ α : Type} (findings : σ → List Diagnostic) {f : σ → α → σ}
    {g : α → List Diagnostic} (h : ∀ s x, findings (f s x) = findings s ++ g x) :
    ∀ (xs : List α) (s : σ), findings (xs.foldl f s) = findings s ++ xs.flatMap g
  | [], s => (List.append_nil _).symm
  | x :: xs, s => by
    rw [List.foldl_cons, findings_foldl findings h xs, h, List.append_assoc, List.flatMap_cons]

/-- A fold whose steps add only findings with a property to what they are given adds only such. -/
theorem forall_findings_foldl {σ α : Type} (findings : σ → List Diagnostic)
    {P : Diagnostic → Prop} {f : σ → α → σ}
    (h : ∀ s x, ∀ d ∈ findings (f s x), d ∈ findings s ∨ P d) :
    ∀ (xs : List α) (s : σ), ∀ d ∈ findings (xs.foldl f s), d ∈ findings s ∨ P d
  | [], _, d, hd => .inl hd
  | x :: xs, s, d, hd => by
    rcases forall_findings_foldl findings h xs (f s x) d hd with hd | hP
    · exact h s x d hd
    · exact .inr hP

/-! ### Documents and references -/

theorem Document.code_of_mem_findings {d : Document} {f : Diagnostic} (hf : f ∈ d.findings) :
    ∃ kind : ParseErrorKind, f.code = kind.code := by
  obtain ⟨e, -, rfl⟩ := List.mem_map.mp hf
  exact ⟨e.kind, rfl⟩

namespace References

/-- The references of a document that nobody knows. -/
def unknownOf (source : ReferenceSource) (folder? : Option String)
    (references : List SourceReference) : List SourceReference :=
  references.filter fun r => (source.resolve? r.reference folder?).isNone

theorem findings_add (source : ReferenceSource) (folder? : Option String) (rs : References)
    (r : SourceReference) :
    (add source folder? rs r).findings =
      rs.findings ++ (unknownOf source folder? [r]).map SourceReference.notFound := by
  unfold add unknownOf
  rw [List.filter_singleton]
  split
  next a ha =>
    rw [ha]
    split <;> exact (List.append_nil _).symm
  next ha =>
    rw [ha]
    rfl

/-- **The references that nobody knows are reported**, one for one and in order. -/
theorem findings_ofDocuments (source : ReferenceSource) (documents : List Document) :
    (ofDocuments source documents).findings = documents.flatMap fun d =>
      (unknownOf source d.folder? d.references).map SourceReference.notFound := by
  have hreferences (folder? : Option String) (references : List SourceReference) :
      (references.flatMap fun r => (unknownOf source folder? [r]).map SourceReference.notFound) =
        (unknownOf source folder? references).map SourceReference.notFound := by
    rw [← List.map_flatMap]
    simp only [unknownOf, ← List.filter_flatMap, List.flatMap_singleton']
  have hdocument (rs : References) (d : Document) :
      (d.references.foldl (add source d.folder?) rs).findings = rs.findings ++
        (unknownOf source d.folder? d.references).map SourceReference.notFound := by
    rw [findings_foldl References.findings (findings_add source d.folder?), hreferences]
  exact findings_foldl References.findings hdocument documents _

end References

/-! ### Types and members -/

theorem TypeTable.code_of_mem_findings (assembly : AssemblyIdentity) (documents : List Document) :
    ∀ d ∈ (ofDocuments assembly documents).findings, d.code = "FS0101" := by
  have hadd (path : String) (ts : TypeTable) (item : Item) :
      ∀ d ∈ (add assembly path ts item).findings, d ∈ ts.findings ∨ d.code = "FS0101" := by
    intro d hd
    cases item with
    | typeDecl d' =>
      simp only [add] at hd
      split at hd
      · rcases List.mem_append.mp hd with hd | hd
        · exact .inl hd
        · obtain rfl := List.mem_singleton.mp hd
          exact .inr rfl
      · exact .inl hd
    | _ => exact .inl hd
  intro d hd
  have hall := forall_findings_foldl TypeTable.findings
    (fun ts (doc : Document) => forall_findings_foldl TypeTable.findings (hadd doc.path)
      doc.script.items ts) documents _ d hd
  exact hall.resolve_left List.not_mem_nil

namespace Scope

theorem code_of_mem_resolveName (s : Scope) (parameters : List String) (path : String)
    (t : TypeExpr) (args : List TypeSymbol) :
    ∀ d ∈ (s.resolveName parameters path t args).findings,
      ∃ fault : NameFault, d.code = fault.code := by
  intro d hd
  unfold resolveName at hd
  split at hd
  · exact absurd hd List.not_mem_nil
  · split at hd
    · exact absurd hd List.not_mem_nil
    next fault _ =>
      obtain rfl := List.mem_singleton.mp hd
      exact ⟨fault, rfl⟩

mutual

/-- What is wrong with a written type is a fault of a name, by recursion on the type. -/
theorem code_of_mem_resolve (s : Scope) (parameters : List String) (path : String) :
    ∀ t : TypeExpr, ∀ d ∈ (s.resolve parameters path t).findings,
      ∃ fault : NameFault, d.code = fault.code
  | .mk segments args suffixes span, d, hd => by
    rw [resolve] at hd
    rcases List.mem_append.mp hd with hd | hd
    · exact code_of_mem_resolveAll s parameters path args d hd
    · exact code_of_mem_resolveName s parameters path _ _ d hd

theorem code_of_mem_resolveAll (s : Scope) (parameters : List String) (path : String) :
    ∀ ts : List TypeExpr, ∀ d ∈ (s.resolveAll parameters path ts).2,
      ∃ fault : NameFault, d.code = fault.code
  | [], d, hd => absurd hd List.not_mem_nil
  | t :: more, d, hd => by
    rw [resolveAll] at hd
    rcases List.mem_append.mp hd with hd | hd
    · exact code_of_mem_resolve s parameters path t d hd
    · exact code_of_mem_resolveAll s parameters path more d hd

end

/-- What is reported of the types of an item is a fault of a name. -/
theorem code_of_mem_reports (s : Scope) (className path : String) (item : Item) :
    ∀ d ∈ s.baseFindings path item ++ (s.entries className path item).2,
      ∃ fault : NameFault, d.code = fault.code := by
  intro d hd
  rw [reports_item] at hd
  obtain ⟨w, -, hd⟩ := List.mem_flatMap.mp hd
  exact code_of_mem_resolve s w.1 path w.2 d hd

end Scope

namespace ClassTable

theorem code_of_mem_enter (className : String) (document : Nat) (t : ClassTable) (e : Entry) :
    ∀ d ∈ (t.enter className document e).findings, d ∈ t.findings ∨ d.code = "FS0111" := by
  intro d hd
  cases e with
  | statement body => exact .inl hd
  | member m body? =>
    rw [enter] at hd
    split at hd
    · rcases List.mem_append.mp hd with hd | hd
      · exact .inl hd
      · obtain rfl := List.mem_singleton.mp hd
        exact .inr rfl
    · exact .inl hd

/-- What the table of documents reports is a clash of members or a fault of a name. -/
theorem code_of_mem_findings (s : Scope) (className : String) (documents : List Document) :
    ∀ d ∈ (ofDocuments s className documents).findings,
      d.code = "FS0111" ∨ ∃ fault : NameFault, d.code = fault.code := by
  have hitem (path : String) (document : Nat) (t : ClassTable) (item : Item) :
      ∀ d ∈ (t.enterItem s className path document item).findings,
        d ∈ t.findings ∨ d.code = "FS0111" ∨ ∃ fault : NameFault, d.code = fault.code := by
    intro d hd
    rcases forall_findings_foldl ClassTable.findings (code_of_mem_enter className document) _ _ d hd
      with hd | hcode
    · rcases List.mem_append.mp hd with hd | hd
      · exact .inl hd
      · exact .inr (.inr (s.code_of_mem_reports className path item d
          (List.mem_append_right _ hd)))
    · exact .inr (.inl hcode)
  intro d hd
  have hall := forall_findings_foldl ClassTable.findings
    (fun t (x : Document × Nat) => forall_findings_foldl ClassTable.findings (hitem x.1.path x.2)
      x.1.script.items t) documents.zipIdx _ d hd
  exact hall.resolve_left List.not_mem_nil

end ClassTable

/-! ### Compilations -/

/-- Neither a missing reference nor a clash of members is reported as a parse error or a fault of
a name. -/
theorem ParseErrorKind.code_ne (kind : ParseErrorKind) :
    kind.code ≠ "FS0006" ∧ kind.code ≠ "FS0111" := by
  cases kind <;> decide

theorem NameFault.code_ne (fault : NameFault) :
    fault.code ≠ "FS0006" ∧ fault.code ≠ "FS0111" := by
  cases fault <;> simp [code]

/-- **Only references are reported as not found.** -/
theorem Compilation.eq_notFound_of_code {options : CompilationOptions} {sources : List SourceText}
    {source : ReferenceSource} {f : Diagnostic}
    (hf : f ∈ (create options sources source).findings) (hcode : f.code = "FS0006") :
    ∃ d ∈ (create options sources source).documents, ∃ r ∈ d.references,
      source.resolve? r.reference d.folder? = none ∧ f = r.notFound := by
  have hname (h : ∃ fault : NameFault, f.code = fault.code) : False := by
    obtain ⟨fault, hfault⟩ := h
    exact fault.code_ne.1 (hfault.symm.trans hcode)
  rcases List.mem_append.mp hf with hf | htable
  · rcases List.mem_append.mp hf with hf | hbases
    · rcases List.mem_append.mp hf with hf | htypes
      · rcases List.mem_append.mp hf with htexts | hreferences
        · obtain ⟨d, -, hd⟩ := List.mem_flatMap.mp htexts
          obtain ⟨kind, hkind⟩ := Document.code_of_mem_findings hd
          exact absurd (hkind.symm.trans hcode) kind.code_ne.1
        · rw [References.findings_ofDocuments] at hreferences
          obtain ⟨d, hd, hreferences⟩ := List.mem_flatMap.mp hreferences
          obtain ⟨r, hr, rfl⟩ := List.mem_map.mp hreferences
          obtain ⟨hr, hnone⟩ := List.mem_filter.mp hr
          exact ⟨d, hd, r, hr, Option.isNone_iff_eq_none.mp hnone, rfl⟩
      · have htype := TypeTable.code_of_mem_findings _ _ f htypes
        exact absurd (htype.symm.trans hcode) (by decide)
    · obtain ⟨d, -, hbases⟩ := List.mem_flatMap.mp hbases
      obtain ⟨item, -, hbases⟩ := List.mem_flatMap.mp hbases
      exact (hname (Scope.code_of_mem_reports _ options.scriptClassName d.path item f
        (List.mem_append_left _ hbases))).elim
  · rcases ClassTable.code_of_mem_findings _ _ _ f htable with hclass | hfault
    · exact absurd (hclass.symm.trans hcode) (by decide)
    · exact (hname hfault).elim

end ScriptHost
