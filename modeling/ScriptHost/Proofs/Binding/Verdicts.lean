/-
# Which declared members the class takes

The class decides on the members that its documents declare one after the other, in the order
in which they are written. Two members clash if they are methods of one shape, that is of one name,
with as many type parameters, and parameters of the same modes and types, or if they share their
name and are not both methods. The table of the class tells methods apart by a key, which is one
text for methods of one shape, but may be so for others too. So it takes a member that clashes with
none it has taken before, unless it is a method that is taken for one of these; and it reports every
other one at its name, where no other part of a compilation reports under that code. Of the members
taken none clash. A member that was not taken is of no weight for those that follow.

Key definitions: `Judged`, `judge`, `takenOf`, `rejectedOf`, `Member.Clashes`, `Member.MixedUp`,
`Item.declaredNames`, `ClassTable.Judges`, `Compilation.Decides`.
Key theorems: `judge_append`, `taken_iff_of_judge`, `pairwise_taken`, `Member.clashesWith_iff`,
`ClassTable.Judges.foldl`, `Compilation.decides_create`.
-/
import ScriptHost.Proofs.Binding.Codes

namespace ScriptHost

/-! ### Verdicts -/

/-- A declared member, and whether the class takes it. -/
structure Judged where
  member : Member
  taken : Bool
deriving Repr, Inhabited

/-- The verdicts on declared members behind the members `ms` that were taken before: one is taken
if it clashes with none of those. -/
def judge : List Member → List Member → List Judged
  | _, [] => []
  | ms, m :: more =>
    if ms.any m.clashesWith then ⟨m, false⟩ :: judge ms more
    else ⟨m, true⟩ :: judge (ms ++ [m]) more

/-- The members that were taken. -/
def takenOf (vs : List Judged) : List Member := (vs.filter (·.taken)).map (·.member)

/-- The members that were not taken. -/
def rejectedOf (vs : List Judged) : List Member := (vs.filter (!·.taken)).map (·.member)

section

variable (m : Member) (vs ws : List Judged)

@[simp] theorem takenOf_taken : takenOf (⟨m, true⟩ :: vs) = m :: takenOf vs := rfl

@[simp] theorem takenOf_rejected : takenOf (⟨m, false⟩ :: vs) = takenOf vs := rfl

@[simp] theorem rejectedOf_taken : rejectedOf (⟨m, true⟩ :: vs) = rejectedOf vs := rfl

@[simp] theorem rejectedOf_rejected : rejectedOf (⟨m, false⟩ :: vs) = m :: rejectedOf vs := rfl

theorem rejectedOf_append : rejectedOf (vs ++ ws) = rejectedOf vs ++ rejectedOf ws := by
  simp only [rejectedOf, List.filter_append, List.map_append]

end

theorem map_member_judge : ∀ ms ns : List Member, (judge ms ns).map (·.member) = ns
  | _, [] => rfl
  | ms, m :: more => by
    unfold judge
    split <;> rw [List.map_cons, map_member_judge]

/-- **Verdicts behind others** heed what these took. -/
theorem judge_append : ∀ ms a b : List Member,
    judge ms (a ++ b) = judge ms a ++ judge (ms ++ takenOf (judge ms a)) b
  | ms, [], b => by
    have hnone : takenOf (judge ms []) = [] := rfl
    rw [hnone, List.append_nil]
    rfl
  | ms, m :: a, b => by
    simp only [List.cons_append, judge]
    by_cases h : ms.any m.clashesWith
    · rw [if_pos h, if_pos h, judge_append ms a b, takenOf_rejected, List.cons_append]
    · rw [if_neg h, if_neg h, judge_append (ms ++ [m]) a b, takenOf_taken, List.cons_append,
        List.append_assoc, List.singleton_append]

/-- **A member is taken exactly if it clashes with none that was taken before it**, by induction
on the members in front of it. -/
theorem taken_iff_of_judge : ∀ {ms ns : List Member} {before after : List Judged} {v : Judged},
    judge ms ns = before ++ v :: after →
      (v.taken = true ↔ ∀ k ∈ ms ++ takenOf before, v.member.clashesWith k = false)
  | ms, [], before, after, v, h => by
    have hlen := congrArg List.length h
    rw [List.length_append, List.length_cons] at hlen
    exact absurd hlen (by simp [judge])
  | ms, m :: more, [], after, v, h => by
    have hnone : takenOf [] = [] := rfl
    rw [hnone, List.append_nil]
    unfold judge at h
    split at h
    next hclash =>
      obtain ⟨rfl, -⟩ := List.cons.inj h
      obtain ⟨k, hk, hclash⟩ := List.any_eq_true.mp hclash
      refine ⟨fun htaken => absurd htaken Bool.false_ne_true, fun hall => ?_⟩
      rw [hall k hk] at hclash
      exact absurd hclash Bool.false_ne_true
    next hclash =>
      obtain ⟨rfl, -⟩ := List.cons.inj h
      rw [Bool.not_eq_true, List.any_eq_false] at hclash
      exact ⟨fun _ k hk => Bool.eq_false_iff.mpr (hclash k hk), fun _ => rfl⟩
  | ms, m :: more, w :: before, after, v, h => by
    unfold judge at h
    split at h
    next hclash =>
      obtain ⟨rfl, hmore⟩ := List.cons.inj h
      rw [takenOf_rejected]
      exact taken_iff_of_judge hmore
    next hclash =>
      obtain ⟨rfl, hmore⟩ := List.cons.inj h
      have ih := taken_iff_of_judge hmore
      rwa [List.append_assoc, List.singleton_append] at ih

/-- Of the members taken none clashes with one before it, by induction on the declared members. -/
theorem pairwise_taken : ∀ (ms ns : List Member),
    ms.Pairwise (fun k m => m.clashesWith k = false) →
      (ms ++ takenOf (judge ms ns)).Pairwise (fun k m => m.clashesWith k = false)
  | ms, [], h => by
    have hnone : takenOf (judge ms []) = [] := rfl
    rwa [hnone, List.append_nil]
  | ms, m :: more, h => by
    unfold judge
    split
    next hclash =>
      rw [takenOf_rejected]
      exact pairwise_taken ms more h
    next hclash =>
      have hnew : (ms ++ [m]).Pairwise (fun k m => m.clashesWith k = false) := by
        rw [List.pairwise_append]
        refine ⟨h, List.pairwise_singleton _ _, fun k hk n hn => ?_⟩
        obtain rfl := List.mem_singleton.mp hn
        rw [Bool.not_eq_true, List.any_eq_false] at hclash
        exact Bool.eq_false_iff.mpr (hclash k hk)
      have ih := pairwise_taken (ms ++ [m]) more hnew
      rwa [List.append_assoc, List.singleton_append, ← takenOf_taken] at ih

/-! ### Clashes -/

theorem Member.eq_method_of_method? {m : Member} {k : MethodSymbol} (h : m.method? = some k) :
    m = .method k := by
  cases m with
  | method k' => exact congrArg method (Option.some.inj h)
  | field f => cases h
  | property p => cases h

/-- What overloads are told apart by: the name, the number of type parameters, and for every parameter
the mode and the text of the type. -/
def MethodSymbol.shape (m : MethodSymbol) : String × Nat × List (PassingMode × String) :=
  (m.name, m.typeParameters.length, m.parameters.map fun p => (p.mode, p.type.text))

/-- Methods of one shape have one overload key. -/
theorem MethodSymbol.overloadKey_eq_of_shape {m k : MethodSymbol} (h : m.shape = k.shape) :
    m.overloadKey = k.overloadKey := by
  have hname : m.name = k.name := congrArg Prod.fst h
  have harity : m.typeParameters.length = k.typeParameters.length := congrArg (·.2.1) h
  have hparameters := congrArg (·.2.2.map fun p : PassingMode × String =>
    p.1.keyword?.getD "" ++ p.2) h
  simp only [shape, List.map_map] at hparameters
  have hwords : m.parameters.map (fun p => p.mode.keyword?.getD "" ++ p.type.text) =
      k.parameters.map fun p => p.mode.keyword?.getD "" ++ p.type.text := hparameters
  rw [overloadKey, overloadKey, hname, harity, hwords]

namespace Member

/-- Two members clash: methods of one shape, and members of one name of which one is no method. -/
def Clashes : Member → Member → Prop
  | method m, method k => m.shape = k.shape
  | a, b => a.name = b.name

/-- Two members are taken for one: they are methods of different shapes with one overload key. -/
def MixedUp : Member → Member → Prop
  | method m, method k => m.overloadKey = k.overloadKey ∧ m.shape ≠ k.shape
  | _, _ => False

/-- Only methods are taken for one. -/
theorem exists_methods_of_mixedUp {m k : Member} (h : m.MixedUp k) :
    ∃ m' k', m = .method m' ∧ k = .method k' := by
  unfold MixedUp at h
  split at h
  next m k => exact ⟨m, k, rfl, rfl⟩
  · exact absurd h id

/-- Members that clash do so for the table, and so do those that are taken for one. -/
theorem clashesWith_iff {m k : Member} : m.clashesWith k = true ↔ m.Clashes k ∨ m.MixedUp k := by
  by_cases hboth : m.isMethod ∧ k.isMethod
  · obtain ⟨m, rfl⟩ := exists_eq_method hboth.1
    obtain ⟨k, rfl⟩ := exists_eq_method hboth.2
    show (m.overloadKey == k.overloadKey) = true ↔
      m.shape = k.shape ∨ m.overloadKey = k.overloadKey ∧ m.shape ≠ k.shape
    rw [beq_iff_eq]
    by_cases hshape : m.shape = k.shape
    · exact iff_of_true (MethodSymbol.overloadKey_eq_of_shape hshape) (.inl hshape)
    · rw [or_iff_right hshape, and_iff_left hshape]
  · rw [clashesWith_eq hboth, beq_iff_eq]
    cases m with
    | method m =>
      cases k with
      | method k => exact absurd ⟨rfl, rfl⟩ hboth
      | field f => exact (or_iff_left id).symm
      | property p => exact (or_iff_left id).symm
    | field f => exact (or_iff_left id).symm
    | property p => exact (or_iff_left id).symm

end Member

/-! ### Reports -/

/-- Whether a member that was not taken is reported. -/
def Diagnostic.isRejection (d : Diagnostic) : Bool := d.code == "FS0111"

/-- Where nothing is such a report, none is left. -/
theorem filter_isRejection_eq_nil {ds : List Diagnostic} (h : ∀ d ∈ ds, d.code ≠ "FS0111") :
    ds.filter (·.isRejection) = [] := by
  rw [List.filter_eq_nil_iff]
  intro d hd hcode
  exact h d hd (beq_iff_eq.mp hcode)

theorem Member.location_rejection (className : String) (m : Member) :
    (m.rejection className).location = m.location := rfl

/-- What is reported of the types of an item is no such report. -/
theorem Scope.code_ne_of_mem_reports (s : Scope) (className path : String) (item : Item) :
    ∀ d ∈ s.baseFindings path item ++ (s.entries className path item).2, d.code ≠ "FS0111" := by
  intro d hd
  obtain ⟨fault, hcode⟩ := s.code_of_mem_reports className path item d hd
  rw [hcode]
  exact fault.code_ne.2

/-! ### The table -/

namespace ClassTable

/-- The table `t'` is `t` with the members among the entries that are taken, and with a report of
each of the others. -/
structure Judges (className : String) (t : ClassTable) (es : List (Nat × Entry)) (t' : ClassTable) :
    Prop where
  members : t'.members = t.members ++ takenOf (judge t.members (membersOf es))
  reports : t'.findings.filter (·.isRejection) = t.findings.filter (·.isRejection) ++
    (rejectedOf (judge t.members (membersOf es))).map (·.rejection className)

variable {className : String} {t t' t'' : ClassTable} {a b : List (Nat × Entry)}

/-- **Verdicts on entries behind others.** -/
theorem Judges.append (h : Judges className t a t') (h' : Judges className t' b t'') :
    Judges className t (a ++ b) t'' where
  members := by
    rw [h'.members, h.members, membersOf_append, judge_append, takenOf, takenOf, takenOf,
      List.filter_append, List.map_append, List.append_assoc]
  reports := by
    rw [h'.reports, h.reports, h.members, membersOf_append, judge_append, rejectedOf_append,
      List.map_append, List.append_assoc]

theorem judges_enter (className : String) (document : Nat) (t : ClassTable) :
    ∀ e : Entry, Judges className t [(document, e)] (t.enter className document e)
  | .statement body => ⟨(List.append_nil _).symm, (List.append_nil _).symm⟩
  | .member m body? => by
    rw [enter_member]
    split
    next hclash =>
      have hverdict : judge t.members (membersOf [(document, .member m body?)]) = [⟨m, false⟩] := by
        rw [membersOf_member, judge, if_pos hclash]
        rfl
      refine ⟨?_, ?_⟩
      · rw [hverdict]
        exact (List.append_nil _).symm
      · rw [hverdict, List.filter_append]
        rfl
    next hclash =>
      have hverdict : judge t.members (membersOf [(document, .member m body?)]) = [⟨m, true⟩] := by
        rw [membersOf_member, judge, if_neg hclash]
        rfl
      refine ⟨?_, ?_⟩
      · rw [hverdict]
        exact t.table.members_add m
      · rw [hverdict]
        exact (List.append_nil _).symm

/-- **A fold judges what its steps judge**, by induction on what is folded. -/
theorem Judges.foldl {β : Type} {f : ClassTable → β → ClassTable} {g : β → List (Nat × Entry)}
    (h : ∀ t x, Judges className t (g x) (f t x)) : ∀ (xs : List β) (t : ClassTable),
      Judges className t (xs.flatMap g) (xs.foldl f t)
  | [], t => ⟨(List.append_nil _).symm, (List.append_nil _).symm⟩
  | x :: xs, t => by
    rw [List.flatMap_cons, List.foldl_cons]
    exact (h t x).append (Judges.foldl h xs (f t x))

theorem judges_enterItem (s : Scope) (className path : String) (document : Nat) (t : ClassTable)
    (item : Item) :
    Judges className t ((s.entries className path item).1.map (document, ·))
      (t.enterItem s className path document item) := by
  have hentries := Judges.foldl (judges_enter className document) (s.entries className path item).1
    { t with findings := t.findings ++ (s.entries className path item).2 }
  rw [← List.map_eq_flatMap] at hentries
  have hquiet : (s.entries className path item).2.filter (·.isRejection) = [] :=
    filter_isRejection_eq_nil fun d hd =>
      s.code_ne_of_mem_reports className path item d (List.mem_append_right _ hd)
  refine ⟨hentries.members, hentries.reports.trans ?_⟩
  rw [List.filter_append, hquiet, List.append_nil]
  rfl

/-- **The table of documents judges the members of their entries.** -/
theorem judges_ofDocuments (s : Scope) (className : String) (documents : List Document) :
    Judges className .empty (entriesOf s className documents)
      (ofDocuments s className documents) :=
  Judges.foldl (fun t (d, document) =>
    Judges.foldl (judges_enterItem s className d.path document) d.script.items t) _ _

end ClassTable

/-! ### Declared names -/

/-- The names of the members that an item declares. -/
def Item.declaredNames : Item → List Ident
  | .method d => [d.name]
  | .field d => d.names
  | .property d => [d.name]
  | .reference _ | .usingDirective _ | .typeDecl _ | .statement _ => []

/-- The members that documents declare, in order. -/
def declaredMembers (s : Scope) (className : String) (documents : List Document) : List Member :=
  documents.flatMap fun d => d.script.items.flatMap fun item =>
    (s.entries className d.path item).1.filterMap Entry.member?

/-- An item declares a member for each of its names, at the name. -/
theorem Scope.names_entries (s : Scope) (className path : String) (item : Item) :
    ((s.entries className path item).1.filterMap Entry.member?).map (fun m => (m.name, m.location)) =
      item.declaredNames.map fun n => (n.name, .within path n.span) := by
  cases item with
  | field d => simp [entries, Item.declaredNames, List.filterMap_map, Entry.member?,
      Function.comp_def, Member.name, Member.location]
  | _ => rfl

theorem names_declaredMembers (s : Scope) (className : String) (documents : List Document) :
    (declaredMembers s className documents).map (fun m => (m.name, m.location)) =
      documents.flatMap fun d => d.script.items.flatMap fun item =>
        item.declaredNames.map fun n => (n.name, .within d.path n.span) := by
  simp only [declaredMembers, List.map_flatMap, s.names_entries]

/-- A declared method is declared by an item of one of the documents. -/
theorem exists_decl_of_mem {s : Scope} {className : String} {documents : List Document}
    {m : MethodSymbol} (hm : .method m ∈ declaredMembers s className documents) :
    ∃ d ∈ documents, ∃ decl, .method decl ∈ d.script.items ∧
      m = (s.method className d.path decl).1 := by
  obtain ⟨d, hd, hm⟩ := List.mem_flatMap.mp hm
  obtain ⟨item, hitem, hm⟩ := List.mem_flatMap.mp hm
  obtain ⟨e, he, hm⟩ := List.mem_filterMap.mp hm
  cases item with
  | method decl =>
    obtain rfl := List.mem_singleton.mp he
    exact ⟨d, hd, decl, hitem, (Member.method.inj (Option.some.inj hm)).symm⟩
  | field decl =>
    obtain ⟨name, -, rfl⟩ := List.mem_map.mp he
    cases hm
  | property decl =>
    obtain rfl := List.mem_singleton.mp he
    cases hm
  | statement body =>
    obtain rfl := List.mem_singleton.mp he
    cases hm
  | _ => cases he

/-! ### Compilations -/

namespace Compilation

/-- The class of a compilation decides on the declared members by the verdicts. -/
structure Decides (c : Compilation) (verdicts : List Judged) : Prop where
  /-- There is a verdict for each declared name, in order. -/
  declared : verdicts.map (fun v => (v.member.name, v.member.location)) =
    c.documents.flatMap fun d => d.script.items.flatMap fun item =>
      item.declaredNames.map fun n => (n.name, Location.within d.path n.span)
  members : c.scriptClass.members = takenOf verdicts
  reports : c.findings.filter (·.isRejection) =
    (rejectedOf verdicts).map (·.rejection c.options.scriptClassName)
  /-- A report stands at the name. -/
  places : (c.findings.filter (·.isRejection)).map (·.location) =
    (rejectedOf verdicts).map (·.location)
  /-- What was taken before decides: a member is not taken if it clashes with one of these, or is a
  method that is taken for one of them. -/
  verdict : ∀ before v after, verdicts = before ++ v :: after →
    (v.taken = false ↔ ∃ k ∈ takenOf before, v.member.Clashes k ∨ v.member.MixedUp k)

/-- The verdicts on the members that the sources declare. -/
def verdicts (options : CompilationOptions) (sources : List SourceText) (source : ReferenceSource) :
    List Judged :=
  judge [] (declaredMembers (scopeFor options sources source) options.scriptClassName
    (sources.map Document.read))

/-- **The rejections among the findings are those of the verdicts**: nothing but the table of the
class reports any. -/
theorem rejections_create (options : CompilationOptions) (sources : List SourceText)
    (source : ReferenceSource) :
    (create options sources source).findings.filter (·.isRejection) =
      (rejectedOf (verdicts options sources source)).map (·.rejection options.scriptClassName) := by
  let s := scopeFor options sources source
  let documents := sources.map Document.read
  have hjudges := ClassTable.judges_ofDocuments s options.scriptClassName documents
  have hmembersOf : membersOf (entriesOf s options.scriptClassName documents) =
      declaredMembers s options.scriptClassName documents := membersOf_entriesOf _ _ _
  have hdocuments : (documents.flatMap Document.findings).filter (·.isRejection) = [] := by
    refine filter_isRejection_eq_nil fun f hf => ?_
    obtain ⟨d, -, hf⟩ := List.mem_flatMap.mp hf
    obtain ⟨kind, hcode⟩ := Document.code_of_mem_findings hf
    rw [hcode]
    exact kind.code_ne.2
  have hbases : (documents.flatMap fun d => d.script.items.flatMap
      (s.baseFindings d.path)).filter (·.isRejection) = [] := by
    refine filter_isRejection_eq_nil fun f hf => ?_
    obtain ⟨d, -, hf⟩ := List.mem_flatMap.mp hf
    obtain ⟨item, -, hf⟩ := List.mem_flatMap.mp hf
    exact s.code_ne_of_mem_reports options.scriptClassName d.path item f
      (List.mem_append_left _ hf)
  have hreferences : (References.ofDocuments source documents).findings.filter (·.isRejection) =
      [] := by
    refine filter_isRejection_eq_nil fun f hf => ?_
    rw [References.findings_ofDocuments] at hf
    obtain ⟨d, -, hf⟩ := List.mem_flatMap.mp hf
    obtain ⟨r, -, rfl⟩ := List.mem_map.mp hf
    show "FS0006" ≠ "FS0111"
    decide
  have htypes : (TypeTable.ofDocuments (identityOf options sources) documents).findings.filter
      (·.isRejection) = [] := by
    refine filter_isRejection_eq_nil fun f hf => ?_
    rw [TypeTable.code_of_mem_findings _ _ f hf]
    decide
  have hall : (create options sources source).findings =
      documents.flatMap Document.findings ++ (References.ofDocuments source documents).findings ++
        (TypeTable.ofDocuments (identityOf options sources) documents).findings ++
        documents.flatMap (fun d => d.script.items.flatMap (s.baseFindings d.path)) ++
        (ClassTable.ofDocuments s options.scriptClassName documents).findings := rfl
  rw [hall, List.filter_append, List.filter_append, List.filter_append, List.filter_append,
    hdocuments, hreferences, htypes, hbases, hjudges.reports, hmembersOf]
  rfl

/-- The members of the class are those that the verdicts take. -/
theorem members_create (options : CompilationOptions) (sources : List SourceText)
    (source : ReferenceSource) :
    (create options sources source).scriptClass.members =
      takenOf (verdicts options sources source) := by
  have hmembers := (ClassTable.judges_ofDocuments (scopeFor options sources source)
    options.scriptClassName (sources.map Document.read)).members
  rw [membersOf_entriesOf] at hmembers
  exact hmembers

/-- A verdict is on a declared member. -/
theorem member_mem_declared {options : CompilationOptions} {sources : List SourceText}
    {source : ReferenceSource} {v : Judged} (hv : v ∈ verdicts options sources source) :
    v.member ∈ declaredMembers (scopeFor options sources source) options.scriptClassName
      (sources.map Document.read) := by
  have hmem := List.mem_map_of_mem (f := Judged.member) hv
  rwa [verdicts, map_member_judge] at hmem

theorem decides_create (options : CompilationOptions) (sources : List SourceText)
    (source : ReferenceSource) :
    (create options sources source).Decides (verdicts options sources source) := by
  have hreports := rejections_create options sources source
  refine ⟨?_, members_create options sources source, hreports, ?_, fun before v after h => ?_⟩
  · have hmap := congrArg (List.map fun m : Member => (m.name, m.location))
      (map_member_judge [] (declaredMembers (scopeFor options sources source)
        options.scriptClassName (sources.map Document.read)))
    rw [List.map_map, names_declaredMembers] at hmap
    exact hmap
  · rw [hreports, List.map_map]
    exact List.map_congr_left fun m _ => m.location_rejection options.scriptClassName
  · have hiff := taken_iff_of_judge h
    rw [List.nil_append] at hiff
    rw [← Bool.not_eq_true, hiff]
    simp only [not_forall, Bool.not_eq_false, exists_prop, Member.clashesWith_iff]

/-- Of the members of the class none clashes with one before it, and none is taken for one. -/
theorem pairwise_members (options : CompilationOptions) (sources : List SourceText)
    (source : ReferenceSource) :
    (create options sources source).scriptClass.members.Pairwise
      (fun k m => ¬ m.Clashes k ∧ ¬ m.MixedUp k) := by
  rw [members_create]
  refine (pairwise_taken [] _ List.Pairwise.nil).imp fun {k m} hclash => ?_
  rw [← not_or, ← Member.clashesWith_iff, hclash]
  exact Bool.false_ne_true

/-- No two methods of the class share their shape. -/
theorem pairwise_shapes (options : CompilationOptions) (sources : List SourceText)
    (source : ReferenceSource) :
    (create options sources source).scriptClass.methods.Pairwise (fun m k => m.shape ≠ k.shape) := by
  refine (pairwise_members options sources source).filterMap _ fun k m hclash k' hk m' hm hshape => ?_
  obtain rfl := Member.eq_method_of_method? hk
  obtain rfl := Member.eq_method_of_method? hm
  exact hclash.1 hshape.symm

/-- What is no method shares its name with no other member of the class. -/
theorem pairwise_names (options : CompilationOptions) (sources : List SourceText)
    (source : ReferenceSource) :
    (create options sources source).scriptClass.members.Pairwise
      (fun m k => m.name = k.name → m.isMethod ∧ k.isMethod) := by
  refine (pairwise_members options sources source).imp fun {k m} hclash hname => ?_
  cases k with
  | method k =>
    cases m with
    | method m => exact ⟨rfl, rfl⟩
    | field f => exact absurd hname.symm hclash.1
    | property p => exact absurd hname.symm hclash.1
  | field f => exact absurd hname.symm (by cases m <;> exact hclash.1)
  | property p => exact absurd hname.symm (by cases m <;> exact hclash.1)

end Compilation

end ScriptHost
