/-
# What the table of the script class holds

The entries of all documents go into the table one after the other. The table rejects a member by
the names and keys it keeps; as these are in step with its members, it rejects exactly those that
clash with one of them. So which entries are kept depends on the members kept before
(`keptBehind`), and with the entries kept, the members and the bodies are told by one pass over
them that counts the members (`bodiesFrom`). If no error was reported, all entries were kept.

Key definitions: `Member.clashesWith`, `keptBehind`, `membersOf`, `bodiesFrom`,
`ClassTable.Enters`, `entriesOf`.
Key theorems: `MemberTable.rejects_eq_any`, `ClassTable.Enters.foldl`,
`ClassTable.enters_ofDocuments`, `sound_entriesOf`.
-/
import ScriptHost.Binding.Compilation

namespace ScriptHost

/-! ### Which members fit in -/

/-- Whether two members cannot stand in one class. -/
def Member.clashesWith : Member → Member → Bool
  | method m, method k => m.overloadKey == k.overloadKey
  | a, b => a.name == b.name

/-- Unless both are methods, members clash exactly if they share their name. -/
theorem Member.clashesWith_eq {m k : Member} (h : ¬ (m.isMethod ∧ k.isMethod)) :
    m.clashesWith k = (m.name == k.name) := by
  unfold clashesWith
  split
  · exact absurd ⟨rfl, rfl⟩ h
  · rfl

theorem Member.exists_eq_method {m : Member} (h : m.isMethod = true) : ∃ k, m = .method k := by
  cases m with
  | method k => exact ⟨k, rfl⟩
  | field f => exact absurd h Bool.false_ne_true
  | property p => exact absurd h Bool.false_ne_true

namespace MemberTable

/-- Of the fields and properties those clash with a member that have its name. -/
theorem name_mem_dataNames_iff (t : MemberTable) (m : Member) :
    m.name ∈ t.dataNames ↔ ∃ k ∈ t.members, k.isMethod = false ∧ m.clashesWith k = true := by
  rw [t.mem_dataNames]
  refine exists_congr fun k => and_congr_right fun _ => and_congr_right fun hk => ?_
  rw [Member.clashesWith_eq (fun h => absurd (hk.symm.trans h.2) Bool.false_ne_true), beq_iff_eq,
    eq_comm]

/-- A method is rejected for its name by fields and properties, and for its key by methods. -/
theorem rejects_method_iff (t : MemberTable) (m : MethodSymbol) :
    t.rejects (.method m) = true ↔ ∃ k ∈ t.members, (Member.method m).clashesWith k = true := by
  have hkeys : m.overloadKey ∈ t.methodKeys ↔
      ∃ k ∈ t.members, k.isMethod = true ∧ (Member.method m).clashesWith k = true := by
    rw [t.mem_methodKeys]
    constructor
    · rintro ⟨k, hk, hkey⟩
      exact ⟨.method k, hk, rfl, beq_iff_eq.mpr hkey.symm⟩
    · rintro ⟨k, hk, hmethod, hclash⟩
      obtain ⟨k, rfl⟩ := Member.exists_eq_method hmethod
      exact ⟨k, hk, (beq_iff_eq.mp hclash).symm⟩
  have hdata := t.name_mem_dataNames_iff (.method m)
  rw [rejects, Bool.or_eq_true, List.contains_iff_mem, List.contains_iff_mem, hkeys]
  refine (or_congr_left hdata).trans ?_
  rw [← exists_or]
  refine exists_congr fun k => ?_
  cases k.isMethod <;> simp

/-- A field or a property is rejected for its name, by any member. -/
theorem rejects_data_iff (t : MemberTable) {d : Member} (h : d.isMethod = false) :
    t.rejects d = true ↔ ∃ k ∈ t.members, d.clashesWith k = true := by
  have hmethods : d.name ∈ t.methodNames ↔
      ∃ k ∈ t.members, k.isMethod = true ∧ d.clashesWith k = true := by
    rw [t.mem_methodNames]
    constructor
    · rintro ⟨k, hk, hname⟩
      refine ⟨.method k, hk, rfl, ?_⟩
      rw [Member.clashesWith_eq (fun hboth => absurd (h.symm.trans hboth.1) Bool.false_ne_true)]
      exact beq_iff_eq.mpr hname.symm
    · rintro ⟨k, hk, hmethod, hclash⟩
      obtain ⟨k, rfl⟩ := Member.exists_eq_method hmethod
      rw [Member.clashesWith_eq (fun hboth => absurd (h.symm.trans hboth.1) Bool.false_ne_true)]
        at hclash
      exact ⟨k, hk, (beq_iff_eq.mp hclash).symm⟩
  have hrejects : t.rejects d = (t.dataNames.contains d.name || t.methodNames.contains d.name) := by
    cases d with
    | method m => exact absurd h.symm Bool.false_ne_true
    | field f => rfl
    | property p => rfl
  rw [hrejects, Bool.or_eq_true, List.contains_iff_mem, List.contains_iff_mem,
    t.name_mem_dataNames_iff, hmethods, ← exists_or]
  refine exists_congr fun k => ?_
  cases k.isMethod <;> simp

/-- **The table rejects exactly the members that clash with one of its own**: its names and keys
are in step with them. -/
theorem rejects_eq_any (t : MemberTable) (m : Member) :
    t.rejects m = t.members.any m.clashesWith := by
  rw [Bool.eq_iff_iff, List.any_eq_true]
  cases m with
  | method m => exact t.rejects_method_iff m
  | field f => exact t.rejects_data_iff rfl
  | property p => exact t.rejects_data_iff rfl

@[simp] theorem members_add (t : MemberTable) (m : Member) :
    (t.add m).members = t.members ++ [m] := by
  cases m <;> rfl

end MemberTable

/-! ### Which entries are kept -/

/-- The member that an entry is. -/
def Entry.member? : Entry → Option Member
  | .member m _ => some m
  | .statement _ => none

/-- The entries, each with the number of its document, that are kept behind the members `ms`:
a member has to clash with none that was kept before. -/
def keptBehind : List Member → List (Nat × Entry) → List (Nat × Entry)
  | _, [] => []
  | ms, (n, .statement body) :: es => (n, .statement body) :: keptBehind ms es
  | ms, (n, .member m body?) :: es =>
    if ms.any m.clashesWith then keptBehind ms es
    else (n, .member m body?) :: keptBehind (ms ++ [m]) es

/-- The members among entries. -/
def membersOf (es : List (Nat × Entry)) : List Member := es.filterMap (·.2.member?)

/-- The bodies of entries, where the first member has the number `i`. -/
def bodiesFrom : Nat → List (Nat × Entry) → List BoundBody
  | _, [] => []
  | i, (n, .statement body) :: es => ⟨none, n, body⟩ :: bodiesFrom i es
  | i, (n, .member _ body?) :: es =>
    (body?.map (⟨some i, n, ·⟩)).toList ++ bodiesFrom (i + 1) es

/-! ### Entries in a row -/

section
variable (i n : Nat) (m : Member) (body : Body) (body? : Option Body) (es : List (Nat × Entry))

@[simp] theorem membersOf_statement : membersOf ((n, .statement body) :: es) = membersOf es := rfl

@[simp] theorem membersOf_member :
    membersOf ((n, .member m body?) :: es) = m :: membersOf es := rfl

theorem bodiesFrom_statement :
    bodiesFrom i ((n, .statement body) :: es) = ⟨none, n, body⟩ :: bodiesFrom i es := rfl

theorem bodiesFrom_data : bodiesFrom i ((n, .member m none) :: es) = bodiesFrom (i + 1) es := rfl

theorem bodiesFrom_method :
    bodiesFrom i ((n, .member m (some body)) :: es) = ⟨some i, n, body⟩ :: bodiesFrom (i + 1) es :=
  rfl

end

theorem membersOf_append (a b : List (Nat × Entry)) :
    membersOf (a ++ b) = membersOf a ++ membersOf b := List.filterMap_append

theorem bodiesFrom_append : ∀ (i : Nat) (a b : List (Nat × Entry)),
    bodiesFrom i (a ++ b) = bodiesFrom i a ++ bodiesFrom (i + (membersOf a).length) b
  | i, [], b => rfl
  | i, (n, .statement body) :: a, b => by
    simp only [List.cons_append, bodiesFrom, bodiesFrom_append i a b, membersOf_statement]
  | i, (n, .member m body?) :: a, b => by
    have hlen : i + (membersOf ((n, .member m body?) :: a)).length =
        i + 1 + (membersOf a).length := by
      rw [membersOf_member, List.length_cons]
      omega
    rw [hlen]
    simp only [List.cons_append, bodiesFrom, bodiesFrom_append (i + 1) a b, List.append_assoc]

theorem keptBehind_append : ∀ (ms : List Member) (a b : List (Nat × Entry)),
    keptBehind ms (a ++ b) =
      keptBehind ms a ++ keptBehind (ms ++ membersOf (keptBehind ms a)) b
  | ms, [], b => by simp [keptBehind, membersOf]
  | ms, (n, .statement body) :: a, b => by
    simp only [List.cons_append, keptBehind, keptBehind_append ms a b, membersOf_statement]
  | ms, (n, .member m body?) :: a, b => by
    simp only [List.cons_append, keptBehind]
    by_cases h : ms.any m.clashesWith
    · rw [if_pos h, if_pos h]
      exact keptBehind_append ms a b
    · rw [if_neg h, if_neg h, keptBehind_append (ms ++ [m]) a b]
      simp only [List.cons_append, membersOf_member, List.append_assoc, List.nil_append]

namespace ClassTable

/-- The table `t'` is `t` with what is kept of the entries. Where it holds no error, all of
them were kept. -/
structure Enters (t : ClassTable) (es : List (Nat × Entry)) (t' : ClassTable) : Prop where
  members : t'.members = t.members ++ membersOf (keptBehind t.members es)
  bodies : t'.bodies = t.bodies ++ bodiesFrom t.members.length (keptBehind t.members es)
  clean : hasErrors t'.findings = false →
    hasErrors t.findings = false ∧ keptBehind t.members es = es

variable {t t' t'' : ClassTable} {a b es : List (Nat × Entry)}

/-- Nothing is entered. -/
theorem Enters.none (hm : t'.members = t.members) (hb : t'.bodies = t.bodies)
    (hf : hasErrors t'.findings = false → hasErrors t.findings = false) : Enters t [] t' where
  members := by simp [hm, keptBehind, membersOf]
  bodies := by simp [hb, keptBehind, bodiesFrom]
  clean h := ⟨hf h, rfl⟩

/-- **Entries behind others.** -/
theorem Enters.append (h : Enters t a t') (h' : Enters t' b t'') : Enters t (a ++ b) t'' where
  members := by
    rw [h'.members, h.members, keptBehind_append, membersOf_append, List.append_assoc]
  bodies := by
    have hlen : t'.members.length = t.members.length + (membersOf (keptBehind t.members a)).length := by
      rw [h.members, List.length_append]
    rw [h'.bodies, h.bodies, hlen, h.members, keptBehind_append, bodiesFrom_append,
      List.append_assoc]
  clean hc := by
    obtain ⟨hc', hb⟩ := h'.clean hc
    obtain ⟨hc, ha⟩ := h.clean hc'
    rw [h.members] at hb
    exact ⟨hc, by rw [keptBehind_append, ha]; rw [ha] at hb; rw [hb]⟩

@[simp] theorem members_table (t : ClassTable) : t.table.members = t.members := rfl

@[simp] theorem members_mk (table : MemberTable) (bodies : List BoundBody)
    (findings : List Diagnostic) : members ⟨table, bodies, findings⟩ = table.members := rfl

theorem enter_statement (className : String) (document : Nat) (t : ClassTable) (body : Body) :
    t.enter className document (.statement body) =
      { t with bodies := t.bodies ++ [⟨none, document, body⟩] } := rfl

/-- A member that clashes with one of the table is reported, any other is added. -/
theorem enter_member (className : String) (document : Nat) (t : ClassTable) (m : Member)
    (body? : Option Body) :
    t.enter className document (.member m body?) =
      if t.members.any m.clashesWith then
        { t with findings := t.findings ++ [m.rejection className] }
      else
        ⟨t.table.add m, t.bodies ++ (body?.map (⟨some t.members.length, document, ·⟩)).toList,
          t.findings⟩ := by
  rw [enter, t.table.rejects_eq_any]
  rfl

/-- One entry. -/
theorem enters_enter (className : String) (document : Nat) (t : ClassTable) :
    ∀ e : Entry, Enters t [(document, e)] (t.enter className document e)
  | .statement body => by
    refine ⟨?_, ?_, fun h => ⟨h, rfl⟩⟩
    · simp [enter_statement, keptBehind, membersOf, Entry.member?]
    · simp [enter_statement, keptBehind, bodiesFrom]
  | .member m body? => by
    rw [enter_member]
    by_cases h : t.members.any m.clashesWith
    · rw [if_pos h]
      refine ⟨?_, ?_, fun hc => ?_⟩
      · simp [keptBehind, h, membersOf]
      · simp [keptBehind, h, bodiesFrom]
      · -- the rejection is an error
        rw [hasErrors_append] at hc
        simp [hasErrors, Member.rejection, Diagnostic.error, Diagnostic.isError] at hc
    · rw [if_neg h]
      refine ⟨?_, ?_, fun hc => ⟨hc, by simp [keptBehind, h]⟩⟩
      · simp [keptBehind, h, membersOf, Entry.member?]
      · simp [keptBehind, h, bodiesFrom]

/-- **A fold enters what its steps enter**, by induction on what is folded. -/
theorem Enters.foldl {β : Type} {f : ClassTable → β → ClassTable} {g : β → List (Nat × Entry)}
    (h : ∀ t x, Enters t (g x) (f t x)) : ∀ (xs : List β) (t : ClassTable),
      Enters t (xs.flatMap g) (xs.foldl f t)
  | [], t => .none rfl rfl id
  | x :: xs, t => by
    rw [List.flatMap_cons, List.foldl_cons]
    exact (h t x).append (Enters.foldl h xs (f t x))

theorem enters_enterItem (s : Scope) (className path : String) (document : Nat) (t : ClassTable)
    (item : Item) :
    Enters t ((s.entries className path item).1.map (document, ·))
      (t.enterItem s className path document item) := by
  have hreports : Enters t [] { t with findings := t.findings ++ (s.entries className path item).2 } :=
    .none rfl rfl fun h => by
      rw [hasErrors_append, Bool.or_eq_false_iff] at h
      exact h.1
  have hentries := Enters.foldl (enters_enter className document) (s.entries className path item).1
    { t with findings := t.findings ++ (s.entries className path item).2 }
  have hflat : (s.entries className path item).1.flatMap (fun e => [(document, e)]) =
      (s.entries className path item).1.map (document, ·) := List.map_eq_flatMap.symm
  rw [hflat] at hentries
  exact hreports.append hentries

end ClassTable

/-- The scope that the types of the sources are resolved in. -/
def Compilation.scopeFor (options : CompilationOptions) (sources : List SourceText)
    (source : ReferenceSource) : Scope :=
  scopeOf (identityOf options sources) source (sources.map Document.read)

/-- The entries of documents, in order, each with the number of its document. -/
def entriesOf (s : Scope) (className : String) (documents : List Document) : List (Nat × Entry) :=
  documents.zipIdx.flatMap fun (d, document) =>
    d.script.items.flatMap fun item => (s.entries className d.path item).1.map (document, ·)

/-- **The table of documents holds what is kept of their entries.** -/
theorem ClassTable.enters_ofDocuments (s : Scope) (className : String) (documents : List Document) :
    Enters .empty (entriesOf s className documents) (ofDocuments s className documents) :=
  Enters.foldl (fun t (d, document) =>
    Enters.foldl (enters_enterItem s className d.path document) d.script.items t) _ _

/-! ### Entries of items -/

/-- A method has a body, a field or a property none. -/
def Entry.Sound : Entry → Prop
  | .member (.method _) body? => body?.isSome
  | .member _ body? => body? = none
  | .statement _ => True

/-- A member with a body is a method. -/
theorem Entry.Sound.exists_method {m : Member} {body : Body}
    (h : Entry.Sound (.member m (some body))) : ∃ method, m = .method method := by
  cases m with
  | method m => exact ⟨m, rfl⟩
  | field f => cases h
  | property p => cases h

/-- A member without a body is no method. -/
theorem Entry.Sound.not_method {method : MethodSymbol} :
    ¬ Entry.Sound (.member (.method method) none) := fun h => by cases h

theorem sound_entries (s : Scope) (className path : String) (item : Item) :
    ∀ e ∈ (s.entries className path item).1, e.Sound := by
  intro e he
  cases item with
  | method d =>
    obtain rfl := List.mem_singleton.mp he
    exact rfl
  | field d =>
    obtain ⟨name, -, rfl⟩ := List.mem_map.mp he
    exact rfl
  | property d =>
    obtain rfl := List.mem_singleton.mp he
    exact rfl
  | statement body =>
    obtain rfl := List.mem_singleton.mp he
    trivial
  | _ => cases he

theorem sound_entriesOf (s : Scope) (className : String) (documents : List Document) :
    ∀ e ∈ entriesOf s className documents, e.2.Sound := by
  rintro ⟨n, e⟩ he
  obtain ⟨⟨d, document⟩, -, he⟩ := List.mem_flatMap.mp he
  obtain ⟨item, -, he⟩ := List.mem_flatMap.mp he
  obtain ⟨e', he', h⟩ := List.mem_map.mp he
  obtain ⟨-, rfl⟩ := Prod.mk.inj h
  exact sound_entries s className d.path item e' he'

end ScriptHost
