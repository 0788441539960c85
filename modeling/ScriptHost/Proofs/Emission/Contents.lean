/-
# What an emitted image says

An image that was written without disturbance is read back as the image of the compilation,
and this image describes the sources: its members are those of the script class, every body
has one number, and at the number of a method stands the text of that method's body, cut from
the document that declares it. Three counts have to go along for this: of the members, of the
bodies and of the documents.

Key definitions: `ofHex`, `Compilation.declared`, `Image.HasText`, `Image.Describes`.
Key theorems: `entriesOf_filterMap`, `Compilation.image_describes`,
`Compilation.emit_describes`.
-/
import Mathlib.Algebra.Group.Nat.Defs
import ScriptHost.Proofs.Emission.Cut
import ScriptHost.Proofs.Emission.Numbering
import ScriptHost.Proofs.Image.RoundTrip
import ScriptHost.Proofs.Reading.Ranges

namespace ScriptHost

open Source

/-! ### Hexadecimal numbers -/

/-- The value of a hexadecimal digit. -/
def hexValue (c : Char) : Nat := if c.toNat < 58 then c.toNat - 48 else c.toNat - 87

/-- The number that hexadecimal digits stand for, the highest first. -/
def ofHex (cs : List Char) : Nat := cs.foldl (fun n c => 16 * n + hexValue c) 0

theorem hexValue_hexDigit : ∀ n < 16, hexValue (hexDigit n) = n := by decide

theorem ofHex_hexDigits : ∀ width n : Nat, ofHex (hexDigits width n) = n % 16 ^ width
  | 0, n => by simp [hexDigits, ofHex, Nat.mod_one]
  | width + 1, n => by
    have ih := ofHex_hexDigits width (n / 16)
    have hdigit := hexValue_hexDigit (n % 16) (Nat.mod_lt n (by decide))
    unfold ofHex at ih ⊢
    rw [hexDigits, List.foldl_append, ih, List.foldl_cons, List.foldl_nil, hdigit, Nat.pow_succ',
      Nat.mod_mul]
    omega

theorem ofHex_hex64 (n : UInt64) : ofHex (hex64 n).toList = n.toNat := by
  have hlt : n.toNat < 16 ^ 16 := n.toNat_lt
  rw [hex64, String.toList_ofList, ofHex_hexDigits, Nat.mod_eq_of_lt hlt]

/-! ### What documents declare -/

def Item.method? : Item → Option MethodDecl
  | method d => some d
  | _ => none

def Item.statement? : Item → Option Body
  | statement body => some body
  | _ => none

/-- What is picked of the items of all documents, in order, each with its document. -/
def Compilation.declared {α : Type} (pick : Item → Option α) (c : Compilation) :
    List (Document × α) :=
  c.documents.flatMap fun d => (d.script.items.filterMap pick).map (d, ·)

/-- What is picked of the items of all documents, with the numbers of the documents. -/
def numbered {α : Type} (pick : Item → Option α) (documents : List Document) :
    List ((Document × Nat) × α) :=
  documents.zipIdx.flatMap fun p => (p.1.script.items.filterMap pick).map (p, ·)

variable {α β : Type} {pick : Item → Option α} {documents : List Document}

theorem declared_eq (pick : Item → Option α) (c : Compilation) :
    c.declared pick = (numbered pick c.documents).map fun q => (q.1.1, q.2) := by
  have hdocs : c.documents = c.documents.zipIdx.map Prod.fst := (List.zipIdx_map_fst 0 _).symm
  unfold Compilation.declared numbered
  conv => lhs; rw [hdocs]
  rw [List.flatMap_map, List.map_flatMap]
  simp only [List.map_map, Function.comp_def]

theorem of_mem_numbered {q : (Document × Nat) × α} (h : q ∈ numbered pick documents) :
    documents[q.1.2]? = some q.1.1 ∧ ∃ item ∈ q.1.1.script.items, pick item = some q.2 := by
  obtain ⟨p, hp, hq⟩ := List.mem_flatMap.mp h
  obtain ⟨a, ha, rfl⟩ := List.mem_map.mp hq
  exact ⟨List.mem_zipIdx_iff_getElem?.mp hp, List.mem_filterMap.mp ha⟩

/-- **What is picked of the entries is what is picked of the items**, if this holds for the
entries of every single item. -/
theorem entriesOf_filterMap {s : Scope} {className : String} {pickEntry : Nat × Entry → Option β}
    {h : (Document × Nat) → α → β}
    (heach : ∀ (p : Document × Nat) (item : Item),
      ((s.entries className p.1.path item).1.map (p.2, ·)).filterMap pickEntry =
        ((pick item).map (h p)).toList) (documents : List Document) :
    (entriesOf s className documents).filterMap pickEntry =
      (numbered pick documents).map fun q => h q.1 q.2 := by
  have hitems (p : Document × Nat) : ∀ items : List Item,
      (items.flatMap fun item => (s.entries className p.1.path item).1.map (p.2, ·)).filterMap
          pickEntry = (items.filterMap pick).map (h p) := by
    intro items
    induction items with
    | nil => rfl
    | cons item items ih =>
      rw [List.flatMap_cons, List.filterMap_append, heach, ih, List.filterMap_cons]
      cases pick item <;> rfl
  unfold entriesOf numbered
  rw [List.filterMap_flatMap, List.map_flatMap]
  simp only [hitems, List.map_map, Function.comp_def]

/-- Nothing is picked of a field, if nothing is picked of members without a body. -/
theorem filterMap_entries_field {pickEntry : Nat × Entry → Option β}
    (hdata : ∀ n m, pickEntry (n, .member (.field m) none) = none) (s : Scope) (className : String)
    (p : Document × Nat) (d : FieldDecl) :
    ((s.entries className p.1.path (.field d)).1.map (p.2, ·)).filterMap pickEntry = [] := by
  apply List.filterMap_eq_nil_iff.mpr
  intro e he
  obtain ⟨entry, hentry, rfl⟩ := List.mem_map.mp he
  obtain ⟨name, -, rfl⟩ := List.mem_map.mp hentry
  exact hdata _ _

theorem methodsOf_entriesOf (s : Scope) (className : String) (documents : List Document) :
    methodsOf (entriesOf s className documents) =
      (numbered Item.method? documents).map fun q =>
        (q.1.2, (s.method className q.1.1.path q.2).1, q.2.body) := by
  refine entriesOf_filterMap (h := fun p d => (p.2, (s.method className p.1.path d).1, d.body))
    (fun p item => ?_) documents
  cases item with
  | field d => exact filterMap_entries_field (fun _ _ => rfl) s className p d
  | _ => rfl

theorem statementsOf_entriesOf (s : Scope) (className : String) (documents : List Document) :
    statementsOf (entriesOf s className documents) =
      (numbered Item.statement? documents).map fun q => (q.1.2, q.2) := by
  refine entriesOf_filterMap (h := fun p body => (p.2, body)) (fun p item => ?_) documents
  cases item with
  | field d => exact filterMap_entries_field (fun _ _ => rfl) s className p d
  | _ => rfl

/-- A relation to what is picked carries over to what is picked otherwise. -/
theorem forall₂_map_of_mem {γ δ : Type} {R : α → β → Prop} {S : α → γ → Prop} {f : δ → β}
    {g : δ → γ} : ∀ {xs : List α} {ys : List δ}, List.Forall₂ R xs (ys.map f) →
      (∀ y ∈ ys, ∀ x, R x (f y) → S x (g y)) → List.Forall₂ S xs (ys.map g)
  | [], [], _, _ => .nil
  | x :: _, y :: ys, .cons hr h, hrs =>
    .cons (hrs y List.mem_cons_self x hr)
      (forall₂_map_of_mem h fun y hy => hrs y (List.mem_cons_of_mem _ hy))

/-! ### What an image says -/

/-- Number `k` of the bodies is the text that the range is in the document. -/
def Image.HasText (i : Image) (k : Nat) (d : Document) (b : Body) : Prop :=
  ∃ text, sliceBytes b.start b.stop d.text.toList = some text ∧ b.kind.Frames text ∧
    i.bodies[k]? = some (String.ofList text)

/-- The image describes the compilation, the types of which were resolved in the scope. -/
structure Image.Describes (i : Image) (s : Scope) (c : Compilation) : Prop where
  mvid : i.header.mvid = c.assembly.mvid
  mvidText : ofHex i.manifest.mvid.toList = i.header.mvid.toNat
  /-- But for the numbers of bodies, the members are those of the script class. -/
  members : i.manifest.members.map (fun x => { x with body? := none }) =
    c.scriptClass.members.map (.ofMember none)
  hasBody : ∀ x ∈ i.manifest.members, x.body?.isSome ↔ x.kind = .method
  /-- Every number of a body occurs once. -/
  numbers : (i.manifest.members.filterMap (·.body?) ++ i.manifest.statements).Perm
    (List.range i.bodies.length)
  increasing : i.manifest.statements.Pairwise (· < ·)
  /-- The methods are the declared ones in order, and each has the body it was declared with. -/
  methods : List.Forall₂ (fun x q => ∃ k,
      x = .ofMember (some k) (.method (s.method c.scriptClass.name q.1.path q.2).1) ∧
        q.2.body.kind ≠ .statement ∧ i.HasText k q.1 q.2.body)
    (i.manifest.members.filter (·.kind = .method)) (c.declared Item.method?)
  statements : List.Forall₂ (fun k q => i.HasText k q.1 q.2) i.manifest.statements
    (c.declared Item.statement?)
  hasStatements : i.header.flags.statements ↔ i.manifest.statements ≠ []
  noPublicEntry : i.header.flags.noPublicEntry ↔
    ∀ x ∈ i.manifest.members, x.kind = .method → x.isPublic = false

theorem Image.Describes.numbersFit {i : Image} {s : Scope} {c : Compilation} (h : i.Describes s c)
    (hcount : i.bodies.length < wordBound) : i.manifest.NumbersFit := by
  have hlt : ∀ n ∈ i.manifest.members.filterMap (·.body?) ++ i.manifest.statements,
      n < bodyNumberBound := by
    intro n hn
    have hrange := List.mem_range.mp (h.numbers.mem_iff.mp hn)
    have hbound : wordBound ≤ bodyNumberBound := by decide
    exact Nat.lt_trans hrange (Nat.lt_of_lt_of_le hcount hbound)
  refine ⟨fun x hx n hn => hlt n ?_, fun n hn => hlt n (List.mem_append_right _ hn)⟩
  exact List.mem_append_left _ (List.mem_filterMap.mpr ⟨x, hx, hn⟩)

theorem statements_ofBools (a b c : Bool) : (ImageFlags.ofBools a b c).statements = b := by
  cases a <;> cases b <;> cases c <;> rfl

theorem noPublicEntry_ofBools (a b c : Bool) : (ImageFlags.ofBools a b c).noPublicEntry = c := by
  cases a <;> cases b <;> cases c <;> rfl

theorem known_ofBools (a b c : Bool) : (ImageFlags.ofBools a b c).bits &&& 7 =
    (ImageFlags.ofBools a b c).bits := by
  cases a <;> cases b <;> cases c <;> rfl

namespace Compilation

variable {c : Compilation} {es : List (Nat × Entry)} {ws : Bool} {options : CompilationOptions}
  {sources : List SourceText} {source : ReferenceSource}

/-- The table of a compilation holds the entries, all of them. -/
structure Holds (c : Compilation) (es : List (Nat × Entry)) : Prop where
  members : c.scriptClass.members = membersOf es
  bodies : c.bodies = bodiesFrom 0 es
  sound : ∀ e ∈ es, e.2.Sound

/-- **A compilation without errors holds all entries of its documents.** -/
theorem holds_create (hclean : hasErrors (create options sources source).findings = false) :
    (create options sources source).Holds (entriesOf (scopeFor options sources source)
      options.scriptClassName (sources.map Document.read)) := by
  have henters := ClassTable.enters_ofDocuments (scopeFor options sources source)
    options.scriptClassName (sources.map Document.read)
  have htable : hasErrors (ClassTable.ofDocuments (scopeFor options sources source)
      options.scriptClassName (sources.map Document.read)).findings = false := by
    simp only [create, hasErrors_append, Bool.or_eq_false_iff] at hclean
    exact hclean.2
  have hkept := (henters.clean htable).2
  have hmembers := henters.members
  have hbodies := henters.bodies
  rw [hkept] at hmembers hbodies
  exact ⟨hmembers, hbodies, sound_entriesOf _ _ _⟩

theorem manifest_members_of_holds (h : c.Holds es) : c.manifest.members = manifestFrom 0 es := by
  have hbelow : MembersBelow 0 [] := fun b hb => absurd hb List.not_mem_nil
  have heq := manifestFrom_eq h.sound hbelow
  rw [← h.members, List.nil_append, ← h.bodies] at heq
  exact heq

theorem manifest_statements_of_holds (h : c.Holds es) :
    c.manifest.statements = statementsFrom 0 es := by
  have heq := statementsFrom_eq 0 0 es
  rw [← h.bodies] at heq
  exact heq

theorem manifest_mvid (c : Compilation) : ofHex c.manifest.mvid.toList = c.assembly.mvid.toNat :=
  ofHex_hex64 _

theorem withoutBody_ofMember (body? : Option Nat) (m : Member) :
    { ManifestMember.ofMember body? m with body? := none } = ManifestMember.ofMember none m := by
  cases m <;> rfl

/-- The manifest lists the members of the script class. -/
theorem manifest_members_map (c : Compilation) :
    c.manifest.members.map (fun x => { x with body? := none }) =
      c.scriptClass.members.map (.ofMember none) := by
  have hmembers : c.scriptClass.members = c.scriptClass.members.zipIdx.map Prod.fst :=
    (List.zipIdx_map_fst 0 _).symm
  conv => rhs; rw [hmembers]
  simp only [manifest, List.map_map]
  refine List.map_congr_left fun p _ => ?_
  exact withoutBody_ofMember (c.bodyOf? p.2) p.1

theorem statements_flag (c : Compilation) (ws : Bool) :
    (c.header ws).flags.statements ↔ c.manifest.statements ≠ [] := by
  have hflag : (c.header ws).flags.statements = c.bodies.any (·.member?.isNone) :=
    statements_ofBools _ _ _
  have hnil : c.manifest.statements = [] ↔ c.bodies.any (·.member?.isNone) = false := by
    show c.statements = [] ↔ _
    unfold statements
    rw [List.filterMap_eq_nil_iff, List.any_eq_false]
    constructor
    · intro h b hb hnone
      obtain ⟨n, hn⟩ := List.getElem?_of_mem hb
      have hbn := h (b, n) (List.mem_zipIdx_iff_getElem?.mpr hn)
      simp [hnone] at hbn
    · rintro h ⟨b, n⟩ hbn
      have hb : b ∈ c.bodies := List.mem_of_getElem? (List.mem_zipIdx_iff_getElem?.mp hbn)
      simp [h b hb]
  rw [hflag, Ne, hnil, Bool.not_eq_false]

theorem noPublicEntry_flag (c : Compilation) (ws : Bool) :
    (c.header ws).flags.noPublicEntry ↔
      ∀ x ∈ c.manifest.members, x.kind = .method → x.isPublic = false := by
  have hflag : (c.header ws).flags.noPublicEntry = !c.scriptClass.methods.any (·.isPublic) :=
    noPublicEntry_ofBools _ _ _
  rw [hflag, Bool.not_eq_true', List.any_eq_false]
  constructor
  · intro h x hx hk
    obtain ⟨⟨m, j⟩, hm, rfl⟩ := List.mem_map.mp hx
    have hm := List.mem_of_getElem? (List.mem_zipIdx_iff_getElem?.mp hm)
    cases m with
    | method m =>
      have hmethod : m ∈ c.scriptClass.methods := List.mem_filterMap.mpr ⟨_, hm, rfl⟩
      exact Bool.not_eq_true _ ▸ h m hmethod
    | _ => cases hk
  · intro h m hm hpublic
    obtain ⟨member, hmember, hm⟩ := List.mem_filterMap.mp hm
    cases member with
    | method m' =>
      obtain rfl : m' = m := Option.some.inj hm
      obtain ⟨j, hj⟩ := List.getElem?_of_mem hmember
      have hx : ManifestMember.ofMember (c.bodyOf? j) (.method m') ∈ c.manifest.members :=
        List.mem_map.mpr ⟨(.method m', j), List.mem_zipIdx_iff_getElem?.mpr hj, rfl⟩
      have hprivate : m'.isPublic = false := h _ hx rfl
      rw [hprivate] at hpublic
      cases hpublic
    | _ => cases hm

/-- A body that is a piece of its document's text is that text. -/
theorem hasText_image {k n : Nat} {d : Document} {b : Body} {member? : Option Nat}
    {text : List Char} (hk : c.bodies[k]? = some ⟨member?, n, b⟩) (hd : c.documents[n]? = some d)
    (ht : sliceBytes b.start b.stop d.text.toList = some text) (hf : b.kind.Frames text) :
    (c.image ws).HasText k d b := by
  refine ⟨text, ht, hf, ?_⟩
  have hbody : c.bodyText ⟨member?, n, b⟩ = String.ofList text := by
    simp only [bodyText, hd, Option.map_some, Option.getD_some, Body.text, ht]
  simp only [image, List.getElem?_map, hk, Option.map_some, hbody]

/-- The documents of a compilation are the sources that were read. -/
theorem items_of_document {n : Nat} {d : Document}
    (h : (create options sources source).documents[n]? = some d) :
    d.script.items = (Script.parseLenient d.text).1.items := by
  have hread : (sources.map Document.read)[n]? = some d := h
  rw [List.getElem?_map] at hread
  obtain ⟨text, -, rfl⟩ := Option.map_eq_some_iff.mp hread
  simp only [Document.read, Document.text]

/-- The methods of the manifest are the declared ones, with their bodies. -/
theorem methods_image (hclean : hasErrors (create options sources source).findings = false)
    (ws : Bool) :
    List.Forall₂ (fun x q => ∃ k,
        x = .ofMember (some k) (.method ((scopeFor options sources source).method
          options.scriptClassName q.1.path q.2).1) ∧
          q.2.body.kind ≠ .statement ∧
            ((create options sources source).image ws).HasText k q.1 q.2.body)
      ((create options sources source).manifest.members.filter (·.kind = .method))
      ((create options sources source).declared Item.method?) := by
  have hholds := holds_create hclean
  have hmethods := methods_forall₂ [] 0 hholds.sound
  rw [List.length_nil, ← manifest_members_of_holds hholds, List.nil_append, ← hholds.bodies,
    methodsOf_entriesOf] at hmethods
  rw [declared_eq]
  refine forall₂_map_of_mem hmethods ?_
  rintro ⟨⟨d, n⟩, m⟩ hq x ⟨k, j, rfl, hk⟩
  obtain ⟨hd, item, hitem, hpick⟩ := of_mem_numbered hq
  cases item with
  | method m' =>
    obtain rfl : m' = m := Option.some.inj hpick
    rw [items_of_document hd] at hitem
    obtain ⟨hkind, text, ht, hf⟩ := Script.text_of_method hitem
    exact ⟨k, rfl, hkind, hasText_image hk hd ht hf⟩
  | _ => cases hpick

/-- The statements of the manifest are those of the documents, with their texts. -/
theorem statements_image (hclean : hasErrors (create options sources source).findings = false)
    (ws : Bool) :
    List.Forall₂ (fun k q => ((create options sources source).image ws).HasText k q.1 q.2)
      (create options sources source).manifest.statements
      ((create options sources source).declared Item.statement?) := by
  have hholds := holds_create hclean
  have hstatements := statements_forall₂ (entriesOf (scopeFor options sources source)
    options.scriptClassName (sources.map Document.read)) [] 0
  rw [List.length_nil, ← manifest_statements_of_holds hholds, List.nil_append, ← hholds.bodies,
    statementsOf_entriesOf] at hstatements
  rw [declared_eq]
  refine forall₂_map_of_mem hstatements ?_
  rintro ⟨⟨d, n⟩, b⟩ hq k hk
  obtain ⟨hd, item, hitem, hpick⟩ := of_mem_numbered hq
  cases item with
  | statement b' =>
    obtain rfl : b' = b := Option.some.inj hpick
    rw [items_of_document hd] at hitem
    obtain ⟨hkind, text, ht⟩ := Script.text_of_statement hitem
    have hf : b'.kind.Frames text := by
      rw [hkind]
      trivial
    exact hasText_image hk hd ht hf
  | _ => cases hpick

/-- **The image of a compilation without errors describes it.** -/
theorem image_describes (hclean : hasErrors (create options sources source).findings = false)
    (ws : Bool) : ((create options sources source).image ws).Describes
      (scopeFor options sources source) (create options sources source) := by
  have hholds := holds_create hclean
  have hmembers := manifest_members_of_holds hholds
  have hstatements := manifest_statements_of_holds hholds
  refine ⟨rfl, manifest_mvid _, manifest_members_map _, ?_, ?_, ?_, methods_image hclean ws,
    statements_image hclean ws, statements_flag _ _, noPublicEntry_flag _ _⟩
  · show ∀ x ∈ (create options sources source).manifest.members, _
    rw [hmembers]
    exact body?_isSome_manifestFrom 0 hholds.sound
  · have hperm := numbers_perm 0 0 hholds.sound
    rw [← hmembers, ← hstatements, ← hholds.bodies, ← List.range_eq_range'] at hperm
    simpa [image] using hperm
  · show (create options sources source).manifest.statements.Pairwise _
    rw [hstatements]
    exact (statementsFrom_pairwise 0 _).2

/-- **An undisturbed emission leaves an image that is read back and describes the
compilation.** A compilation of any sources without errors, the lengths in whose image fit,
is emitted to fresh sinks that take everything; what they hold is read as an image, nothing
is left over, and the image describes the compilation. -/
theorem emit_describes (options : CompilationOptions) (sources : List SourceText)
    (source : ReferenceSource) {o : Outputs} (hu : o.IsUndisturbed) (hfresh : o.IsFresh)
    (hclean : hasErrors (create options sources source).findings = false)
    (hfits : ((create options sources source).image
      ((create options sources source).writesSymbols o)).Fits) :
    ((create options sources source).emit o).1 =
        .ok ⟨true, (create options sources source).findings⟩ ∧
      ∃ i, Image.read ((create options sources source).emit o).2.image.taken = .ok (i, []) ∧
        i.Describes (scopeFor options sources source) (create options sources source) := by
  have hdescribes := image_describes hclean ((create options sources source).writesSymbols o)
  have hrun := (Outputs.run_undisturbed _ hu).2 (writable_plan hfits)
  have htaken := run_plan_undisturbed hu hfresh.image (Image.bytes?_of_fits hfits)
  have hemit : (create options sources source).emit o =
      (.ok ⟨true, (create options sources source).findings⟩, (o.run ((create options sources
        source).plan ((create options sources source).writesSymbols o))).2) := by
    unfold emit
    rw [if_neg (by simp [hclean])]
    generalize o.run _ = out at hrun
    obtain ⟨outcome, left⟩ := out
    obtain rfl : outcome = .ok () := hrun
    rfl
  rw [hemit]
  refine ⟨rfl, _, ?_, hdescribes⟩
  have hread := (Image.read_delimits rfl (hdescribes.numbersFit hfits.count) hfits).whole []
  rw [List.append_nil, ImageHeader.known_of_flags (known_ofBools _ _ _)] at hread
  rw [htaken]
  exact hread

/-- A field, a method and a statement that calls it. -/
def sampleSources : List SourceText := [⟨"a", "int x;void M(){}M();"⟩]

theorem sampleSources_emit_describes :
    ∃ i, Image.read ((create .standard sampleSources ⟨[], [], fun _ _ => none⟩).emit
        ⟨.unlimited, none, false⟩).2.image.taken = .ok (i, []) ∧
      i.Describes (scopeFor .standard sampleSources ⟨[], [], fun _ _ => none⟩)
        (create .standard sampleSources ⟨[], [], fun _ _ => none⟩) := by
  have hundisturbed : Outputs.IsUndisturbed ⟨.unlimited, none, false⟩ :=
    Outputs.undisturbed_isUndisturbed ⟨.unlimited, none, false⟩
  have ⟨hclean, hfits⟩ :
      hasErrors (create .standard sampleSources ⟨[], [], fun _ _ => none⟩).findings = false ∧
        ((create .standard sampleSources ⟨[], [], fun _ _ => none⟩).image
          ((create .standard sampleSources ⟨[], [], fun _ _ => none⟩).writesSymbols
            ⟨.unlimited, none, false⟩)).Fits := by decide +kernel
  exact (emit_describes .standard sampleSources _ hundisturbed ⟨rfl, rfl⟩ hclean hfits).2

end Compilation

end ScriptHost
