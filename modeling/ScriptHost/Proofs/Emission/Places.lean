/-
# Where the debug symbols point

Debug symbols that are written behind an image list the sources in order, and one place for
each method of the image, in the order of the methods' bodies: the line and the column at which
the very text starts that the image stores for that method. A pass over the entries of the
script class gives the places (`sequencePoints_bodiesFrom`); statements and data are passed
over, and the number of a method's document goes along from the entry to its place.

Key definitions: `SequencePoint.StartsAt`, `DebugSymbols.Locates`.
Key theorems: `Compilation.sequencePoints_bodiesFrom`, `bodies_increasing`,
`Compilation.sequencePoints_declared`, `Compilation.run_plan_through`,
`Compilation.emit_locates`.
-/
import ScriptHost.Proofs.Emission.Contents

namespace ScriptHost

open EmitStep Source

/-! ### Places of entries -/

/-- The places of the methods among entries, in order. -/
def pointsOf (es : List (Nat × Entry)) : List SequencePoint :=
  (methodsOf es).map fun q => ⟨q.2.1.name, q.1, q.2.2.span.line, q.2.2.span.column⟩

/-- **The bodies of entries have the places of the methods among these**, by induction on the
entries behind members that were passed. -/
theorem Compilation.sequencePoints_bodiesFrom (c : Compilation) :
    ∀ (front : List Member) {es : List (Nat × Entry)}, (∀ e ∈ es, e.2.Sound) →
      c.scriptClass.members = front ++ membersOf es →
        (bodiesFrom front.length es).filterMap c.sequencePoint? = pointsOf es
  | front, [], hs, hm => rfl
  | front, (n, .statement body) :: es, hs, hm => by
    obtain ⟨-, hes⟩ := List.forall_mem_cons.mp hs
    have ih := c.sequencePoints_bodiesFrom front hes hm
    have hnone : c.sequencePoint? ⟨none, n, body⟩ = none := rfl
    rw [bodiesFrom_statement, List.filterMap_cons_none hnone, ih]
    rfl
  | front, (n, .member m none) :: es, hs, hm => by
    obtain ⟨hsound, hes⟩ := List.forall_mem_cons.mp hs
    have ih := c.sequencePoints_bodiesFrom (front ++ [m]) hes (by simpa using hm)
    rw [List.length_append] at ih
    cases m with
    | method m => exact absurd hsound Entry.Sound.not_method
    | field f => exact ih
    | property p => exact ih
  | front, (n, .member m (some body)) :: es, hs, hm => by
    obtain ⟨hsound, hes⟩ := List.forall_mem_cons.mp hs
    obtain ⟨method, rfl⟩ := Entry.Sound.exists_method hsound
    have ih := c.sequencePoints_bodiesFrom (front ++ [.method method]) hes (by simpa using hm)
    rw [List.length_append, List.length_singleton] at ih
    have hmember : c.scriptClass.members[front.length]? = some (.method method) := by
      rw [hm, List.getElem?_append_right (Nat.le_refl _), Nat.sub_self]
      rfl
    have hpoint : c.sequencePoint? ⟨some front.length, n, body⟩ =
        some ⟨method.name, n, body.span.line, body.span.column⟩ := by
      simp [sequencePoint?, hmember, Member.method?]
    rw [bodiesFrom_method, List.filterMap_cons_some hpoint, ih]
    rfl

/-- The bodies of the members have growing numbers. -/
theorem bodies_increasing : ∀ (k : Nat) {es : List (Nat × Entry)}, (∀ e ∈ es, e.2.Sound) →
    (∀ n ∈ (manifestFrom k es).filterMap (·.body?), k ≤ n) ∧
      ((manifestFrom k es).filterMap (·.body?)).Pairwise (· < ·)
  | k, [], hs => ⟨fun n hn => absurd hn List.not_mem_nil, .nil⟩
  | k, (_, .statement _) :: es, hs => by
    obtain ⟨hle, hlt⟩ := bodies_increasing (k + 1) (List.forall_mem_cons.mp hs).2
    exact ⟨fun n hn => Nat.le_of_succ_le (hle n hn), hlt⟩
  | k, (_, .member m none) :: es, hs => by
    have hnone : (ManifestMember.ofMember none m).body? = none := by
      cases m <;> rfl
    rw [manifestFrom, List.filterMap_cons_none hnone]
    exact bodies_increasing k (List.forall_mem_cons.mp hs).2
  | k, (_, .member m (some _)) :: es, hs => by
    obtain ⟨hsound, hes⟩ := List.forall_mem_cons.mp hs
    obtain ⟨method, rfl⟩ := Entry.Sound.exists_method hsound
    obtain ⟨hle, hlt⟩ := bodies_increasing (k + 1) hes
    have hsome : (ManifestMember.ofMember (some k) (.method method)).body? = some k := rfl
    rw [manifestFrom, List.filterMap_cons_some hsome]
    refine ⟨fun n hn => ?_, .cons hle hlt⟩
    rcases List.mem_cons.mp hn with rfl | hn
    · exact Nat.le_refl _
    · exact Nat.le_of_succ_le (hle n hn)

/-! ### Places in documents -/

/-- What is related to the same elements is related over them. -/
theorem forall₂_meet {α β γ : Type} {R : α → γ → Prop} {S : β → γ → Prop} :
    ∀ {xs : List α} {ys : List β} {zs : List γ}, List.Forall₂ R xs zs → List.Forall₂ S ys zs →
      List.Forall₂ (fun x y => ∃ z, R x z ∧ S y z) xs ys
  | _, _, _, .nil, .nil => .nil
  | _, _, _, .cons hx hxs, .cons hy hys => .cons ⟨_, hx, hy⟩ (forall₂_meet hxs hys)

/-- The text stands in one of the sources, and the place is where it starts there. -/
def SequencePoint.StartsAt (p : SequencePoint) (sources : List SourceText) (text : List Char) :
    Prop :=
  ∃ s before behind, sources[p.document]? = some s ∧ s.text.toList = before ++ text ++ behind ∧
    byteAt? p.line p.column .start s.text.toList = some (byteLength before)

/-- The debug symbols of the sources of a compilation tell where the bodies of an image start. -/
structure DebugSymbols.Locates (s : DebugSymbols) (sources : List SourceText) (c : Compilation)
    (i : Image) : Prop where
  mvid : s.mvid = i.manifest.mvid
  /-- There is one entry for each source, in order. -/
  documents : s.documents =
    sources.map fun t => ⟨t.path, "xxh64", hex64 (Digest.xxh64 (Utf8.bytes t.text))⟩
  /-- There is one place for each method of the image, in order: it is where the text starts that
  the image stores as the method's body. -/
  points : List.Forall₂ (fun p x => p.method = x.name ∧ ∃ k text, x.body? = some k ∧
      i.bodies[k]? = some (String.ofList text) ∧ p.StartsAt sources text ∧
        (['{'] <+: text ∨ ['=', '>'] <+: text))
    s.sequencePoints (i.manifest.members.filter (·.kind = .method))
  /-- This is also the order of the bodies. -/
  increasing : (i.manifest.members.filterMap (·.body?)).Pairwise (· < ·)
  /-- In the documents the places are those of the declared methods, in order. -/
  declared : List.Forall₂ (fun p q => p.method = q.2.name.name ∧
      c.documents[p.document]? = some q.1 ∧
        byteAt? p.line p.column .start q.1.text.toList = some q.2.body.start)
    s.sequencePoints (c.declared Item.method?)

/-- The text of a method's body starts as one. -/
theorem BodyKind.Frames.opens {kind : BodyKind} {text : List Char} (h : kind.Frames text)
    (hkind : kind ≠ .statement) : ['{'] <+: text ∨ ['=', '>'] <+: text := by
  cases kind with
  | block => exact .inl h.1
  | expression => exact .inr h.1
  | statement => exact absurd rfl hkind

namespace Compilation

variable {options : CompilationOptions} {sources : List SourceText} {source : ReferenceSource}

/-- The documents of a compilation are what was read of its sources. -/
theorem exists_source_of_document {n : Nat} {d : Document}
    (h : (create options sources source).documents[n]? = some d) :
    ∃ s, sources[n]? = some s ∧ d = Document.read s := by
  have hread : (sources.map Document.read)[n]? = some d := h
  rw [List.getElem?_map] at hread
  obtain ⟨s, hs, rfl⟩ := Option.map_eq_some_iff.mp hread
  exact ⟨s, hs, rfl⟩

/-- **The places of a compilation without errors** are those of the declared methods, in order:
each lies in the document that declares the method, where the body starts. -/
theorem sequencePoints_declared
    (hclean : hasErrors (create options sources source).findings = false) :
    List.Forall₂ (fun (p : SequencePoint) q => p.method = q.2.name.name ∧
        (create options sources source).documents[p.document]? = some q.1 ∧
          ∃ before text, q.2.body.Marks q.1.text before text ∧
            byteAt? p.line p.column .start q.1.text.toList = some (byteLength before))
      (create options sources source).debugSymbols.sequencePoints
      ((create options sources source).declared Item.method?) := by
  have hholds := holds_create hclean
  have hpoints : (create options sources source).debugSymbols.sequencePoints =
      (numbered Item.method? (create options sources source).documents).map fun q =>
        ⟨q.2.name.name, q.1.2, q.2.body.span.line, q.2.body.span.column⟩ := by
    have hpass := (create options sources source).sequencePoints_bodiesFrom [] hholds.sound
      hholds.members
    rw [List.length_nil, ← hholds.bodies, pointsOf, methodsOf_entriesOf, List.map_map] at hpass
    exact hpass
  rw [declared_eq, hpoints, List.forall₂_map_left_iff, List.forall₂_map_right_iff, List.forall₂_same]
  rintro ⟨⟨d, n⟩, m⟩ hq
  obtain ⟨hd, item, hitem, hpick⟩ := of_mem_numbered hq
  cases item with
  | method m' =>
    obtain rfl : m' = m := Option.some.inj hpick
    rw [items_of_document hd] at hitem
    obtain ⟨before, text, hmarks⟩ := Script.marks_code hitem rfl
    exact ⟨rfl, hd, before, text, hmarks, hmarks.span.byteAt?_eq⟩
  | _ => cases hpick

/-- **The debug symbols of a compilation without errors locate the bodies of its image.** -/
theorem debugSymbols_locates
    (hclean : hasErrors (create options sources source).findings = false) (ws : Bool) :
    (create options sources source).debugSymbols.Locates sources (create options sources source)
      ((create options sources source).image ws) := by
  have hholds := holds_create hclean
  have hdeclared := sequencePoints_declared hclean
  refine ⟨rfl, ?_, ?_, ?_, hdeclared.imp ?_⟩
  · simp only [debugSymbols, create, List.map_map]
    rfl
  · refine (forall₂_meet hdeclared (methods_image hclean ws)).imp ?_
    rintro p x ⟨q, ⟨hname, hd, before, text, hmarks, hplace⟩, k, rfl, hkind, text', ht, hframes, hk⟩
    obtain rfl : text = text' := Option.some.inj (hmarks.slice.symm.trans ht)
    obtain ⟨s, hs, hread⟩ := exists_source_of_document hd
    obtain ⟨behind, hsource⟩ := hmarks.span.inside
    have htext : q.1.text = s.text := by rw [hread]; rfl
    rw [htext] at hsource hplace
    exact ⟨hname, k, text, rfl, hk, ⟨s, before, behind, hs, hsource.symm, hplace⟩,
      hframes.opens hkind⟩
  · show ((create options sources source).manifest.members.filterMap (·.body?)).Pairwise _
    rw [manifest_members_of_holds hholds]
    exact (bodies_increasing 0 hholds.sound).2
  · rintro p q ⟨hname, hd, before, text, hmarks, hplace⟩
    exact ⟨hname, hd, by rw [hplace, hmarks.start]⟩

end Compilation

/-! ### Emissions that go through -/

theorem Outputs.run_singleton (o : Outputs) (s : EmitStep) : o.run [s] = o.step s := by
  unfold run
  rcases o.step s with ⟨e | _, o'⟩ <;> rfl

/-- A sink that takes debug symbols without a fault takes all of them. -/
theorem Outputs.symbolsTaken_step {o : Outputs} {bs : Bytes} (hsink : o.symbols?.isSome)
    (h : (o.step (.symbols bs)).1 = .ok ()) :
    (o.step (.symbols bs)).2.symbolsTaken = o.symbolsTaken ++ bs := by
  obtain ⟨sink, hs⟩ := Option.isSome_iff_exists.mp hsink
  simp only [step, hs] at h ⊢
  split at h
  next hfits => simp [symbolsTaken, hs, Sink.accepted_of_fits hfits]
  next => cases h

namespace Compilation

variable {c : Compilation} {o : Outputs} {ws : Bool}

/-- **A plan that goes through has written the image, and debug symbols behind it** if they are
part of the plan and there is a sink for them. -/
theorem run_plan_through (h : (o.run (c.plan ws)).1 = .ok ()) :
    ∃ bs, (c.image ws).bytes? = .ok bs ∧ (o.run (c.plan ws)).2.image.taken = o.image.taken ++ bs ∧
      (ws → o.symbols?.isSome →
        (o.run (c.plan ws)).2.symbolsTaken = o.symbolsTaken ++ c.debugSymbols.bytes) := by
  obtain ⟨w, -, htaken, hall⟩ := o.run_image (c.plan ws)
  obtain ⟨rfl, hwritable⟩ := hall h
  have hfits : (c.image ws).Fits := by
    rw [plan_eq, writable_append] at hwritable
    exact Image.writable_steps.mp hwritable.1.of_cons
  refine ⟨_, Image.bytes?_of_fits hfits, by rw [htaken, imageBytes_plan_of_fits hfits], ?_⟩
  intro hws hsink
  have hkeeps := o.symbols?_run _ (symbols_not_mem_steps (c.image ws))
  rw [plan_eq, Outputs.run_append, symbolSteps, if_pos hws] at h ⊢
  rcases hrun : o.run (.checkpoint :: (c.image ws).steps) with ⟨e | _, o'⟩
  · rw [hrun] at h
    cases h
  · rw [hrun] at hkeeps h
    have hlast : (o'.run [.symbols c.debugSymbols.bytes]).1 = .ok () := h
    show (o'.run [.symbols c.debugSymbols.bytes]).2.symbolsTaken = _
    rw [Outputs.run_singleton] at hlast ⊢
    rw [Outputs.symbolsTaken_step (hkeeps ▸ hsink) hlast, Outputs.symbolsTaken, hkeeps]
    rfl

/-- An emission that reports success had no errors and ran its plan to the end. -/
theorem run_of_success {report : EmitReport} (h : (c.emit o).1 = .ok report)
    (hsuccess : report.success) :
    hasErrors c.findings = false ∧ (o.run (c.plan (c.writesSymbols o))).1 = .ok () ∧
      (c.emit o).2 = (o.run (c.plan (c.writesSymbols o))).2 := by
  cases hclean : hasErrors c.findings with
  | true =>
    rw [emit, if_pos hclean] at h
    obtain rfl := Except.ok.inj h
    cases hsuccess
  | false =>
    simp only [emit, hclean, Bool.false_eq_true, ↓reduceIte] at h ⊢
    rcases hrun : o.run (c.plan (c.writesSymbols o)) with ⟨e | _, o'⟩
    · rw [hrun] at h
      cases h
    · exact ⟨trivial, rfl, rfl⟩

/-- An emission that nothing disturbs succeeds, if there are no errors and the lengths fit. -/
theorem emit_of_undisturbed (hu : o.IsUndisturbed) (hclean : hasErrors c.findings = false)
    (hfits : (c.image (c.writesSymbols o)).Fits) : (c.emit o).1 = .ok ⟨true, c.findings⟩ := by
  have hrun := (Outputs.run_undisturbed _ hu).2 (writable_plan hfits)
  unfold emit
  rw [if_neg (by simp [hclean])]
  rcases hleft : o.run (c.plan (c.writesSymbols o)) with ⟨e | _, o'⟩
  · rw [hleft] at hrun
    cases hrun
  · rfl

variable {options : CompilationOptions} {sources : List SourceText} {source : ReferenceSource}

/-- What is written as the image of a compilation without errors is read back as this image. -/
theorem read_image (hclean : hasErrors (create options sources source).findings = false)
    {bs : Bytes} (h : ((create options sources source).image ws).bytes? = .ok bs) :
    Image.read bs = .ok ((create options sources source).image ws, []) := by
  obtain ⟨hfits, rfl⟩ := Image.bytes?_eq_ok.mp h
  have hnumbers := (image_describes hclean ws).numbersFit hfits.count
  have hread := (Image.read_delimits rfl hnumbers hfits).whole []
  rw [List.append_nil, ImageHeader.known_of_flags (known_ofBools _ _ _)] at hread
  exact hread

/-- **Debug symbols point at the emitted code.** An emission that succeeds, with debug symbols
asked for and a sink for them, puts an image and debug symbols behind what the sinks held. The
image is read back and describes the compilation, and the debug symbols locate the bodies that
are stored in it. -/
theorem emit_locates (options : CompilationOptions) (sources : List SourceText)
    (source : ReferenceSource) {o : Outputs} {report : EmitReport}
    (hwanted : options.emitDebugSymbols = true) (hsink : o.symbols?.isSome)
    (hemit : ((create options sources source).emit o).1 = .ok report) (hsuccess : report.success) :
    ∃ (bs : Bytes) (i : Image) (symbols : DebugSymbols),
      ((create options sources source).emit o).2.image.taken = o.image.taken ++ bs ∧
      ((create options sources source).emit o).2.symbolsTaken = o.symbolsTaken ++ symbols.bytes ∧
      Image.read bs = .ok (i, []) ∧
      i.Describes (scopeFor options sources source) (create options sources source) ∧
      symbols.Locates sources (create options sources source) i := by
  obtain ⟨hclean, hrun, hleft⟩ := run_of_success hemit hsuccess
  obtain ⟨bs, hbytes, htaken, hsymbols⟩ := run_plan_through hrun
  have hwrites : (create options sources source).writesSymbols o = true := by
    rw [writesSymbols, hsink, Bool.and_true]
    exact hwanted
  rw [hleft]
  exact ⟨bs, _, _, htaken, hsymbols hwrites hsink, read_image hclean hbytes,
    image_describes hclean _, debugSymbols_locates hclean _⟩

/-- Two sources with a method each, behind data and in front of a statement. -/
def twoMethods : List SourceText :=
  [⟨"a.csx", "int x;\nvoid M() { }\nM();"⟩, ⟨"b.csx", "int N() => 1;"⟩]

/-- Sinks for an image and for debug symbols, which take everything. -/
def bothSinks : Outputs := ⟨.unlimited, some .unlimited, false⟩

theorem bothSinks_isUndisturbed : bothSinks.IsUndisturbed :=
  Outputs.undisturbed_isUndisturbed bothSinks

theorem twoMethods_located :
    ((create .standard twoMethods ⟨[], [], fun _ _ => none⟩).emit bothSinks).1 =
        .ok ⟨true, (create .standard twoMethods ⟨[], [], fun _ _ => none⟩).findings⟩ ∧
      ∃ (bs : Bytes) (i : Image) (symbols : DebugSymbols),
        ((create .standard twoMethods ⟨[], [], fun _ _ => none⟩).emit bothSinks).2.image.taken =
          bothSinks.image.taken ++ bs ∧
        ((create .standard twoMethods ⟨[], [], fun _ _ => none⟩).emit bothSinks).2.symbolsTaken =
          bothSinks.symbolsTaken ++ symbols.bytes ∧
        Image.read bs = .ok (i, []) ∧
        i.Describes (scopeFor .standard twoMethods ⟨[], [], fun _ _ => none⟩)
          (create .standard twoMethods ⟨[], [], fun _ _ => none⟩) ∧
        symbols.Locates twoMethods (create .standard twoMethods ⟨[], [], fun _ _ => none⟩) i := by
  have ⟨hclean, hfits⟩ :
      hasErrors (create .standard twoMethods ⟨[], [], fun _ _ => none⟩).findings = false ∧
        ((create .standard twoMethods ⟨[], [], fun _ _ => none⟩).image
          ((create .standard twoMethods ⟨[], [], fun _ _ => none⟩).writesSymbols bothSinks)).Fits := by
    decide +kernel
  have hemit := emit_of_undisturbed bothSinks_isUndisturbed hclean hfits
  have hsuccess : (EmitReport.mk true
    (create .standard twoMethods ⟨[], [], fun _ _ => none⟩).findings).success := rfl
  exact ⟨hemit, emit_locates .standard twoMethods _ rfl rfl hemit hsuccess⟩

/-- The places of both methods. -/
example : (create .standard twoMethods ⟨[], [], fun _ _ => none⟩).debugSymbols.sequencePoints =
    [⟨"M", 0, 2, 10⟩, ⟨"N", 1, 1, 9⟩] := by
  decide +kernel

end Compilation

end ScriptHost
