/-
# Diagnostics and emission agree

A host may ask a compilation unit for its diagnostics, or have it emitted and look at what
comes back. The two merge findings apart from each other, but they tell the same: each
analyzer's findings in turn and then those of the compilation, or the fault of the first
analyzer that fails. An emission that nothing disturbs fails exactly if there is an error
among them, unless the format has no room for the image; and it writes exactly if the
compilation itself has no error.

Key definitions: `FirstFault`, `CompilationUnit.Agrees`.
Key theorems: `analyze_eq_ok_iff`, `analyze_eq_error_iff`, `Outputs.run_refused`,
`Compilation.image_ne_nil`, `CompilationUnit.emit_agrees`, `CompilationUnit.refused_of_longName`.
-/
import Mathlib.Data.List.Forall2
import ScriptHost.Proofs.Emission.Cut
import ScriptHost.Proofs.Image.Manifest

namespace ScriptHost

open EmitStep

/-! ### Analyzers one after the other -/

section

variable {fs fs' : FileTree} {c : Compilation} {fault : AnalyzerFault}

/-- The fault is that of the first analyzer that fails: those in front of it find something or
nothing, but they do not fail. -/
def FirstFault (fs : FileTree) (c : Compilation) (analyzers : List Analyzer)
    (fault : AnalyzerFault) : Prop :=
  ∃ before a after, analyzers = before ++ a :: after ∧
    (∀ b ∈ before, ∃ found, b.run fs c = .ok found) ∧ a.run fs c = .error fault

/-- **If no analyzer fails, their findings stand one behind the other.** -/
theorem analyze_eq_ok_iff : ∀ (analyzers : List Analyzer) {found : List Diagnostic},
    analyze fs c analyzers = .ok found ↔
      ∃ founds, List.Forall₂ (fun a f => a.run fs c = .ok f) analyzers founds ∧
        found = founds.flatten
  | [], found => by
    constructor
    · intro h
      exact ⟨[], .nil, (Except.ok.inj h).symm⟩
    · rintro ⟨founds, hall, rfl⟩
      cases hall
      rfl
  | a :: more, found => by
    constructor
    · intro h
      unfold analyze at h
      cases ha : a.run fs c with
      | error fault =>
        rw [ha] at h
        cases h
      | ok first =>
        cases hm : analyze fs c more with
        | error fault =>
          rw [ha, hm] at h
          cases h
        | ok rest =>
          rw [ha, hm] at h
          have hfound : first ++ rest = found := Except.ok.inj h
          obtain ⟨founds, hall, rfl⟩ := (analyze_eq_ok_iff more).mp hm
          exact ⟨first :: founds, .cons ha hall, hfound.symm⟩
    · rintro ⟨founds, hall, rfl⟩
      cases hall with
      | @cons _ first _ rest ha hrest =>
        have hmore : analyze fs c more = .ok rest.flatten :=
          (analyze_eq_ok_iff more).mpr ⟨rest, hrest, rfl⟩
        unfold analyze
        rw [ha, hmore]
        rfl

/-- **Analysis fails with the fault of the first analyzer that fails.** -/
theorem analyze_eq_error_iff : ∀ analyzers : List Analyzer,
    analyze fs c analyzers = .error fault ↔ FirstFault fs c analyzers fault
  | [] => by
    constructor
    · intro h
      cases h
    · rintro ⟨before, a, after, h, -, -⟩
      cases before <;> cases h
  | a :: more => by
    constructor
    · intro h
      unfold analyze at h
      cases ha : a.run fs c with
      | error first =>
        rw [ha] at h
        obtain rfl : fault = first := (Except.error.inj h).symm
        exact ⟨[], a, more, rfl, fun b hb => absurd hb List.not_mem_nil, ha⟩
      | ok first =>
        cases hm : analyze fs c more with
        | ok rest =>
          rw [ha, hm] at h
          cases h
        | error later =>
          rw [ha, hm] at h
          obtain rfl : fault = later := (Except.error.inj h).symm
          obtain ⟨before, b, after, rfl, hbefore, hb⟩ := (analyze_eq_error_iff more).mp hm
          exact ⟨a :: before, b, after, rfl, List.forall_mem_cons.mpr ⟨⟨first, ha⟩, hbefore⟩, hb⟩
    · rintro ⟨before, b, after, hsplit, hbefore, hb⟩
      unfold analyze
      cases before with
      | nil =>
        obtain ⟨rfl, -⟩ := List.cons.inj hsplit
        rw [hb]
        rfl
      | cons first before =>
        obtain ⟨rfl, rfl⟩ := List.cons.inj hsplit
        obtain ⟨⟨found, hfound⟩, hmore⟩ := List.forall_mem_cons.mp hbefore
        have hlater : analyze fs c (before.append (b :: after)) = .error fault :=
          (analyze_eq_error_iff _).mpr ⟨before, b, after, rfl, hmore, hb⟩
        rw [hfound, hlater]
        rfl

/-- Analyzers that answer the same make the same analysis. -/
theorem analyze_congr : ∀ {analyzers : List Analyzer},
    (∀ a ∈ analyzers, a.run fs c = a.run fs' c) → analyze fs c analyzers = analyze fs' c analyzers
  | [], _ => rfl
  | a :: more, h => by
    obtain ⟨ha, hmore⟩ := List.forall_mem_cons.mp h
    unfold analyze
    rw [ha, analyze_congr hmore]

end

/-! ### Emissions that nothing disturbs -/

/-- Undisturbed outputs refuse what cannot be written, and stop for nothing else. -/
theorem Outputs.run_refused : ∀ {o : Outputs} {steps : List EmitStep}, o.IsUndisturbed →
    ¬ Writable steps → ∃ fault, .refuse fault ∈ steps ∧ (o.run steps).1 = .error (.io fault)
  | o, [], _, h => absurd .nil h
  | o, s :: more, hu, h => by
    obtain ⟨hstays, hgoes⟩ := hu.step s
    unfold run
    by_cases hs : Writable [s]
    · have hmore : ¬ Writable more := fun hw => h (writable_append.mpr ⟨hs, hw⟩)
      have hok := hgoes hs
      rcases hstep : o.step s with ⟨e | _, o'⟩
      · rw [hstep] at hok
        cases hok
      · rw [hstep] at hstays
        obtain ⟨fault, hfault, hrun⟩ := run_refused hstays hmore
        exact ⟨fault, List.mem_cons_of_mem _ hfault, hrun⟩
    · cases s with
      | refuse fault => exact ⟨fault, List.mem_cons_self, rfl⟩
      | image bs => exact absurd (fun _ => by simp) hs
      | checkpoint => exact absurd (fun _ => by simp) hs
      | symbols bs => exact absurd (fun _ => by simp) hs

namespace Compilation

variable {c : Compilation} {o : Outputs} {ws : Bool}

theorem writable_plan_iff : Writable (c.plan ws) ↔ (c.image ws).Fits := by
  refine ⟨fun h => ?_, writable_plan⟩
  rw [plan_eq, writable_append] at h
  exact Image.writable_steps.mp h.1.of_cons

/-- Only lengths and the number of bodies are refused by a plan. -/
theorem refusal_of_plan {fault : WriteFault} (h : .refuse fault ∈ c.plan ws) :
    fault = .blobTooLong ∨ fault = .tooManyBodies := by
  have hblob {bs : Bytes} (hf : .refuse fault ∈ blobSteps bs) : fault = .blobTooLong := by
    unfold blobSteps blobChunks at hf
    split at hf
    · simp at hf
    · next e he =>
      split at he
      · cases he
      · simpa [← Except.error.inj he] using hf
  have hcount {n : Nat} (hf : .refuse fault = countStep n) : fault = .tooManyBodies := by
    unfold countStep countChunk at hf
    split at hf
    · cases hf
    · next e he =>
      split at he
      · cases he
      · simpa [← Except.error.inj he] using hf
  have hsymbols : .refuse fault ∉ c.symbolSteps ws := by
    unfold symbolSteps
    split <;> simp
  rw [plan_eq, List.mem_append, or_iff_left hsymbols] at h
  simp only [Image.steps, List.mem_cons, List.mem_append, List.mem_map, List.mem_flatMap,
    List.not_mem_nil, or_false, reduceCtorEq, false_or, and_false,
    exists_const] at h
  rcases h with (h | h) | ⟨body, -, h⟩
  · exact .inl (hblob h)
  · exact .inr (hcount h)
  · exact .inl (hblob h)

/-- A plan starts with the magic, which is written whatever comes behind it. -/
theorem imageBytes_plan (c : Compilation) (ws : Bool) :
    ∃ behind, imageBytes (c.plan ws) = imageMagic ++ behind := ⟨_, rfl⟩

/-- **A plan that runs undisturbed leaves something in the image.** -/
theorem image_ne_nil (hu : o.IsUndisturbed) : (o.run (c.plan ws)).2.image.taken ≠ [] := by
  obtain ⟨behind, hbytes⟩ := c.imageBytes_plan ws
  have hmagic : imageMagic ≠ [] := by decide
  rw [(Outputs.run_undisturbed _ hu).1, hbytes]
  simp [hmagic]

end Compilation

namespace CompilationUnit

variable {u : CompilationUnit} {fs : FileTree} {o : Outputs} {found : List Diagnostic}

/-- What an emission comes to that nothing disturbs, where the unit's diagnostics are `ds`: its
`result`, and what is `left` in the sinks. -/
structure Agrees (u : CompilationUnit) (fs : FileTree) (o : Outputs) (ds : List Diagnostic)
    (result : Except CompilationError (List Diagnostic)) (left : Outputs) : Prop where
  /-- The diagnostics are each analyzer's findings in turn, then those of the compilation. -/
  merged : ∃ founds,
    List.Forall₂ (fun a found => a.run fs u.compilation = .ok found) u.analyzers founds ∧
      ds = founds.flatten ++ u.compilation.findings
  /-- The emission gives them back, or fails with them if there is an error among them. An image
  is written on the way unless the compilation has errors; its lengths have to fit. -/
  emitted : hasErrors u.compilation.findings ∨
      (u.compilation.image (u.compilation.writesSymbols o)).Fits →
    result = if hasErrors ds then .error (.diagnostics ds) else .ok ds
  /-- An image for which the format has no room is refused, whoever is the sink. -/
  refused : hasErrors u.compilation.findings = false →
      ¬ (u.compilation.image (u.compilation.writesSymbols o)).Fits →
    result = .error (.io .blobTooLong) ∨ result = .error (.io .tooManyBodies)
  /-- Something is written exactly if the compilation has no errors of its own. -/
  written : left.image.taken ≠ [] ↔ hasErrors u.compilation.findings = false

theorem diagnostics_eq_ok_iff {ds : List Diagnostic} : u.diagnostics fs = .ok ds ↔
    ∃ found, analyze fs u.compilation u.analyzers = .ok found ∧
      ds = found ++ u.compilation.findings := by
  unfold diagnostics
  cases analyze fs u.compilation u.analyzers with
  | error fault => simp [Except.map]
  | ok found => simp [Except.map, eq_comm]

theorem diagnostics_eq_error_iff {fault : AnalyzerFault} : u.diagnostics fs = .error fault ↔
    analyze fs u.compilation u.analyzers = .error fault := by
  unfold diagnostics
  cases analyze fs u.compilation u.analyzers with
  | error fault => simp [Except.map]
  | ok found => simp [Except.map]

/-- Where no analyzer fails, an undisturbed emission agrees with the findings of all. -/
theorem agrees_of_found (hu : o.IsUndisturbed) (hf : o.IsFresh)
    (ha : analyze fs u.compilation u.analyzers = .ok found) :
    u.Agrees fs o (found ++ u.compilation.findings) (u.emit fs o).1 (u.emit fs o).2 := by
  obtain ⟨founds, hall, hfound⟩ := (analyze_eq_ok_iff _).mp ha
  have hmerged : found ++ u.compilation.findings = founds.flatten ++ u.compilation.findings := by
    rw [hfound]
  cases hn : hasErrors u.compilation.findings with
  | true =>
    -- the compilation is not written, and its own errors are among the findings
    have herrors : hasErrors (found ++ u.compilation.findings) = true := by
      rw [hasErrors_append, hn, Bool.or_true]
    rw [emit_of_errors ha hn]
    refine ⟨⟨founds, hall, hmerged⟩, fun _ => ?_, fun h => ?_, ?_⟩
    · rw [if_pos herrors]
    · rw [hn] at h
      cases h
    · simp [hf.image, hn]
  | false =>
    have hplan := Outputs.run_undisturbed (u.compilation.plan (u.compilation.writesSymbols o)) hu
    rw [emit_of_run ha hn]
    refine ⟨⟨founds, hall, hmerged⟩, fun hfits => ?_, fun _ hfits => ?_, ?_⟩
    · have hfits := hfits.resolve_left (by simp [hn])
      rw [hplan.2 (Compilation.writable_plan hfits)]
      rfl
    · have hwritable : ¬ Writable (u.compilation.plan (u.compilation.writesSymbols o)) :=
        fun h => hfits (Compilation.writable_plan_iff.mp h)
      obtain ⟨fault, hmem, hrun⟩ := Outputs.run_refused hu hwritable
      rw [hrun]
      rcases Compilation.refusal_of_plan hmem with rfl | rfl
      · exact .inl rfl
      · exact .inr rfl
    · exact ⟨fun _ => hn, fun _ => Compilation.image_ne_nil hu⟩

/-- **Diagnostics and emission agree**, if the analyzers answer the same to both and nothing
disturbs the emission: both have the same findings in the same order, or the same fault. -/
theorem emit_agrees (u : CompilationUnit) (fs fs' : FileTree) (o : Outputs) (hu : o.IsUndisturbed)
    (hf : o.IsFresh) (hsame : ∀ a ∈ u.analyzers, a.run fs u.compilation = a.run fs' u.compilation) :
    (∀ ds, u.diagnostics fs = .ok ds → u.Agrees fs o ds (u.emit fs' o).1 (u.emit fs' o).2) ∧
      ∀ fault, u.diagnostics fs = .error fault →
        FirstFault fs u.compilation u.analyzers fault ∧
          u.emit fs' o = (.error (.analyzer fault), o) := by
  have hanalyze := analyze_congr hsame
  have hemit : u.emit fs' o = u.emit fs o := by
    unfold emit
    rw [hanalyze]
  rw [hemit]
  constructor
  · intro ds hds
    obtain ⟨found, ha, rfl⟩ := diagnostics_eq_ok_iff.mp hds
    exact agrees_of_found hu hf ha
  · intro fault hfault
    have ha := diagnostics_eq_error_iff.mp hfault
    exact ⟨(analyze_eq_error_iff _).mp ha, emit_of_fault ha⟩

/-- A unit of one script whose last analyzer reports an error, behind a warning of the host's. -/
def strictSample : CompilationUnit where
  compilation := .create .standard [⟨"run.csx", "async void M() { }"⟩] ⟨[], [], fun _ _ => none⟩
  analyzers := hostAnalyzers ++ [⟨"AF900", fun _ _ => .ok [.error "AF900" "reported" .none]⟩]

/-- A file that no reference names changes neither what is found nor what is written. -/
theorem strictSample_agrees :
    Outputs.IsUndisturbed ⟨.unlimited, none, false⟩ ∧ Outputs.IsFresh ⟨.unlimited, none, false⟩ ∧
      (∀ a ∈ strictSample.analyzers, a.run .empty strictSample.compilation =
        a.run (FileTree.empty.addFile "lib.dll" []) strictSample.compilation) ∧
      (∃ ds, strictSample.diagnostics .empty = .ok ds ∧ ds.map (·.code) = ["AF008", "AF900"] ∧
        strictSample.Agrees .empty ⟨.unlimited, none, false⟩ ds
          (strictSample.emit (FileTree.empty.addFile "lib.dll" []) ⟨.unlimited, none, false⟩).1
          (strictSample.emit (FileTree.empty.addFile "lib.dll" []) ⟨.unlimited, none, false⟩).2) := by
  have hu : Outputs.IsUndisturbed ⟨.unlimited, none, false⟩ :=
    Outputs.undisturbed_isUndisturbed ⟨.unlimited, none, false⟩
  have hf : Outputs.IsFresh ⟨.unlimited, none, false⟩ := ⟨rfl, rfl⟩
  have hsame : ∀ a ∈ strictSample.analyzers, a.run .empty strictSample.compilation =
      a.run (FileTree.empty.addFile "lib.dll" []) strictSample.compilation := by
    have hrefs : strictSample.compilation.documents.flatMap (missingFileReferences .empty) =
        strictSample.compilation.documents.flatMap
          (missingFileReferences (FileTree.empty.addFile "lib.dll" [])) := by decide +kernel
    refine List.forall_mem_cons.mpr ⟨congrArg Except.ok hrefs, ?_⟩
    exact List.forall_mem_cons.mpr ⟨rfl, List.forall_mem_singleton.mpr rfl⟩
  obtain ⟨hagrees, -⟩ := emit_agrees strictSample .empty (FileTree.empty.addFile "lib.dll" [])
    ⟨.unlimited, none, false⟩ hu hf hsame
  obtain ⟨ds, hds, hcodes⟩ : ∃ ds, strictSample.diagnostics .empty = .ok ds ∧
      ds.map (·.code) = ["AF008", "AF900"] := ⟨_, rfl, by decide +kernel⟩
  exact ⟨hu, hf, hsame, ds, hds, hcodes, hagrees ds hds⟩

/-- A name of `2 ^ 32` bytes or more leaves the format no room for the manifest, and a unit
without errors is refused. -/
theorem refused_of_longName {ds : List Diagnostic} (hu : o.IsUndisturbed) (hf : o.IsFresh)
    (hds : u.diagnostics fs = .ok ds) (hquiet : hasErrors u.compilation.findings = false)
    (hlong : wordBound ≤ (Utf8.bytes u.compilation.assembly.name).length) :
    ∃ fault, (u.emit fs o).1 = .error (.io fault) := by
  obtain ⟨found, ha, rfl⟩ := diagnostics_eq_ok_iff.mp hds
  have hfits : ¬ (u.compilation.image (u.compilation.writesSymbols o)).Fits := by
    intro h
    have hshort := Nat.lt_of_le_of_lt u.compilation.manifest.length_assembly_le h.manifest
    exact absurd hshort (Nat.not_lt.mpr hlong)
  rcases (agrees_of_found hu hf ha).refused hquiet hfits with h | h
  · exact ⟨_, h⟩
  · exact ⟨_, h⟩

/-- A unit without analyzers and references whose assembly has the given name. -/
def plainSample (name : String) (sources : List SourceText) : CompilationUnit where
  compilation := .create { CompilationOptions.standard with assemblyName := name } sources
    ⟨[], [], fun _ _ => none⟩
  analyzers := []

/-- Of a name that is too long the diagnostics tell nothing. -/
theorem plainSample_refused {name : String} (hlong : wordBound ≤ (Utf8.bytes name).length)
    (hu : o.IsUndisturbed) (hf : o.IsFresh) :
    (plainSample name []).diagnostics .empty = .ok [] ∧
      ∃ fault, ((plainSample name []).emit .empty o).1 = .error (.io fault) := by
  have hds : (plainSample name []).diagnostics .empty = .ok [] := rfl
  exact ⟨hds, refused_of_longName hu hf hds rfl hlong⟩

/-- A name of so many letters. -/
def letters (n : Nat) : String := String.ofList (List.replicate n 'a')

theorem length_letters (n : Nat) : (Utf8.bytes (letters n)).length = n := by
  have hone : (String.utf8EncodeChar 'a').length = 1 := by decide
  simp only [letters, Utf8.bytes, Utf8.encode, String.toList_ofList, List.flatMap_replicate,
    List.length_flatten, List.map_replicate, List.sum_replicate_nat, hone, Nat.mul_one]

/-- Nothing is found in either unit, but neither is emitted: here the sink cancels when the first
bytes come, which the checkpoint in front of the body meets, and there the name of the assembly
is too long. -/
theorem plainSample_disagrees :
    (Outputs.IsFresh ⟨⟨[], none, some 1⟩, none, false⟩ ∧
      (plainSample "Submission" [⟨"run.csx", "void M() { }"⟩]).diagnostics .empty = .ok [] ∧
      ((plainSample "Submission" [⟨"run.csx", "void M() { }"⟩]).emit .empty
        ⟨⟨[], none, some 1⟩, none, false⟩).1 = .error .cancelled) ∧
    Outputs.IsUndisturbed ⟨.unlimited, none, false⟩ ∧ Outputs.IsFresh ⟨.unlimited, none, false⟩ ∧
      (plainSample (letters wordBound) []).diagnostics .empty = .ok [] ∧
      ∃ fault, ((plainSample (letters wordBound) []).emit .empty ⟨.unlimited, none, false⟩).1 =
        .error (.io fault) := by
  have hu : Outputs.IsUndisturbed ⟨.unlimited, none, false⟩ :=
    Outputs.undisturbed_isUndisturbed ⟨.unlimited, none, false⟩
  have hf : Outputs.IsFresh ⟨.unlimited, none, false⟩ := ⟨rfl, rfl⟩
  have hlong : wordBound ≤ (Utf8.bytes (letters wordBound)).length :=
    Nat.le_of_eq (length_letters wordBound).symm
  exact ⟨⟨⟨rfl, rfl⟩, by decide +kernel, by decide +kernel⟩, hu, hf,
    plainSample_refused hlong hu hf⟩

end CompilationUnit
end ScriptHost
