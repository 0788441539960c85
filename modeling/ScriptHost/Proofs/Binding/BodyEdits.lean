/-
# What an edit of a method's body changes

A host that recompiles a script after such an edit gets the same findings but for their places,
the same members, and for every policy an entry point of the same shape or the same refusal,
though the identity of the assembly changes with the text, and with it those of all types that
the script declares. The identity must be neither that of an assembly referred to, nor that of the
core framework: where this is not referred to, the predefined words still stand for its types.

Key definitions: `Compilation.Matches`.
Key theorems: `Compilation.matches_create`, `Compilation.matches_exchange_body`.
-/
import ScriptHost.CompilationUnit
import ScriptHost.Proofs.Binding.Gate
import ScriptHost.Proofs.Binding.Versions
import ScriptHost.Proofs.Emission.Contents
import ScriptHost.Proofs.Reading.Edits

namespace ScriptHost

open Source

namespace Compilation

/-- Two compilations that a host cannot tell apart by what they report and offer: the same findings
but for their places, the same members by name and rendered types, and for every policy entry
points of one shape, or the same refusal. -/
structure Matches (c c' : Compilation) : Prop where
  findings : c.findings.map Diagnostic.bare = c'.findings.map Diagnostic.bare
  members : c.scriptClass.members.map (fun m => (m.name, m.types.map TypeSymbol.text)) =
    c'.scriptClass.members.map fun m => (m.name, m.types.map TypeSymbol.text)
  signatures : ∀ analyzers policy,
    (∃ f f', (CompilationUnit.mk c analyzers).signature policy = .ok f ∧
        (CompilationUnit.mk c' analyzers).signature policy = .ok f' ∧ f.sameShape f') ∨
      ∃ e, (CompilationUnit.mk c analyzers).signature policy = .error (.entryPoint e) ∧
        (CompilationUnit.mk c' analyzers).signature policy = .error (.entryPoint e)

theorem types_seenFrom (assembly : AssemblyIdentity) (m : Member) :
    (m.seenFrom assembly).types.map TypeSymbol.text = m.types.map TypeSymbol.text := by
  cases m with
  | method m =>
    simp only [Member.seenFrom, Member.types, MethodSymbol.seen, ParameterSymbol.seenFrom,
      List.map_cons, List.map_map, TypeSymbol.text_seenFrom]
    refine congrArg (_ :: ·) (List.map_congr_left fun p _ => ?_)
    simp only [Function.comp_apply, TypeSymbol.text_seenFrom]
  | field f =>
    simp only [Member.seenFrom, Member.types, FieldSymbol.seenFrom, List.map_cons, List.map_nil,
      TypeSymbol.text_seenFrom]
  | property p =>
    simp only [Member.seenFrom, Member.types, FieldSymbol.seenFrom, List.map_cons, List.map_nil,
      TypeSymbol.text_seenFrom]

/-- **Sources that declare the same make compilations that match.** -/
theorem matches_create {options : CompilationOptions} {sources sources' : List SourceText}
    {source : ReferenceSource} (hsources : sources ≠ []) (hsources' : sources' ≠ [])
    (h : (sources.map Document.read).map Document.bare =
      (sources'.map Document.read).map Document.bare)
    (hproblems : ((sources.map Document.read).flatMap Document.findings).map Diagnostic.bare =
      ((sources'.map Document.read).flatMap Document.findings).map Diagnostic.bare)
    (hfresh : (create options sources source).IsFresh)
    (hfresh' : (create options sources' source).IsFresh) :
    (create options sources source).Matches (create options sources' source) := by
  obtain ⟨hfindings, hmembers⟩ := create_alike h hproblems hfresh hfresh'
  refine ⟨hfindings, ?_, fun analyzers policy => ?_⟩
  · have hrender (assembly : AssemblyIdentity) (ms : List Member) :
        ms.map (fun m => (m.name, m.types.map TypeSymbol.text)) =
          (ms.map (·.seenFrom assembly)).map fun m => (m.name, m.types.map TypeSymbol.text) := by
      rw [List.map_map]
      refine List.map_congr_left fun m _ => ?_
      simp only [Function.comp_apply, Member.name_seenFrom, types_seenFrom]
    rw [hrender, hmembers, ← hrender]
  · have hmethods (assembly : AssemblyIdentity) (ms : List Member) :
        (ms.filterMap Member.method?).map MethodSymbol.seen =
          (ms.map (·.seenFrom assembly)).filterMap Member.method? := by
      rw [List.map_filterMap, List.filterMap_map]
      exact List.filterMap_congr fun m _ => (m.method?_seenFrom assembly).symm
    have hsame : (create options sources source).scriptClass.methods.map MethodSymbol.seen =
        (create options sources' source).scriptClass.methods.map MethodSymbol.seen := by
      rw [ScriptClass.methods, ScriptClass.methods, hmethods, hmembers, ← hmethods]
    have hdocuments {sources : List SourceText} (h : sources ≠ []) :
        (create options sources source).documents.isEmpty = false := by
      have hread : (create options sources source).documents = sources.map Document.read := rfl
      rw [hread, List.isEmpty_eq_false_iff]
      simpa using h
    simp only [CompilationUnit.signature, hdocuments hsources, hdocuments hsources',
      Bool.false_eq_true, ↓reduceIte]
    rcases EntryPointPolicy.resolve_alike hsame policy with ⟨m, m', hm, hm', hseen⟩ | ⟨e, he, he'⟩
    · rw [hm, hm']
      exact .inl ⟨_, _, rfl, rfl, FunctionSignature.sameShape_of_seen hseen⟩
    · rw [he, he']
      exact .inr ⟨e, rfl, rfl⟩

/-- **Editing the body of a method changes nothing but that body.** If a source is accepted with
the block `b` for the body of a method, it is accepted with any other block `b'` in its place,
and declares the same items in the same order with the same code but for that body. Compiled as
the same document under the same options, both report the same but for places and offer the same
members and entry points, if neither makes an assembly that it refers to. -/
theorem matches_exchange_body (options : CompilationOptions) (source : ReferenceSource)
    (path : String) {p b b' s : String} {script : Script} {m : MethodDecl}
    (h : Script.parse (p ++ b ++ s) = .ok script) (hm : .method m ∈ script.items)
    (hb : m.BlockAt p b) (hb' : IsBlock b')
    (hfresh : (create options [⟨path, p ++ b ++ s⟩] source).IsFresh)
    (hfresh' : (create options [⟨path, p ++ b' ++ s⟩] source).IsFresh) :
    (∃ script' m', Script.parse (p ++ b' ++ s) = .ok script' ∧ m'.BlockAt p b' ∧
        script.SameBut m m' (p ++ b ++ s) (p ++ b' ++ s) script') ∧
      (create options [⟨path, p ++ b ++ s⟩] source).Matches
        (create options [⟨path, p ++ b' ++ s⟩] source) := by
  obtain ⟨script', m', h', hm', hsame⟩ := Script.exchange_body h hm hb hb'
  refine ⟨⟨script', m', h', hm', hsame⟩, ?_⟩
  have hread {text : String} {script : Script} (h : Script.parse text = .ok script) :
      Document.read ⟨path, text⟩ = ⟨⟨path, text⟩, script, []⟩ := by
    rw [Document.read, Script.parseLenient_of_parse h]
  refine matches_create (List.cons_ne_nil _ _) (List.cons_ne_nil _ _) ?_ ?_ hfresh hfresh'
  · simp only [List.map_cons, List.map_nil, hread h, hread h', Document.bare, Document.path,
      hsame.items_bare]
  · simp only [List.map_cons, List.map_nil, hread h, hread h', List.flatMap_cons, List.flatMap_nil,
      Document.findings]

/-- A type of the script, and a method with a parameter of this type up to its body. -/
def sampleFront : String := "class Order { }\npublic int Run(Order order) "

/-- What stands behind the body. -/
def sampleBack : String := "\nOrder last;"

/-- Another body, of several lines. -/
def sampleBlock : String := "\x7b\n return 1;\n\x7d"

theorem isBlock_sampleBlock : IsBlock sampleBlock := by
  let ts := (lex sampleBlock).tokens
  refine ⟨by decide +kernel, ts.headD default, ts.tail.dropLast, ts.getLastD default, ?_,
    ⟨?_, ?_, ?_, ?_⟩, balanced_iff_neutral.mpr ?_⟩
  all_goals decide +kernel

/-- A text with a method that has `b` for its body behind `p`. -/
theorem exists_blockAt {p b text : String}
    (h : (Script.parse text).toOption.map (fun script =>
      (script.items.filterMap Item.method?).map fun m => (m.body.kind, m.body.start, m.body.stop)) =
        some [(.block, byteLength p.toList, byteLength (p ++ b).toList)]) :
    ∃ script m, Script.parse text = .ok script ∧ .method m ∈ script.items ∧ m.BlockAt p b := by
  cases hparse : Script.parse text with
  | error errors =>
    rw [hparse] at h
    cases h
  | ok script =>
    rw [hparse] at h
    obtain ⟨m, hm, hbody⟩ := List.map_eq_singleton_iff.mp (Option.some.inj h)
    obtain ⟨hkind, hrange⟩ := Prod.mk.inj hbody
    obtain ⟨hstart, hstop⟩ := Prod.mk.inj hrange
    have hfound : m ∈ script.items.filterMap Item.method? := by
      rw [hm]
      exact List.mem_singleton_self m
    obtain ⟨item, hitem, hsome⟩ := List.mem_filterMap.mp hfound
    refine ⟨script, m, rfl, ?_, hkind, hstart, hstop⟩
    cases item with
    | method k =>
      obtain rfl := Option.some.inj hsome
      exact hitem
    | _ => cases hsome

theorem matches_sampleEdit :
    ∃ script m, Script.parse (sampleFront ++ "{ }" ++ sampleBack) = .ok script ∧
      .method m ∈ script.items ∧ m.BlockAt sampleFront "{ }" ∧ IsBlock sampleBlock ∧
      (∃ script' m', Script.parse (sampleFront ++ sampleBlock ++ sampleBack) = .ok script' ∧
        m'.BlockAt sampleFront sampleBlock ∧
        script.SameBut m m' (sampleFront ++ "{ }" ++ sampleBack)
          (sampleFront ++ sampleBlock ++ sampleBack) script') ∧
      (create .standard [⟨"run.csx", sampleFront ++ "{ }" ++ sampleBack⟩]
          (AssemblyLibrary.standard.source .empty)).Matches
        (create .standard [⟨"run.csx", sampleFront ++ sampleBlock ++ sampleBack⟩]
          (AssemblyLibrary.standard.source .empty)) := by
  obtain ⟨script, m, hparse, hmem, hblock⟩ := @exists_blockAt sampleFront "{ }"
    (sampleFront ++ "{ }" ++ sampleBack) (by decide +kernel)
  obtain ⟨hedit, hmatches⟩ := matches_exchange_body .standard
    (AssemblyLibrary.standard.source .empty) "run.csx" hparse hmem hblock isBlock_sampleBlock
    (isFresh_of_references (by decide +kernel)) (isFresh_of_references (by decide +kernel))
  exact ⟨script, m, hparse, hmem, hblock, isBlock_sampleBlock, hedit, hmatches⟩

theorem isBlock_coreBlock : IsBlock coreBlock := by
  let ts := (lex coreBlock).tokens
  refine ⟨by decide +kernel, ts.headD default, ts.tail.dropLast, ts.getLastD default, ?_,
    ⟨?_, ?_, ?_, ?_⟩, balanced_iff_neutral.mpr ?_⟩
  all_goals decide +kernel

/-- An edit may make an assembly that is none of those referred to, but the core framework, which is
not referred to: then `int` is one of the assembly's own types. -/
theorem coreBlock_mismatch :
    ¬ ∀ (options : CompilationOptions) (source : ReferenceSource) (path p b b' s : String)
      (script : Script) (m : MethodDecl), Script.parse (p ++ b ++ s) = .ok script →
        .method m ∈ script.items → m.BlockAt p b → IsBlock b' →
        (∀ a ∈ (create options [⟨path, p ++ b ++ s⟩] source).references,
          a.identity ≠ (create options [⟨path, p ++ b ++ s⟩] source).assembly) →
        (∀ a ∈ (create options [⟨path, p ++ b' ++ s⟩] source).references,
          a.identity ≠ (create options [⟨path, p ++ b' ++ s⟩] source).assembly) →
        (create options [⟨path, p ++ b ++ s⟩] source).Matches
          (create options [⟨path, p ++ b' ++ s⟩] source) := by
  intro h
  obtain ⟨script, m, hparse, hmem, hblock⟩ := @exists_blockAt coreFront "{ }"
    (coreFront ++ "{ }" ++ "") (by decide +kernel)
  have hmatches := h coreOptions noReferences "run.csx" coreFront "{ }" coreBlock "" script m hparse
    hmem hblock isBlock_coreBlock (forall_noReferences _ _) (forall_noReferences _ _)
  have hflag : ((CompilationUnit.mk (create coreOptions
      [⟨"run.csx", coreFront ++ "{ }" ++ ""⟩] noReferences) []).signature ⟨none⟩).toOption.map
        (·.hasLocalTypes) = some false := by decide +kernel
  have hflag' : ((CompilationUnit.mk (create coreOptions
      [⟨"run.csx", coreFront ++ coreBlock ++ ""⟩] noReferences) []).signature ⟨none⟩).toOption.map
        (·.hasLocalTypes) = some true := by decide +kernel
  rcases hmatches.signatures [] ⟨none⟩ with ⟨f, f', hf, hf', hshape⟩ | ⟨e, he, -⟩
  · rw [hf] at hflag
    rw [hf'] at hflag'
    have hfalse : f.hasLocalTypes = false := Option.some.inj hflag
    have htrue : f'.hasLocalTypes = true := Option.some.inj hflag'
    rw [FunctionSignature.sameShape] at hshape
    simp only [Bool.and_eq_true, beq_iff_eq] at hshape
    have hsame : f.hasLocalTypes = f'.hasLocalTypes := hshape.1.2
    rw [hfalse, htrue] at hsame
    exact absurd hsame Bool.false_ne_true
  · rw [he] at hflag
    cases hflag

end Compilation

end ScriptHost
