/-
# Where the analyzer and the binder look for a file

A reference to a file is looked for twice. The analyzer looks for it beside the document; the
binder asks a library, which searches the folder of the document and then the probing folders.
So a reference that the analyzer leaves alone is found by the binder, and in the very file that
the analyzer saw, if it is absolute or the document's path names a folder. A relative reference
in a document whose path names none is looked for in the working directory by the analyzer, and
by the binder in the probing folders only: there the two may disagree.

Key definitions: `References.Refers`, `Compilation.Finds`.
Key theorems: `References.refers_ofDocuments`, `Compilation.notFound_mem_iff`,
`Compilation.notBeside_mem_iff`, `AssemblyLibrary.file?_of_isFile_beside`,
`Compilation.file_found_of_unreported`.
-/
import ScriptHost.Analysis
import ScriptHost.Proofs.Assembly.Search
import ScriptHost.Proofs.Binding.Codes

namespace ScriptHost

/-! ### Reports of references -/

namespace SourceReference

@[ext]
theorem ext {r s : SourceReference} (hreference : r.reference = s.reference)
    (hlocation : r.location = s.location) : r = s := by
  cases r
  cases s
  rw [mk.injEq]
  exact ⟨hreference, hlocation⟩

/-- A report that a reference is not found tells which reference it is, and where. -/
theorem notFound_inj {r s : SourceReference} : r.notFound = s.notFound ↔ r = s := by
  refine ⟨fun h => ?_, congrArg notFound⟩
  have hmessage := congrArg Diagnostic.message h
  simp only [notFound, Diagnostic.error, String.append_left_inj, String.append_right_inj,
    toString] at hmessage
  exact SourceReference.ext hmessage (congrArg Diagnostic.location h)

/-- So does a report that a file is not beside its document. -/
theorem notBeside_inj {r s : SourceReference} : r.notBeside = s.notBeside ↔ r = s := by
  refine ⟨fun h => ?_, congrArg notBeside⟩
  have hmessage := congrArg Diagnostic.message h
  simp only [notBeside, Diagnostic.warning, String.append_left_inj, String.append_right_inj,
    toString] at hmessage
  exact SourceReference.ext hmessage (congrArg Diagnostic.location h)

end SourceReference

/-- A reference tells the path of the document that it stands in. -/
theorem Document.path_of_mem_references {d : Document} {r : SourceReference}
    (hr : r ∈ d.references) : r.location.path? = some d.path := by
  obtain ⟨directive, -, rfl⟩ := List.mem_map.mp hr
  rfl

/-- So the documents in which one reference stands are in one folder. -/
theorem Document.folder?_eq_of_mem_references {d k : Document} {r : SourceReference}
    (hd : r ∈ d.references) (hk : r ∈ k.references) : d.folder? = k.folder? := by
  have hpath := (path_of_mem_references hd).symm.trans (path_of_mem_references hk)
  rw [folder?, folder?, Option.some_inj.mp hpath]

/-! ### Assemblies that are referred to -/

/-- A fold reaches what one of its steps brings about and every step keeps. -/
theorem foldl_of_mem {σ α : Type} {P : σ → Prop} {f : σ → α → σ} {x : α}
    (hkeep : ∀ s y, P s → P (f s y)) (hbring : ∀ s, P (f s x)) :
    ∀ {xs : List α}, x ∈ xs → ∀ s, P (xs.foldl f s)
  | y :: ys, hx, s => by
    rcases List.mem_cons.mp hx with rfl | hx
    · exact List.foldlRecOn (motive := P) ys f (hbring s) fun s hs y _ => hkeep s y hs
    · exact foldl_of_mem hkeep hbring hx (f s y)

namespace References

/-- One of the assemblies has the identity. -/
def Refers (identity : AssemblyIdentity) (rs : References) : Prop :=
  ∃ a ∈ rs.assemblies, a.identity = identity

variable {source : ReferenceSource} {folder? : Option String} {r : SourceReference}

theorem Refers.add {identity : AssemblyIdentity} {rs : References} (h : rs.Refers identity)
    (r : SourceReference) : (add source folder? rs r).Refers identity := by
  obtain ⟨a, ha, hidentity⟩ := h
  rcases add_cases source folder? rs r with hsame | ⟨b, -, hmore⟩
  · exact ⟨a, hsame ▸ ha, hidentity⟩
  · exact ⟨a, hmore ▸ List.mem_append_left _ ha, hidentity⟩

theorem refers_add {a : AssemblyMetadata} (h : source.resolve? r.reference folder? = some a)
    (rs : References) : (References.add source folder? rs r).Refers a.identity := by
  simp only [References.add, h]
  by_cases hknown : rs.assemblies.any (·.identity == a.identity)
  · obtain ⟨b, hb, hidentity⟩ := List.any_eq_true.mp hknown
    rw [if_pos hknown]
    exact ⟨b, hb, beq_iff_eq.mp hidentity⟩
  · rw [if_neg hknown]
    exact ⟨a, List.mem_append_right _ (List.mem_singleton_self a), rfl⟩

/-- **What a reference is resolved to is referred to**, or an assembly of the same identity is. -/
theorem refers_ofDocuments {documents : List Document} {d : Document} (hd : d ∈ documents)
    (hr : r ∈ d.references) {a : AssemblyMetadata}
    (h : source.resolve? r.reference d.folder? = some a) :
    (ofDocuments source documents).Refers a.identity := by
  refine foldl_of_mem (fun rs d hrs => ?_) (fun rs => ?_) hd _
  · exact List.foldlRecOn (motive := Refers a.identity) d.references _ hrs
      fun rs hrs r _ => hrs.add r
  · exact foldl_of_mem (fun rs r hrs => hrs.add r) (refers_add h) hr rs

end References

/-! ### What is reported -/

namespace Compilation

variable {options : CompilationOptions} {sources : List SourceText} {source : ReferenceSource}
  {d : Document} {r : SourceReference}

/-- **A reference is reported as not found exactly if nobody knows it.** -/
theorem notFound_mem_iff (hd : d ∈ (create options sources source).documents)
    (hr : r ∈ d.references) :
    r.notFound ∈ (create options sources source).findings ↔
      source.resolve? r.reference d.folder? = none := by
  constructor
  · intro h
    obtain ⟨k, -, s, hs, hnone, heq⟩ := eq_notFound_of_code h rfl
    obtain rfl := SourceReference.notFound_inj.mp heq
    rw [Document.folder?_eq_of_mem_references hr hs, hnone]
  · intro hnone
    have hunknown : r ∈ References.unknownOf source d.folder? d.references :=
      List.mem_filter.mpr ⟨hr, Option.isNone_iff_eq_none.mpr hnone⟩
    have hmem : r.notFound ∈ (References.ofDocuments source (sources.map Document.read)).findings := by
      rw [References.findings_ofDocuments]
      exact List.mem_flatMap.mpr ⟨d, hd, List.mem_map_of_mem hunknown⟩
    refine List.mem_append_left _ (List.mem_append_left _ (List.mem_append_left _ ?_))
    exact List.mem_append_right _ hmem

/-- **The analyzer reports a file reference exactly if there is no file beside the document.** -/
theorem notBeside_mem_iff (fs : FileTree) {documents : List Document} (hd : d ∈ documents)
    (hr : r ∈ d.references) (hfile : NamesFile r.reference) :
    r.notBeside ∈ documents.flatMap (missingFileReferences fs) ↔
      ¬ fs.isFile (besideDocument d r.reference) := by
  have hreference : isFileReference r.reference = true := isFileReference_iff.mpr hfile
  constructor
  · intro h
    obtain ⟨k, -, h⟩ := List.mem_flatMap.mp h
    obtain ⟨s, hs, heq⟩ := List.mem_map.mp h
    obtain rfl := SourceReference.notBeside_inj.mp heq
    obtain ⟨hs, hmissing⟩ := List.mem_filter.mp hs
    rw [hreference, Bool.true_and, besideDocument,
      Document.folder?_eq_of_mem_references hs hr] at hmissing
    rw [besideDocument]
    simpa using hmissing
  · intro h
    refine List.mem_flatMap.mpr ⟨d, hd, List.mem_map_of_mem (List.mem_filter.mpr ⟨hr, ?_⟩)⟩
    rw [hreference, Bool.true_and]
    simpa using h

end Compilation

/-! ### Where both look -/

theorem Path.join_of_isAbsolute {path : String} (h : isAbsolute path) (base : String) :
    join base path = path := by
  rw [join, h, Bool.true_or, if_pos rfl]

/-- An absolute reference stands for itself, whatever the document. -/
theorem besideDocument_of_isAbsolute {reference : String} (h : Path.isAbsolute reference)
    (d : Document) : besideDocument d reference = reference := by
  unfold besideDocument
  split
  · exact Path.join_of_isAbsolute h _
  · rfl

/-- **A file beside the document is the first place where a library looks**, if the reference is
absolute or the document has a folder. -/
theorem AssemblyLibrary.file?_of_isFile_beside (l : AssemblyLibrary) {fs : FileTree} {d : Document}
    {reference : String} (hplace : Path.isAbsolute reference ∨ d.folder?.isSome)
    (hbeside : fs.isFile (besideDocument d reference)) :
    l.file? fs reference d.folder? = some (besideDocument d reference) := by
  by_cases habsolute : Path.isAbsolute reference
  · rw [besideDocument_of_isAbsolute habsolute] at hbeside ⊢
    rw [file?, if_pos habsolute, if_pos hbeside]
  · obtain ⟨folder, hfolder⟩ := Option.isSome_iff_exists.mp (hplace.resolve_left habsolute)
    have hplaces : besideDocument d reference = Path.join folder reference := by
      rw [besideDocument, hfolder]
    rw [hplaces] at hbeside ⊢
    rw [file?, if_neg habsolute, hfolder, Option.toList_some, List.singleton_append, List.map_cons,
      List.find?_cons_of_pos hbeside]

namespace Compilation

/-- The compilation refers to the file `path` for a reference in a document of the folder, and
does not report it. -/
structure Finds (c : Compilation) (source : ReferenceSource) (folder? : Option String)
    (r : SourceReference) (path : String) : Prop where
  resolved : source.resolve? r.reference folder? = some (.ofFile path)
  referred : ∃ a ∈ c.references, a.identity = (AssemblyMetadata.ofFile path).identity
  unreported : r.notFound ∉ c.findings

/-- **What the analyzer leaves alone.** The analyzer reports a reference to a file unless it sees
the file beside the document. Where it does, the binder finds this file if the reference is
absolute or the document has a folder; otherwise the binder finds the first file in a probing
folder, and reports the reference if none of these holds it. -/
theorem file_found_of_unreported {options : CompilationOptions} {sources : List SourceText}
    {l : AssemblyLibrary} {fs : FileTree} {d : Document} {r : SourceReference}
    (hd : d ∈ (create options sources (l.source fs)).documents) (hr : r ∈ d.references)
    (hfile : NamesFile r.reference) :
    let c := create options sources (l.source fs)
    ∃ found, invalidFileReference.run fs c = .ok found ∧
      (r.notBeside ∉ found ↔ fs.isFile (besideDocument d r.reference)) ∧
      (r.notBeside ∉ found → Path.isAbsolute r.reference ∨ d.folder?.isSome →
        c.Finds (l.source fs) d.folder? r (besideDocument d r.reference)) ∧
      (¬ Path.isAbsolute r.reference → d.folder? = none →
        (∀ path, IsFirst (fs.isFile ·) (l.probingPaths.map (Path.join · r.reference)) path →
          c.Finds (l.source fs) d.folder? r path) ∧
        (r.notFound ∈ c.findings ↔
          ∀ folder ∈ l.probingPaths, ¬ fs.isFile (Path.join folder r.reference))) := by
  intro c
  have hresolve : (l.source fs).resolve? r.reference d.folder? =
      (l.file? fs r.reference d.folder?).map .ofFile := if_pos (isFileReference_iff.mpr hfile)
  have hreport : r.notFound ∈ c.findings ↔ l.file? fs r.reference d.folder? = none := by
    rw [notFound_mem_iff hd hr, hresolve, Option.map_eq_none_iff]
  have hfinds {path : String} (h : l.file? fs r.reference d.folder? = some path) :
      c.Finds (l.source fs) d.folder? r path := by
    rw [h] at hresolve
    refine ⟨hresolve, References.refers_ofDocuments hd hr hresolve, ?_⟩
    rw [hreport, h]
    exact Option.some_ne_none path
  have hquiet := (notBeside_mem_iff fs hd hr hfile).not_left
  refine ⟨_, rfl, hquiet, fun hunreported hplace => ?_, fun hrelative hnone => ?_⟩
  · exact hfinds (l.file?_of_isFile_beside hplace (hquiet.mp hunreported))
  · have hsearch : l.file? fs r.reference d.folder? =
        (l.probingPaths.map (Path.join · r.reference)).find? fs.isFile := by
      rw [AssemblyLibrary.file?, if_neg hrelative, hnone, Option.toList_none, List.nil_append]
    refine ⟨fun path hpath => hfinds ?_, ?_⟩
    · rw [hsearch, find?_eq_some_iff_isFirst]
      exact hpath
    · rw [hreport, hsearch, List.find?_eq_none, List.forall_mem_map]

/-- A script that refers to a file beside it, in a folder. -/
def libraryUser : SourceText := ⟨"/srv/app/run.csx", "#r \"Lib.dll\"\n"⟩

/-- The file is found where the analyzer sees it. -/
theorem libraryUser_finds :
    let fs := FileTree.empty.addFile "/srv/app/Lib.dll" []
    let c := create .standard [libraryUser] (AssemblyLibrary.standard.source fs)
    ∃ d ∈ c.documents, ∃ r ∈ d.references, NamesFile r.reference ∧ d.folder?.isSome ∧
      ∃ found, invalidFileReference.run fs c = .ok found ∧ r.notBeside ∉ found ∧
        c.Finds (AssemblyLibrary.standard.source fs) d.folder? r (besideDocument d r.reference) := by
  intro fs c
  let d := Document.read libraryUser
  let r : SourceReference := ⟨"Lib.dll", .within libraryUser.path ⟨1, 1, 12⟩⟩
  have hd : d ∈ c.documents := List.mem_singleton_self d
  have hr : r ∈ d.references := by decide +kernel
  have hfile : NamesFile r.reference := isFileReference_iff.mp (by decide +kernel)
  have hfolder : d.folder?.isSome := by decide +kernel
  obtain ⟨found, hrun, hquiet, hfinds, -⟩ := file_found_of_unreported hd hr hfile
  have hunreported : r.notBeside ∉ found := hquiet.mpr (by decide +kernel)
  exact ⟨d, hd, r, hr, hfile, hfolder, found, hrun, hunreported, hfinds hunreported (.inr hfolder)⟩

/-- A file that is named by its absolute path is found for a script in no folder, and by that
path only. -/
example :
    let fs := FileTree.empty.addFile "/srv/bin/Lib.dll" []
    let d := Document.read ⟨"run.csx", "#r \"/srv/bin/Lib.dll\"\n#r \"srv/bin/Lib.dll\"\n"⟩
    d.references.map (fun r => fs.isFile (besideDocument d r.reference)) = [true, false] ∧
      d.references.map (fun r => AssemblyLibrary.standard.file? fs r.reference d.folder?) =
        [some "/srv/bin/Lib.dll", none] := by
  decide +kernel

/-- The same script, named without its folder. -/
def barePathUser : SourceText := ⟨"run.csx", "#r \"Lib.dll\"\n"⟩

/-- A file in the working directory is not found for a script that is named without a folder,
though the analyzer sees it there. -/
theorem barePathUser_disagrees :
    ¬ ∀ (options : CompilationOptions) (sources : List SourceText) (l : AssemblyLibrary)
      (fs : FileTree), let c := create options sources (l.source fs)
      ∀ d ∈ c.documents, ∀ r ∈ d.references, NamesFile r.reference →
        ∀ found, invalidFileReference.run fs c = .ok found → r.notBeside ∉ found →
          ((l.source fs).resolve? r.reference d.folder?).isSome ∧ r.notFound ∉ c.findings := by
  intro h
  let fs := FileTree.empty.addFile "Lib.dll" []
  let d := Document.read barePathUser
  let r : SourceReference := ⟨"Lib.dll", .within "run.csx" ⟨1, 1, 12⟩⟩
  have hr : r ∈ d.references := by decide +kernel
  have hfile : NamesFile r.reference := isFileReference_iff.mp (by decide +kernel)
  have hnone : missingFileReferences fs d = [] := by decide +kernel
  have hrun : invalidFileReference.run fs
      (create .standard [barePathUser] (AssemblyLibrary.standard.source fs)) = .ok [] :=
    congrArg Except.ok (List.flatMap_eq_nil_iff.mpr (List.forall_mem_singleton.mpr hnone))
  have hboth := h .standard [barePathUser] .standard fs d (List.mem_singleton_self d) r hr hfile [] hrun
    List.not_mem_nil
  exact absurd hboth.1 (by decide +kernel)

end Compilation

end ScriptHost
