/-
# What a successful build hands over

A build compiles the file of a function, emits it into memory and selects the entry point, each
on its own; what it hands over fits together nevertheless. No diagnostic is an error, debug
symbols are there exactly if they are asked for, and the image is read back: its number is that
of any other compilation of the same text, it says whether there are debug symbols, and of its
public methods exactly one has the name of the signature. That one is written with the
signature's parameters, and its body is in the image.

Key definitions: `FunctionAssembly.Matches`.
Key theorems: `CompilationUnit.emit_eq_ok`, `CompilationUnit.method_of_signature`,
`Image.Describes.public_of_methods`, `FunctionMetadata.build_eq_ok_iff`,
`FunctionMetadata.exists_build`, `FunctionMetadata.build_matches`.
-/
import ScriptHost.Host.Service
import ScriptHost.Proofs.Binding.OwnTypes
import ScriptHost.Proofs.Emission.Agreement
import ScriptHost.Proofs.Emission.Places

namespace ScriptHost

/-! ### Emissions of a unit -/

namespace CompilationUnit

variable {u : CompilationUnit} {fs : FileTree} {o : Outputs}

/-- A unit that is emitted without a complaint found no errors, and ran its plan to the end. -/
theorem emit_eq_ok {found : List Diagnostic} (h : (u.emit fs o).1 = .ok found) :
    hasErrors found = false ∧ hasErrors u.compilation.findings = false ∧
      (o.run (u.compilation.plan (u.compilation.writesSymbols o))).1 = .ok () ∧
      (u.emit fs o).2 = (o.run (u.compilation.plan (u.compilation.writesSymbols o))).2 := by
  cases ha : analyze fs u.compilation u.analyzers with
  | error fault =>
    rw [emit_of_fault ha] at h
    cases h
  | ok analyzed =>
    cases hn : hasErrors u.compilation.findings with
    | true =>
      rw [emit_of_errors ha hn] at h
      cases h
    | false =>
      rw [emit_of_run ha hn] at h ⊢
      have hconclude : u.conclude analyzed
          (o.run (u.compilation.plan (u.compilation.writesSymbols o))).1 = .ok found := h
      have hrun := ok_of_conclude (.inl (by rw [hconclude]; rfl))
      rw [hrun, conclude] at hconclude
      split at hconclude
      · cases hconclude
      next hquiet =>
        obtain rfl := Except.ok.inj hconclude
        exact ⟨Bool.eq_false_iff.mpr hquiet, rfl, hrun, rfl⟩

/-- The signature of an entry point is that of the only public method of its name. -/
theorem method_of_signature {policy : EntryPointPolicy} {sig : FunctionSignature}
    (h : u.signature policy = .ok sig) :
    ∃ m, (u.compilation.scriptClass.methods.filter (·.isPublic)).filter (·.name == m.name) = [m] ∧
      sig = .ofMethod m := by
  obtain ⟨m, -, hr, rfl⟩ := resolve_of_signature h
  have honly := EntryPointPolicy.filter_of_resolve hr
  rw [List.filter_map, List.filter_map] at honly
  obtain ⟨k, hk, hkm⟩ := List.map_eq_singleton_iff.mp honly
  obtain rfl : k = m := congrArg MethodReference.method hkm
  exact ⟨k, hk, rfl⟩

end CompilationUnit

/-! ### Methods of an image -/

/-- The public methods of a name among the members of a manifest. -/
def ManifestMember.isPublicMethod (name : String) (x : ManifestMember) : Bool :=
  x.kind == .method && x.isPublic && x.name == name

theorem ManifestMember.isPublicMethod_iff {x : ManifestMember} {name : String} :
    x.isPublicMethod name ↔ x.kind = .method ∧ x.isPublic ∧ x.name = name := by
  rw [isPublicMethod, Bool.and_eq_true, Bool.and_eq_true, beq_iff_eq, beq_iff_eq, and_assoc]

/-- Among the members of a class these are the public methods of the name. -/
theorem filter_isPublicMethod (name : String) : ∀ ms : List Member,
    ms.filter (fun m => (ManifestMember.ofMember none m).isPublicMethod name) =
      (((ms.filterMap Member.method?).filter (·.isPublic)).filter (·.name == name)).map .method
  | [] => rfl
  | m :: ms => by
    have ih := filter_isPublicMethod name ms
    cases m with
    | method m =>
      have hmethod : (ManifestMember.ofMember none (.method m)).isPublicMethod name =
          (m.isPublic && m.name == name) := rfl
      have hmember : Member.method? (.method m) = some m := rfl
      rw [List.filter_cons, hmethod, ih, List.filterMap_cons_some hmember, List.filter_cons]
      cases hpublic : m.isPublic with
      | false => rfl
      | true =>
        rw [if_pos rfl, List.filter_cons, Bool.true_and]
        split <;> rfl
    | field f => exact ih
    | property p => exact ih

/-- **An image lists a public method that no other has the name of once**, as it is written, and
holds its body. -/
theorem Image.Describes.public_of_methods {i : Image} {s : Scope} {c : Compilation}
    (h : i.Describes s c) {m : MethodSymbol}
    (honly : (c.scriptClass.methods.filter (·.isPublic)).filter (·.name == m.name) = [m]) :
    ∃ x, i.manifest.members.filter (·.isPublicMethod m.name) = [x] ∧ x.signature = m.text ∧
      ∃ k, x.body? = some k ∧ k < i.bodies.length := by
  have hmap : (i.manifest.members.filter (·.isPublicMethod m.name)).map
      (fun x => { x with body? := none }) = [.ofMember none (.method m)] := by
    have hmembers := congrArg (List.filter (·.isPublicMethod m.name)) h.members
    rw [List.filter_map, List.filter_map] at hmembers
    refine hmembers.trans ?_
    have hclass := filter_isPublicMethod m.name c.scriptClass.members
    exact (congrArg (List.map (ManifestMember.ofMember none)) hclass).trans
      (by rw [← ScriptClass.methods, honly]; rfl)
  obtain ⟨x, hx, herased⟩ := List.map_eq_singleton_iff.mp hmap
  have hmem : x ∈ i.manifest.members.filter (·.isPublicMethod m.name) :=
    hx ▸ List.mem_singleton_self x
  obtain ⟨hmem, -⟩ := List.mem_filter.mp hmem
  have hkind : x.kind = .method := congrArg ManifestMember.kind herased
  obtain ⟨k, hk⟩ := Option.isSome_iff_exists.mp ((h.hasBody x hmem).mpr hkind)
  refine ⟨x, hx, congrArg ManifestMember.signature herased, k, hk, ?_⟩
  have hnumber : k ∈ i.manifest.members.filterMap (·.body?) ++ i.manifest.statements :=
    List.mem_append_left _ (List.mem_filterMap.mpr ⟨x, hmem, hk⟩)
  exact List.mem_range.mp (h.numbers.mem_iff.mp hnumber)

/-- An image with a public method does not say that it has none. -/
theorem Image.Describes.noPublicEntry_eq_false {i : Image} {s : Scope} {c : Compilation}
    (h : i.Describes s c) {x : ManifestMember} (hx : x ∈ i.manifest.members)
    (hkind : x.kind = .method) (hpublic : x.isPublic) : i.header.flags.noPublicEntry = false := by
  rw [← Bool.not_eq_true]
  intro hnone
  rw [h.noPublicEntry.mp hnone x hx hkind] at hpublic
  exact absurd hpublic Bool.false_ne_true

/-! ### Debug symbols -/

theorem debugSymbols_ofBools (a b c : Bool) : (ImageFlags.ofBools a b c).debugSymbols = a := by
  cases a <;> cases b <;> cases c <;> rfl

/-- A document of debug symbols is not empty. -/
theorem DebugSymbols.bytes_ne_nil (s : DebugSymbols) : s.bytes ≠ [] := by
  have hbrace : ∃ rest, s.value.pretty = "\x7b" ++ rest := by
    rw [value, Data.Value.ofEntries, List.map_cons, Data.Value.pretty, Data.Value.prettyAt]
    simp only [String.append_assoc]
    exact ⟨_, rfl⟩
  obtain ⟨rest, hrest⟩ := hbrace
  rw [bytes, hrest, Utf8.bytes_append]
  exact List.append_ne_nil_of_left_ne_nil (by decide) _

/-- What a sink for debug symbols took is kept if it is anything. -/
theorem Outputs.kept_isSome_iff (o : Outputs) :
    ((o.symbols?.map Sink.taken).filter (!·.isEmpty)).isSome ↔ o.symbolsTaken ≠ [] := by
  unfold symbolsTaken
  cases o.symbols? with
  | none => simp
  | some sink => cases sink.taken <;> simp [Option.filter]

namespace FunctionMetadata

/-- Debug symbols are written to memory if they are asked for. -/
theorem writesSymbols_outputs (c : Compilation) :
    c.writesSymbols (outputs c.options) = c.options.emitDebugSymbols := by
  unfold Compilation.writesSymbols outputs
  cases c.options.emitDebugSymbols <;> rfl

theorem symbols?_outputs (options : CompilationOptions) :
    (outputs options).symbols?.isSome = options.emitDebugSymbols ∧
      (outputs options).symbolsTaken = [] := by
  unfold outputs Outputs.symbolsTaken
  cases options.emitDebugSymbols <;> exact ⟨rfl, rfl⟩

/-- Nothing disturbs an emission into memory. -/
theorem outputs_isUndisturbed (options : CompilationOptions) :
    (outputs options).IsUndisturbed ∧ (outputs options).IsFresh := by
  unfold outputs
  cases options.emitDebugSymbols
  · exact ⟨⟨rfl, rfl, by simp, by simp, rfl⟩, ⟨rfl, rfl⟩⟩
  · exact ⟨⟨rfl, rfl, by simp [Sink.unlimited], by simp [Sink.unlimited], rfl⟩, ⟨rfl, rfl⟩⟩

/-- **What a plan that goes through leaves in memory** is the image, and debug symbols exactly if
they are asked for. -/
theorem run_outputs {c : Compilation}
    (h : ((outputs c.options).run (c.plan c.options.emitDebugSymbols)).1 = .ok ()) :
    (c.image c.options.emitDebugSymbols).bytes? =
        .ok ((outputs c.options).run (c.plan c.options.emitDebugSymbols)).2.image.taken ∧
      (((outputs c.options).run (c.plan c.options.emitDebugSymbols)).2.symbolsTaken ≠ [] ↔
        c.options.emitDebugSymbols) := by
  obtain ⟨hsink, hempty⟩ := symbols?_outputs c.options
  obtain ⟨bs, hbytes, himage, hsymbols⟩ := Compilation.run_plan_through h
  have hnothing : (outputs c.options).image.taken = [] := rfl
  rw [hnothing, List.nil_append] at himage
  refine ⟨by rw [hbytes, himage], ?_⟩
  cases hwanted : c.options.emitDebugSymbols with
  | true =>
    rw [hwanted] at hsink hsymbols
    rw [hsymbols rfl hsink, hempty, List.nil_append]
    exact iff_of_true c.debugSymbols.bytes_ne_nil rfl
  | false =>
    have hkeeps := (outputs c.options).symbols?_run (c.plan false) fun bs hbs => by
      rw [Compilation.plan_eq, Compilation.symbolSteps, if_neg Bool.false_ne_true,
        List.append_nil] at hbs
      exact Compilation.symbols_not_mem_steps _ bs hbs
    have hnone : ((outputs c.options).run (c.plan false)).2.symbolsTaken = [] := by
      rw [Outputs.symbolsTaken, hkeeps]
      exact hempty
    exact iff_of_false (fun hne => hne hnone) Bool.false_ne_true

end FunctionMetadata

/-! ### Builds -/

/-- What was built agrees with the image that it holds. -/
structure FunctionAssembly.Matches (a : FunctionAssembly) (i : Image) : Prop where
  debugSymbols : i.header.flags.debugSymbols ↔ a.symbols?.isSome
  noPublicEntry : i.header.flags.noPublicEntry = false
  /-- One public method has the name of the signature; it is written with the signature's
  parameters, and its body is one of the image. -/
  method : ∃ x, i.manifest.members.filter (·.isPublicMethod a.signature.method) = [x] ∧
    (∃ returns : TypeSymbol, x.signature =
      s!"{returns.text} {a.signature.method}{parameterListText a.signature.parameters}") ∧
    ∃ k, x.body? = some k ∧ k < i.bodies.length

/-- **The image of a compilation matches a signature that its class has once**, and debug symbols
that were written along. -/
theorem Compilation.image_matches {options : CompilationOptions} {sources : List SourceText}
    {source : ReferenceSource} {ws : Bool} {a : FunctionAssembly} {m : MethodSymbol}
    (hclean : hasErrors (create options sources source).findings = false)
    (honly : ((create options sources source).scriptClass.methods.filter (·.isPublic)).filter
      (·.name == m.name) = [m])
    (hsignature : a.signature = .ofMethod m) (hsymbols : a.symbols?.isSome = ws) :
    a.Matches ((create options sources source).image ws) := by
  have hdescribes := image_describes hclean ws
  obtain ⟨x, hx, htext, hbody⟩ := hdescribes.public_of_methods honly
  have hname : a.signature.method = m.name := by rw [hsignature]; rfl
  have hparameters : a.signature.parameters = m.parameters := by rw [hsignature]; rfl
  have hflag : ((create options sources source).image ws).header.flags.debugSymbols = ws :=
    debugSymbols_ofBools _ _ _
  have hmem : x ∈ ((create options sources source).image ws).manifest.members.filter
      (·.isPublicMethod m.name) := hx ▸ List.mem_singleton_self x
  obtain ⟨hmem, hpublic⟩ := List.mem_filter.mp hmem
  obtain ⟨hkind, hpublic, -⟩ := ManifestMember.isPublicMethod_iff.mp hpublic
  have hentry := hdescribes.noPublicEntry_eq_false hmem hkind hpublic
  refine ⟨by rw [hflag, hsymbols], hentry, x, ?_, ⟨m.returns, ?_⟩, hbody⟩
  · rw [hname, hx]
  · rw [htext, hname, hparameters]
    rfl

namespace FunctionMetadata

variable {f : FunctionMetadata} {options : CompilationOptions} {source : ReferenceSource}
  {fs : FileTree} {u : CompilationUnit} {a : FunctionAssembly} {cancelled : Bool}

/-- The unit of a function is the compilation of its file. -/
theorem unit_eq_ok (h : f.unit options source fs = .ok u) :
    ∃ text, fs.readText f.scriptFile = .ok text ∧
      u = ⟨.create options [⟨f.scriptFile, text⟩] source, hostAnalyzers⟩ := by
  unfold unit at h
  split at h
  · cases h
  · split at h
    · cases h
    next text htext => exact ⟨text, htext, (Except.ok.inj h).symm⟩

/-- **When a build succeeds**, and what it hands over: the build is not cancelled, the file is
compiled and emitted, and the entry point selected. -/
theorem build_eq_ok_iff : f.build options source fs cancelled = .ok a ↔
    cancelled = false ∧ ∃ u found sig, f.unit options source fs = .ok u ∧
      (u.emit fs (outputs options)).1 = .ok found ∧ u.signature f.policy = .ok sig ∧
      a = ⟨f.name, sig, (u.emit fs (outputs options)).2.image.taken,
        ((u.emit fs (outputs options)).2.symbols?.map Sink.taken).filter (!·.isEmpty), found⟩ := by
  constructor
  · intro h
    unfold build at h
    -- the cases are the ways out of a build, in order; only the last is a success
    cases hunit : f.unit options source fs with
    | error e =>
      rw [hunit] at h
      cases h
    | ok u =>
      simp only [hunit, bind, Except.bind] at h
      cases hds : u.diagnostics fs with
      | error fault =>
        rw [hds] at h
        cases h
      | ok ds =>
        simp only [hds] at h
        cases cancelled with
        | true => cases h
        | false =>
          rcases hemit : u.emit fs (outputs options) with ⟨e | found, o⟩
          · rw [hemit] at h
            cases h
          · simp only [hemit] at h
            cases hsig : u.signature f.policy with
            | error e =>
              rw [hsig] at h
              cases h
            | ok sig =>
              rw [hsig] at h
              obtain rfl := Except.ok.inj h
              exact ⟨rfl, u, found, sig, rfl, by rw [hemit], hsig, by rw [hemit]⟩
  · rintro ⟨rfl, u, found, sig, hunit, hemit, hsig, rfl⟩
    have hds : ∃ ds, u.diagnostics fs = .ok ds := by
      cases hds : u.diagnostics fs with
      | ok ds => exact ⟨ds, rfl⟩
      | error fault =>
        rw [CompilationUnit.emit_of_fault (CompilationUnit.diagnostics_eq_error_iff.mp hds)] at hemit
        cases hemit
    obtain ⟨ds, hds⟩ := hds
    rcases hout : u.emit fs (outputs options) with ⟨result, o⟩
    rw [hout] at hemit
    obtain rfl : result = .ok found := hemit
    simp only [build, hunit, hds, hout, hsig, bind, Except.bind, Bool.false_eq_true, ↓reduceIte]
    rfl

/-- **A build succeeds** if it is not cancelled, the file is compiled without errors, its image
fits the format and the entry point is found. -/
theorem exists_build {ds : List Diagnostic} {sig : FunctionSignature}
    (hunit : f.unit options source fs = .ok u) (hds : u.diagnostics fs = .ok ds)
    (hquiet : hasErrors ds = false) (hfits : (u.compilation.image options.emitDebugSymbols).Fits)
    (hsig : u.signature f.policy = .ok sig) : ∃ a, f.build options source fs false = .ok a := by
  obtain ⟨found, ha, rfl⟩ := CompilationUnit.diagnostics_eq_ok_iff.mp hds
  obtain ⟨hu, hfresh⟩ := outputs_isUndisturbed options
  have hoptions : u.compilation.options = options := by
    obtain ⟨text, -, rfl⟩ := unit_eq_ok hunit
    rfl
  have hwrites : u.compilation.writesSymbols (outputs options) = options.emitDebugSymbols := by
    rw [← hoptions, writesSymbols_outputs]
  have hemit := (CompilationUnit.agrees_of_found hu hfresh ha).emitted
    (.inr (by rw [hwrites]; exact hfits))
  rw [if_neg (by simp [hquiet])] at hemit
  exact ⟨_, build_eq_ok_iff.mpr ⟨rfl, u, _, sig, hunit, hemit, hsig, rfl⟩⟩

/-- Compilations of one text have one number, whatever the options and the assemblies. -/
theorem mvid_of_unit {options' : CompilationOptions} {source' : ReferenceSource} {fs' : FileTree}
    {u' : CompilationUnit} (h : f.unit options source fs = .ok u)
    (h' : f.unit options' source' fs' = .ok u')
    (hsame : fs'.readText f.scriptFile = fs.readText f.scriptFile) :
    u.compilation.assembly.mvid = u'.compilation.assembly.mvid := by
  obtain ⟨text, htext, rfl⟩ := unit_eq_ok h
  obtain ⟨text', htext', rfl⟩ := unit_eq_ok h'
  rw [hsame, htext] at htext'
  obtain rfl := Except.ok.inj htext'
  rfl

/-- **What a successful build hands over fits together.** There is no error among the diagnostics,
debug symbols are there exactly if they are asked for, and the image is read back, as one that
agrees with what was built. Its number is that of every compilation of the same text, so also of
a fresh one of the same file. -/
theorem build_matches (h : f.build options source fs cancelled = .ok a) :
    hasErrors a.diagnostics = false ∧
      (a.symbols?.isSome ↔ options.emitDebugSymbols) ∧
      ∃ i, a.loadImage = .ok i ∧ a.Matches i ∧
        (∃ u, f.unit options source fs = .ok u ∧ i.header.mvid = u.compilation.assembly.mvid) ∧
        ∀ options' source' fs' u, fs'.readText f.scriptFile = fs.readText f.scriptFile →
          f.unit options' source' fs' = .ok u → i.header.mvid = u.compilation.assembly.mvid := by
  obtain ⟨-, u, found, sig, hunit, hemit, hsig, ha⟩ := build_eq_ok_iff.mp h
  obtain ⟨text, -, hu⟩ := unit_eq_ok hunit
  obtain ⟨hquiet, hclean, hrun, hleft⟩ := CompilationUnit.emit_eq_ok hemit
  obtain ⟨m, honly, rfl⟩ := CompilationUnit.method_of_signature hsig
  have hcompilation : u.compilation = .create options [⟨f.scriptFile, text⟩] source :=
    congrArg CompilationUnit.compilation hu
  have hoptions : options = u.compilation.options := by
    rw [hcompilation]
    rfl
  rw [hoptions, writesSymbols_outputs] at hrun hleft
  obtain ⟨hbytes, hsymbols⟩ := run_outputs hrun
  rw [← hleft, ← hoptions, hcompilation] at hbytes
  rw [← hleft, ← hoptions] at hsymbols
  rw [hcompilation] at hclean honly
  have hsome : a.symbols?.isSome = options.emitDebugSymbols := by
    rw [ha, Bool.eq_iff_iff, Outputs.kept_isSome_iff]
    exact hsymbols
  have hload : a.loadImage = .ok ((Compilation.create options [⟨f.scriptFile, text⟩] source).image
      options.emitDebugSymbols) := by
    rw [FunctionAssembly.loadImage, ha, Compilation.read_image hclean hbytes]
    rfl
  have hmatches := Compilation.image_matches hclean honly (by rw [ha]) hsome
  have hmvid : u.compilation.assembly.mvid = ((Compilation.create options [⟨f.scriptFile, text⟩]
      source).image options.emitDebugSymbols).header.mvid := by
    rw [hcompilation]
    rfl
  refine ⟨by rw [ha]; exact hquiet, by rw [hsome], _, hload, hmatches, ⟨u, hunit, hmvid.symm⟩, ?_⟩
  intro options' source' fs' u' hsame hunit'
  rw [← hmvid]
  exact mvid_of_unit hunit hunit' hsame

/-- A function of one file, its text and the file. -/
def hello : FunctionMetadata := ⟨"Hello", "/srv/hello/run.csx", none⟩

def helloText : String := "void Help() { }\npublic void Run(int count) { Help(); }"

def helloTree : FileTree := FileTree.empty.addFile hello.scriptFile (Utf8.bytes helloText)

theorem hello_matches :
    ∃ a, hello.build .standard (AssemblyLibrary.standard.source helloTree) helloTree false = .ok a ∧
      hasErrors a.diagnostics = false ∧
      (a.symbols?.isSome ↔ CompilationOptions.standard.emitDebugSymbols) ∧
      ∃ i, a.loadImage = .ok i ∧ a.Matches i ∧
        (∃ u, hello.unit .standard (AssemblyLibrary.standard.source helloTree) helloTree = .ok u ∧
          i.header.mvid = u.compilation.assembly.mvid) ∧
        ∀ options source fs u, fs.readText hello.scriptFile = helloTree.readText hello.scriptFile →
          hello.unit options source fs = .ok u → i.header.mvid = u.compilation.assembly.mvid := by
  have htext : helloTree.readText hello.scriptFile = .ok helloText := by decide +kernel
  have htype : hello.scriptType?.filter (!ScriptType.supported.contains ·) = none := by
    decide +kernel
  have hunit : hello.unit .standard (AssemblyLibrary.standard.source helloTree) helloTree =
      .ok ⟨.create .standard [⟨hello.scriptFile, helloText⟩]
        (AssemblyLibrary.standard.source helloTree), hostAnalyzers⟩ := by
    rw [unit, htype, htext]
  have hfound : ((CompilationUnit.mk (.create .standard [⟨hello.scriptFile, helloText⟩]
      (AssemblyLibrary.standard.source helloTree)) hostAnalyzers).diagnostics
        helloTree).toOption.map hasErrors = some false := by decide +kernel
  have hmethod : ((CompilationUnit.mk (.create .standard [⟨hello.scriptFile, helloText⟩]
      (AssemblyLibrary.standard.source helloTree)) hostAnalyzers).signature
        hello.policy).toOption.map (·.method) = some "Run" := by decide +kernel
  obtain ⟨ds, hds, hquiet⟩ := Compilation.exists_ok_of_toOption hfound
  obtain ⟨sig, hsig, -⟩ := Compilation.exists_ok_of_toOption hmethod
  obtain ⟨a, ha⟩ := exists_build hunit hds hquiet (by decide +kernel) hsig
  exact ⟨a, ha, build_matches ha⟩

end FunctionMetadata

end ScriptHost
