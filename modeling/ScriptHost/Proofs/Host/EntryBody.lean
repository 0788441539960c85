/-
# The body under the name of an entry point

An image finds the body of a method under its name, and where methods share a name it finds that of
the first one. The entry point is the only public method of its name, but not the first: others that
are not public may be declared in front of it. What is found under the name in the signature is its
body exactly if none of them is, or if the first of them has the same text for a body.

Key definitions: `FunctionMetadata.method`, `FunctionMetadata.EntersAt`.
Key theorems: `Compilation.methods_create`, `Image.Describes.methodBody?_eq`,
`FunctionMetadata.build_body`.
-/
import ScriptHost.Proofs.Host.Build

namespace ScriptHost

/-! ### The methods of a class -/

/-- Among entries with sound bodies the methods are those that have one, by induction on the
entries. -/
theorem filterMap_method?_membersOf : ∀ {es : List (Nat × Entry)}, (∀ e ∈ es, e.2.Sound) →
    (membersOf es).filterMap Member.method? = (methodsOf es).map (·.2.1)
  | [], _ => rfl
  | (_, .statement _) :: es, hs =>
    @filterMap_method?_membersOf es (List.forall_mem_cons.mp hs).2
  | (_, .member m none) :: es, hs => by
    obtain ⟨hm, hes⟩ := List.forall_mem_cons.mp hs
    have ih := filterMap_method?_membersOf hes
    cases m with
    | method m => exact absurd hm Entry.Sound.not_method
    | field f => exact ih
    | property p => exact ih
  | (_, .member m (some body)) :: es, hs => by
    obtain ⟨hm, hes⟩ := List.forall_mem_cons.mp hs
    obtain ⟨method, rfl⟩ := Entry.Sound.exists_method hm
    exact congrArg (method :: ·) (filterMap_method?_membersOf hes)

/-- **The methods of a class without errors are the declared ones**, in order. -/
theorem Compilation.methods_create {options : CompilationOptions} {sources : List SourceText}
    {source : ReferenceSource}
    (hclean : hasErrors (create options sources source).findings = false) :
    (create options sources source).scriptClass.methods =
      ((create options sources source).declared Item.method?).map fun q =>
        ((scopeFor options sources source).method options.scriptClassName q.1.path q.2).1 := by
  have hholds := holds_create hclean
  rw [ScriptClass.methods, hholds.members, filterMap_method?_membersOf hholds.sound,
    methodsOf_entriesOf, declared_eq, List.map_map, List.map_map]
  rfl

/-! ### Looking up a body -/

/-- What is found in a list first, where something is found at the latest behind `before`. -/
theorem find?_split {α : Type} {p : α → Bool} {before after : List α} {x : α} (hx : p x) :
    (before ++ x :: after).find? p = some ((before.find? p).getD x) := by
  rw [List.find?_append, List.find?_cons_of_pos hx]
  cases before.find? p <;> rfl

/-- What is found first in one of two related lists is related to what is found in the other. -/
theorem bind_find?_of_forall₂ {α β γ : Type} {R : α → β → Prop} {p : α → Bool} {q : β → Bool}
    {f : α → Option γ} {g : β → γ} (hR : ∀ x y, R x y → p x = q y ∧ f x = some (g y)) :
    ∀ {xs : List α} {ys : List β}, List.Forall₂ R xs ys →
      (xs.find? p).bind f = (ys.find? q).map g
  | [], [], .nil => rfl
  | x :: xs, y :: ys, .cons hxy hmore => by
    obtain ⟨hp, hf⟩ := hR x y hxy
    rw [List.find?_cons, List.find?_cons, hp]
    cases q y with
    | true => exact hf
    | false => exact bind_find?_of_forall₂ hR hmore

/-- **Under a name an image finds the body of the first declared method of the name.** -/
theorem Image.Describes.methodBody?_eq {i : Image} {s : Scope} {c : Compilation}
    (h : i.Describes s c) (name : String) :
    i.methodBody? name = ((c.declared Item.method?).find? (·.2.name.name == name)).map fun q =>
      q.2.body.text q.1.text := by
  have hfind : i.methodBody? name = ((i.manifest.members.filter (·.kind = .method)).find?
      (·.name == name)).bind fun x => x.body?.bind (i.bodies[·]?) := by
    simp only [List.find?_filter, decide_eq_true_eq, beq_iff_eq]
    rfl
  rw [hfind]
  refine bind_find?_of_forall₂ ?_ h.methods
  rintro x q ⟨k, rfl, -, text, ht, -, hbody⟩
  refine ⟨rfl, ?_⟩
  simp only [ManifestMember.ofMember, Option.bind_some, hbody, Body.text, ht, Option.map_some,
    Option.getD_some]

/-- What the only document of a compilation declares. -/
theorem Compilation.declared_singleton {α : Type} (pick : Item → Option α) (d : Document)
    {c : Compilation} (h : c.documents = [d]) :
    c.declared pick = (d.script.items.filterMap pick).map (d, ·) := by
  rw [declared, h, List.flatMap_singleton]

namespace FunctionMetadata

variable {f : FunctionMetadata} {options : CompilationOptions} {source : ReferenceSource}
  {fs : FileTree} {u : CompilationUnit} {a : FunctionAssembly} {cancelled : Bool} {text : String}

/-- The method that is declared in the file of a function. -/
def method (f : FunctionMetadata) (options : CompilationOptions) (source : ReferenceSource)
    (text : String) (decl : MethodDecl) : MethodSymbol :=
  ((Compilation.scopeFor options [⟨f.scriptFile, text⟩] source).method options.scriptClassName
    f.scriptFile decl).1

/-- The class has the methods that `before`, `decl` and `after` declare in the text, and the policy
selects that of `decl`, which is the only public one of its name. -/
structure EntersAt (f : FunctionMetadata) (options : CompilationOptions) (source : ReferenceSource)
    (text : String) (before : List MethodDecl) (decl : MethodDecl) (after : List MethodDecl) :
    Prop where
  declared : (Script.parseLenient text).1.items.filterMap Item.method? = before ++ decl :: after
  methods : (Compilation.create options [⟨f.scriptFile, text⟩] source).scriptClass.methods =
    (before ++ decl :: after).map (f.method options source text)
  selected : f.policy.resolve ((before ++ decl :: after).map fun d =>
    .ofMethod (f.method options source text d)) =
      .ok (.ofMethod (f.method options source text decl))
  isPublic : (f.method options source text decl).isPublic
  others : ∀ other ∈ before ++ after, other.name.name = decl.name.name →
    (f.method options source text other).isPublic = false

/-- What is selected is declared. -/
theorem exists_entersAt {m : MethodSymbol}
    (hclean : hasErrors (Compilation.create options [⟨f.scriptFile, text⟩] source).findings = false)
    (hr : f.policy.resolve ((Compilation.create options [⟨f.scriptFile, text⟩]
      source).scriptClass.methods.map .ofMethod) = .ok (.ofMethod m)) :
    ∃ before decl after, f.EntersAt options source text before decl after ∧
      m = f.method options source text decl := by
  have hmethods : (Compilation.create options [⟨f.scriptFile, text⟩] source).scriptClass.methods =
      ((Script.parseLenient text).1.items.filterMap Item.method?).map
        (f.method options source text) := by
    rw [Compilation.methods_create hclean, Compilation.declared_singleton _ _ rfl, List.map_map]
    rfl
  rw [hmethods, List.map_map] at hr
  -- the policy selects the only public candidate of its name, so also the only such declaration
  have honly := EntryPointPolicy.filter_of_resolve hr
  rw [List.filter_map, List.filter_map, List.filter_filter] at honly
  obtain ⟨decl, hdecl, hselected⟩ := List.map_eq_singleton_iff.mp honly
  obtain rfl : f.method options source text decl = m := congrArg MethodReference.method hselected
  obtain ⟨before, after, hsplit, hpublic, hothers⟩ := filter_eq_singleton_iff.mp hdecl
  rw [hsplit] at hmethods hr
  refine ⟨before, decl, after, ⟨hsplit, hmethods, hr, ?_, fun other hother hname => ?_⟩, rfl⟩
  · exact (Bool.and_eq_true_iff.mp hpublic).2
  · have hnot := hothers other hother
    simp only [Function.comp_apply, Bool.and_eq_true, not_and] at hnot
    exact Bool.eq_false_iff.mpr (hnot (beq_iff_eq.mpr hname))

/-- The image of a build is that of the compilation of its file. -/
theorem image_of_build (h : f.build options source fs cancelled = .ok a) :
    ∃ (text : String) (u : CompilationUnit), fs.readText f.scriptFile = .ok text ∧
      u.compilation = .create options [⟨f.scriptFile, text⟩] source ∧
      hasErrors u.compilation.findings = false ∧ u.signature f.policy = .ok a.signature ∧
      a.loadImage = .ok (u.compilation.image options.emitDebugSymbols) := by
  obtain ⟨-, u, found, sig, hunit, hemit, hsig, ha⟩ := build_eq_ok_iff.mp h
  obtain ⟨text, htext, hu⟩ := unit_eq_ok hunit
  obtain ⟨-, hclean, hrun, hleft⟩ := CompilationUnit.emit_eq_ok hemit
  have hcompilation : u.compilation = .create options [⟨f.scriptFile, text⟩] source :=
    congrArg CompilationUnit.compilation hu
  have hoptions : options = u.compilation.options := by
    rw [hcompilation]
    rfl
  rw [hoptions, writesSymbols_outputs] at hrun hleft
  obtain ⟨hbytes, -⟩ := run_outputs hrun
  rw [← hleft, ← hoptions, hcompilation] at hbytes
  refine ⟨text, u, htext, hcompilation, hclean, by rw [ha]; exact hsig, ?_⟩
  rw [hcompilation] at hclean
  rw [FunctionAssembly.loadImage, ha, Compilation.read_image hclean hbytes, hcompilation]
  rfl

/-- The text of the first body under the name of `decl`. -/
def firstBody (text : String) (before : List MethodDecl) (decl : MethodDecl) : String :=
  ((before.find? (·.name.name == decl.name.name)).getD decl).body.text text

/-- **What an image of a build finds under the name of the entry point.** The entry point is the
method of one declaration in the file, and the only public one of its name. Under the name stands the
body of the first declaration of the name: that is the entry point's own unless another, which is
not public, is declared in front of it and its body has a different text. -/
theorem build_body (h : f.build options source fs cancelled = .ok a) :
    ∃ text i before decl after, fs.readText f.scriptFile = .ok text ∧ a.loadImage = .ok i ∧
      f.EntersAt options source text before decl after ∧
      a.signature = .ofMethod (f.method options source text decl) ∧
      i.methodBody? a.signature.method = some (firstBody text before decl) ∧
      (i.methodBody? a.signature.method = some (decl.body.text text) ↔
        ∀ first ∈ before.find? (·.name.name == decl.name.name),
          first.body.text text = decl.body.text text) := by
  obtain ⟨text, u, htext, hcompilation, hclean, hsig, hload⟩ := image_of_build h
  obtain ⟨m, -, hr, hm⟩ := CompilationUnit.resolve_of_signature hsig
  rw [hcompilation] at hclean hr hload
  obtain ⟨before, decl, after, henters, rfl⟩ := exists_entersAt hclean hr
  have hname : a.signature.method = decl.name.name := by rw [hm]; rfl
  have hbody := (Compilation.image_describes hclean options.emitDebugSymbols).methodBody?_eq
    decl.name.name
  have hdeclared : (Document.read ⟨f.scriptFile, text⟩).script.items.filterMap Item.method? =
      before ++ decl :: after := henters.declared
  rw [Compilation.declared_singleton _ _ rfl, hdeclared, List.find?_map, Option.map_map] at hbody
  have hfirst := @find?_split _ (·.name.name == decl.name.name) before after decl
    (beq_self_eq_true decl.name.name)
  have hfound : ((Compilation.create options [⟨f.scriptFile, text⟩] source).image
      options.emitDebugSymbols).methodBody? a.signature.method =
        some (firstBody text before decl) := by
    rw [hname, hbody]
    exact congrArg _ hfirst
  refine ⟨text, _, before, decl, after, htext, hload, henters, hm, hfound, ?_⟩
  rw [hfound, firstBody, Option.some_inj]
  cases before.find? (·.name.name == decl.name.name) <;> simp

/-! ### An overload in front of the entry point -/

/-- A function of one file, with a method in front of the entry point that has its name. -/
def overloaded : FunctionMetadata := ⟨"Overloaded", "run.csx", none⟩

def overloadedText : String := "void Run(int a) { First(); }\npublic void Run() { Second(); }"

def overloadedTree : FileTree := FileTree.empty.addFile "run.csx" (Utf8.bytes overloadedText)

def overloadedSource : ReferenceSource := AssemblyLibrary.standard.source overloadedTree

theorem overloaded_readText :
    overloadedTree.readText overloaded.scriptFile = .ok overloadedText := by
  decide +kernel

theorem overloaded_isBuilt :
    ∃ a, overloaded.build .standard overloadedSource overloadedTree false = .ok a := by
  have htype : overloaded.scriptType?.filter (!ScriptType.supported.contains ·) = none := by
    decide +kernel
  have hunit : overloaded.unit .standard overloadedSource overloadedTree =
      .ok ⟨.create .standard [⟨"run.csx", overloadedText⟩] overloadedSource, hostAnalyzers⟩ := by
    rw [unit, htype, overloaded_readText]
    rfl
  have hfound : ((CompilationUnit.mk (.create .standard [⟨"run.csx", overloadedText⟩]
      overloadedSource) hostAnalyzers).diagnostics overloadedTree).toOption.map hasErrors =
        some false := by decide +kernel
  have hmethod : ((CompilationUnit.mk (.create .standard [⟨"run.csx", overloadedText⟩]
      overloadedSource) hostAnalyzers).signature overloaded.policy).toOption.map (·.method) =
        some "Run" := by decide +kernel
  obtain ⟨ds, hds, hquiet⟩ := Compilation.exists_ok_of_toOption hfound
  obtain ⟨sig, hsig, -⟩ := Compilation.exists_ok_of_toOption hmethod
  exact exists_build hunit hds hquiet (by decide +kernel) hsig

theorem overloaded_findsFirst :
    ∃ a text i before decl after,
      overloaded.build .standard overloadedSource overloadedTree false = .ok a ∧
      a.loadImage = .ok i ∧
      overloaded.EntersAt .standard overloadedSource text before decl after ∧
      i.methodBody? a.signature.method = some (firstBody text before decl) := by
  obtain ⟨a, ha⟩ := overloaded_isBuilt
  obtain ⟨text, i, before, decl, after, -, hload, henters, -, hbody, -⟩ := build_body ha
  exact ⟨a, text, i, before, decl, after, ha, hload, henters, hbody⟩

/-- Under the name of the entry point stands the body of the method in front of it. -/
theorem overloaded_body_ne :
    ∃ a i before decl after,
      overloaded.build .standard overloadedSource overloadedTree false = .ok a ∧
      a.loadImage = .ok i ∧
      overloaded.EntersAt .standard overloadedSource overloadedText before decl after ∧
      a.signature = .ofMethod (overloaded.method .standard overloadedSource overloadedText decl) ∧
      decl.body.text overloadedText = "{ Second(); }" ∧
      i.methodBody? a.signature.method = some "{ First(); }" := by
  obtain ⟨a, ha⟩ := overloaded_isBuilt
  obtain ⟨text, u, htext, hcompilation, hclean, hsig, hload⟩ := image_of_build ha
  obtain rfl := Except.ok.inj (overloaded_readText.symm.trans htext)
  obtain ⟨m, -, hr, hm⟩ := CompilationUnit.resolve_of_signature hsig
  rw [hcompilation] at hclean hr hload
  obtain ⟨before, decl, after, henters, rfl⟩ := exists_entersAt hclean hr
  have hpublic : ∀ d ∈ (Script.parseLenient overloadedText).1.items.filterMap Item.method?,
      (overloaded.method .standard overloadedSource overloadedText d).isPublic →
        d.name.name = "Run" ∧ d.body.text overloadedText = "{ Second(); }" := by decide +kernel
  have hmem : decl ∈ (Script.parseLenient overloadedText).1.items.filterMap Item.method? := by
    rw [henters.declared]
    exact List.mem_append_right _ List.mem_cons_self
  obtain ⟨hname, hbody⟩ := hpublic decl hmem henters.isPublic
  have hmethod : a.signature.method = "Run" := by rw [hm]; exact hname
  refine ⟨a, _, before, decl, after, ha, hload, henters, hm, hbody, ?_⟩
  rw [hmethod]
  decide +kernel

end FunctionMetadata

end ScriptHost
