/-
# What a library finds after any history

A library starts with the four assemblies of the host; then assemblies are registered and
probing folders added, one after the other, while files come into being around it. Whatever
the order of these steps, a reference that names no file gives the assembly that was
registered last under its name in any case of the letters, and a reference that names a file
gives the first file among the places it can stand for: neither looks at what the other does.

Key definitions: `LibraryStep`, `LibraryStep.run`, `SameName`, `NamesFile`, `placesOf`, `Answers`.
Key theorems: `AssemblyLibrary.Knows.register`, `LibraryStep.knows_run`,
`LibraryStep.probingPaths_run`, `LibraryStep.resolve?_run`.
-/
import Mathlib.Data.List.Induction
import ScriptHost.Assembly.Library

namespace ScriptHost

/-! ### First and last -/

section

variable {α : Type} {P : α → Prop} {xs : List α}

/-- `x` is the first element of `xs` that satisfies `P`. -/
def IsFirst (P : α → Prop) (xs : List α) (x : α) : Prop :=
  ∃ before after, xs = before ++ x :: after ∧ P x ∧ ∀ y ∈ before, ¬ P y

/-- `x` is the last element of `xs` that satisfies `P`. -/
def IsLast (P : α → Prop) (xs : List α) (x : α) : Prop :=
  ∃ before after, xs = before ++ x :: after ∧ P x ∧ ∀ y ∈ after, ¬ P y

theorem find?_eq_some_iff_isFirst {p : α → Bool} {x : α} :
    xs.find? p = some x ↔ IsFirst (p ·) xs x := by
  rw [List.find?_eq_some_iff_append]
  constructor
  · rintro ⟨hx, before, after, rfl, hbefore⟩
    exact ⟨before, after, rfl, hx, fun y hy => by simpa using hbefore y hy⟩
  · rintro ⟨before, after, rfl, hx, hbefore⟩
    exact ⟨hx, before, after, rfl, fun y hy => by simpa using hbefore y hy⟩

/-- One more element is the last to satisfy `P` if it does so, and changes nothing if not. -/
theorem isLast_append_singleton {a x : α} :
    IsLast P (xs ++ [a]) x ↔ (P a ∧ x = a) ∨ (¬ P a ∧ IsLast P xs x) := by
  constructor
  · rintro ⟨before, after, heq, hx, hafter⟩
    rcases List.eq_nil_or_concat after with rfl | ⟨after, b, rfl⟩
    · obtain ⟨-, hxa⟩ := List.append_inj' heq rfl
      obtain rfl := List.singleton_inj.mp hxa
      exact .inl ⟨hx, rfl⟩
    · rw [List.concat_eq_append] at heq hafter
      rw [← List.cons_append, ← List.append_assoc] at heq
      obtain ⟨rfl, hab⟩ := List.append_inj' heq rfl
      obtain rfl := List.singleton_inj.mp hab
      refine .inr ⟨hafter a (by simp), before, after, rfl, hx, fun y hy => ?_⟩
      exact hafter y (List.mem_append_left _ hy)
  · rintro (⟨ha, rfl⟩ | ⟨ha, before, after, rfl, hx, hafter⟩)
    · exact ⟨xs, [], rfl, ha, fun y hy => absurd hy List.not_mem_nil⟩
    · refine ⟨before, after ++ [a], by simp, hx, fun y hy => ?_⟩
      rcases List.mem_append.mp hy with hy | hy
      · exact hafter y hy
      · rwa [List.mem_singleton.mp hy]

theorem IsLast.mem {x : α} (h : IsLast P xs x) : x ∈ xs ∧ P x := by
  obtain ⟨before, after, rfl, hx, -⟩ := h
  exact ⟨by simp, hx⟩

/-- Where some element satisfies `P` there is a last one, by induction from the back. -/
theorem exists_isLast {x : α} (hx : x ∈ xs) (hP : P x) : ∃ y, IsLast P xs y := by
  induction xs using List.reverseRecOn with
  | nil => exact absurd hx List.not_mem_nil
  | append_singleton xs a ih =>
    by_cases ha : P a
    · exact ⟨a, isLast_append_singleton.mpr (.inl ⟨ha, rfl⟩)⟩
    · have hmem : x ∈ xs := by
        rcases List.mem_append.mp hx with hx | hx
        · exact hx
        · exact absurd (List.mem_singleton.mp hx ▸ hP) ha
      obtain ⟨y, hy⟩ := ih hmem
      exact ⟨y, isLast_append_singleton.mpr (.inr ⟨ha, hy⟩)⟩

end

/-! ### Names and references -/

/-- Two names agree but for the case of their letters. -/
def SameName (a b : String) : Prop := a.toList.map Char.toLower = b.toList.map Char.toLower

/-- The reference ends in `.dll`, whatever the case of the letters. -/
def NamesFile (reference : String) : Prop :=
  ∃ stem ending, reference.toList = stem ++ ending ∧ ending.map Char.toLower = ".dll".toList

theorem toLower_eq_iff {a b : String} : a.toLower = b.toLower ↔ SameName a b := by
  rw [SameName, ← String.toList_map, ← String.toList_map, String.toList_inj]
  exact Iff.rfl

theorem isFileReference_iff {reference : String} :
    isFileReference reference = true ↔ NamesFile reference := by
  have hlower : reference.toLower.toList = reference.toList.map Char.toLower := String.toList_map
  rw [isFileReference, List.isSuffixOf_iff_suffix, hlower]
  constructor
  · rintro ⟨stem, hstem⟩
    obtain ⟨front, ending, heq, -, hending⟩ := List.map_eq_append_iff.mp hstem.symm
    exact ⟨front, ending, heq, hending⟩
  · rintro ⟨stem, ending, heq, hending⟩
    exact ⟨stem.map Char.toLower, by rw [heq, List.map_append, hending]⟩

/-- The places that a reference to a file can stand for: an absolute one for itself, a relative
one for a file in each of the folders. -/
def placesOf (reference : String) (folders : List String) : List String :=
  if Path.isAbsolute reference then [reference] else folders.map (Path.join · reference)

namespace AssemblyLibrary

/-- A file is looked for at its places, in order. -/
theorem file?_eq_find? (l : AssemblyLibrary) (fs : FileTree) (reference : String)
    (base? : Option String) :
    l.file? fs reference base? =
      (placesOf reference (base?.toList ++ l.probingPaths)).find? fs.isFile := by
  unfold file? placesOf
  by_cases habsolute : Path.isAbsolute reference
  · rw [if_pos habsolute, if_pos habsolute, List.find?_singleton]
  · rw [if_neg habsolute, if_neg habsolute]

/-! ### Shared assemblies -/

/-- Of the registered assemblies, in order, the library finds under each name the last one that
has it. -/
def Knows (l : AssemblyLibrary) (registered : List AssemblyMetadata) : Prop :=
  ∀ name a, l.shared? name = some a ↔ IsLast (fun b => SameName b.name name) registered a

theorem knows_nil (folders : List String) : Knows ⟨[], folders⟩ [] := by
  intro name a
  constructor
  · intro h
    cases h
  · intro h
    exact absurd h.mem.1 List.not_mem_nil

theorem lookup_filter_ne {α β : Type} [BEq α] [LawfulBEq α] {key other : α} (h : other ≠ key) :
    ∀ entries : List (α × β),
      (entries.filter (·.1 != key)).lookup other = entries.lookup other
  | [] => rfl
  | (k, b) :: entries => by
    rw [List.filter_cons]
    by_cases hk : k = key
    · have hother : (other == k) = false := beq_eq_false_iff_ne.mpr (hk ▸ h)
      rw [if_neg (by simpa using hk), lookup_filter_ne h entries, List.lookup_cons, hother]
    · rw [if_pos (by simpa using hk), List.lookup_cons, List.lookup_cons,
        lookup_filter_ne h entries]

theorem shared?_register_of_sameName {l : AssemblyLibrary} {a : AssemblyMetadata} {name : String}
    (h : SameName a.name name) : (l.register a).shared? name = some a := by
  rw [shared?, register, List.lookup_cons, beq_iff_eq.mpr (toLower_eq_iff.mpr h).symm]

/-- Under every other name the library finds what it found before. -/
theorem shared?_register_of_ne {l : AssemblyLibrary} {a : AssemblyMetadata} {name : String}
    (h : ¬ SameName a.name name) : (l.register a).shared? name = l.shared? name := by
  have hne : name.toLower ≠ a.name.toLower := fun heq => h (toLower_eq_iff.mp heq.symm)
  rw [shared?, register, List.lookup_cons, beq_eq_false_iff_ne.mpr hne]
  exact lookup_filter_ne hne l.shared

/-- **An assembly is registered behind others.** -/
theorem Knows.register {l : AssemblyLibrary} {registered : List AssemblyMetadata}
    (h : l.Knows registered) (a : AssemblyMetadata) :
    (l.register a).Knows (registered ++ [a]) := by
  intro name b
  rw [isLast_append_singleton]
  by_cases hname : SameName a.name name
  · rw [shared?_register_of_sameName hname, Option.some_inj, eq_comm]
    simp only [hname, true_and, not_true_eq_false, false_and, or_false]
  · rw [shared?_register_of_ne hname, h name b]
    simp only [hname, false_and, not_false_eq_true, true_and, false_or]

/-- The assemblies that every library starts with. -/
def hostAssemblies : List AssemblyMetadata :=
  [systemRuntime, functionsHost, systemNetHttp, newtonsoftJson]

theorem knows_standard : standard.Knows hostAssemblies :=
  ((((knows_nil []).register systemRuntime).register functionsHost).register systemNetHttp).register
    newtonsoftJson

end AssemblyLibrary

/-! ### Histories -/

/-- What happens to a library and the files around it: an assembly is registered, a folder comes
to those that are probed, or a file is created. -/
inductive LibraryStep where
  | register (a : AssemblyMetadata)
  | probe (folder : String)
  | create (path : String) (content : Bytes)

namespace LibraryStep

def apply : AssemblyLibrary × FileTree → LibraryStep → AssemblyLibrary × FileTree
  | (l, fs), register a => (l.register a, fs)
  | (l, fs), probe folder => (l.addProbingPath folder, fs)
  | (l, fs), create path content => (l, fs.addFile path content)

/-- The library of the host and the files `fs` behind the steps. -/
def run (fs : FileTree) (steps : List LibraryStep) : AssemblyLibrary × FileTree :=
  steps.foldl apply (.standard, fs)

def registered? : LibraryStep → Option AssemblyMetadata
  | register a => some a
  | probe _ | create _ _ => none

def probed? : LibraryStep → Option String
  | probe folder => some folder
  | register _ | create _ _ => none

open AssemblyLibrary

theorem knows_apply {s : AssemblyLibrary × FileTree} {registered : List AssemblyMetadata}
    (h : s.1.Knows registered) (step : LibraryStep) :
    (apply s step).1.Knows (registered ++ step.registered?.toList) := by
  cases step with
  | register a => exact h.register a
  | probe folder =>
    rw [registered?, Option.toList_none, List.append_nil]
    exact h
  | create path content =>
    rw [registered?, Option.toList_none, List.append_nil]
    exact h

/-- The assemblies known behind steps, by induction on them. -/
theorem knows_foldl : ∀ (steps : List LibraryStep) {s : AssemblyLibrary × FileTree}
    {registered : List AssemblyMetadata}, s.1.Knows registered →
      (steps.foldl apply s).1.Knows (registered ++ steps.filterMap registered?)
  | [], s, registered, h => by
    rw [List.filterMap_nil, List.append_nil]
    exact h
  | step :: steps, s, registered, h => by
    have hall := knows_foldl steps (knows_apply h step)
    rw [List.append_assoc] at hall
    cases step <;> exact hall

/-- **The library knows the assemblies of the host and those registered since**, in this order. -/
theorem knows_run (fs : FileTree) (steps : List LibraryStep) :
    (run fs steps).1.Knows (hostAssemblies ++ steps.filterMap registered?) :=
  knows_foldl steps knows_standard

/-- The probing folders behind steps, by induction on them. -/
theorem probingPaths_foldl : ∀ (steps : List LibraryStep) (s : AssemblyLibrary × FileTree),
    (steps.foldl apply s).1.probingPaths = s.1.probingPaths ++ steps.filterMap probed?
  | [], s => (List.append_nil _).symm
  | step :: steps, s => by
    rw [List.foldl_cons, probingPaths_foldl steps]
    cases step with
    | register a => rfl
    | probe folder => exact List.append_assoc _ _ _
    | create path content => rfl

/-- **The probing folders are those that were added**, in this order. -/
theorem probingPaths_run (fs : FileTree) (steps : List LibraryStep) :
    (run fs steps).1.probingPaths = steps.filterMap probed? :=
  probingPaths_foldl steps _

/-! ### Queries -/

/-- What is right to answer for a reference, where the assemblies were registered in this order
and the folders are searched in this order. -/
structure Answers (registered : List AssemblyMetadata) (folders : List String) (fs : FileTree)
    (reference : String) (answer? : Option AssemblyMetadata) : Prop where
  shared : ¬ NamesFile reference → ∀ a,
    (answer? = some a ↔ IsLast (fun b => SameName b.name reference) registered a)
  unknown : ¬ NamesFile reference →
    (answer? = none ↔ ∀ b ∈ registered, ¬ SameName b.name reference)
  file : NamesFile reference → ∀ a,
    (answer? = some a ↔
      ∃ path, IsFirst (fs.isFile ·) (placesOf reference folders) path ∧ a = .ofFile path)
  missing : NamesFile reference →
    (answer? = none ↔ ∀ path ∈ placesOf reference folders, ¬ fs.isFile path)

/-- A library that knows the assemblies answers right. -/
theorem answers_resolve? {l : AssemblyLibrary} {registered : List AssemblyMetadata}
    (h : l.Knows registered) (fs : FileTree) (reference : String) (base? : Option String) :
    Answers registered (base?.toList ++ l.probingPaths) fs reference
      (l.resolve? fs reference base?) := by
  by_cases hfile : NamesFile reference
  · have hresolve : l.resolve? fs reference base? =
        ((placesOf reference (base?.toList ++ l.probingPaths)).find? fs.isFile).map .ofFile := by
      rw [resolve?, if_pos (isFileReference_iff.mpr hfile), file?_eq_find?]
    refine ⟨absurd hfile, absurd hfile, fun _ a => ?_, fun _ => ?_⟩
    · rw [hresolve, Option.map_eq_some_iff]
      refine exists_congr fun path => and_congr find?_eq_some_iff_isFirst eq_comm
    · rw [hresolve, Option.map_eq_none_iff, List.find?_eq_none]
  · have hresolve : l.resolve? fs reference base? = l.shared? reference :=
      if_neg fun hreference => hfile (isFileReference_iff.mp hreference)
    refine ⟨fun _ a => ?_, fun _ => ?_, fun h => absurd h hfile, fun h => absurd h hfile⟩
    · rw [hresolve, h reference a]
    · rw [hresolve]
      constructor
      · intro hnone b hb hname
        obtain ⟨a, ha⟩ := exists_isLast (P := fun b => SameName b.name reference) hb hname
        exact absurd ((h reference a).mpr ha) (by rw [hnone]; exact nofun)
      · intro hall
        cases hshared : l.shared? reference with
        | none => rfl
        | some a =>
          obtain ⟨hmem, hname⟩ := ((h reference a).mp hshared).mem
          exact absurd hname (hall a hmem)

/-- **What a library finds after any history.** A name stands for the assembly registered last
under it, those of the host being the first; a file for the first that is there, in the folder of
the script and then in the probing folders. -/
theorem resolve?_run (fs : FileTree) (steps : List LibraryStep) (reference : String)
    (base? : Option String) :
    Answers (hostAssemblies ++ steps.filterMap registered?)
      (base?.toList ++ steps.filterMap probed?) (run fs steps).2 reference
      ((run fs steps).1.resolve? (run fs steps).2 reference base?) := by
  rw [← probingPaths_run fs steps]
  exact answers_resolve? (knows_run fs steps) _ reference base?

/-- A file that is created after its folder was added is found there, and under its absolute
path. -/
example :
    let steps : List LibraryStep := [.probe "/srv/bin", .create "/srv/bin/A.Dll" []]
    let find (reference : String) :=
      ((run .empty steps).1.resolve? (run .empty steps).2 reference (some "app")).map (·.file?)
    find "A.Dll" = some (some "/srv/bin/A.Dll") ∧
      find "/srv/bin/A.Dll" = some (some "/srv/bin/A.Dll") ∧ find "/bin/A.Dll" = none := by
  decide +kernel

end LibraryStep

end ScriptHost
