/-
# Aliases and the names that they stand for

An alias of a type and its target, written out, are both looked for in the one namespace that
the target names. So they stand for the same type, or for none and through the same fault, unless
no reference lists a type of the target's name there: the name that is written out then belongs
to the first assembly whose types cannot be listed, if there is one, and the alias stands for
nothing.

Key definitions: `Scope.SameMeaning`.
Key theorems: `Scope.resolve_of_alias`, `Scope.resolve_of_lead`, `Scope.resolve_alias`.
-/
import ScriptHost.Proofs.Binding.Meanings
import ScriptHost.Proofs.Binding.Spelling

namespace ScriptHost

open Source

namespace Scope

variable (s : Scope) (parameters : List String) (path : String)

/-- Two written types with the same arguments and suffixes mean the same: they stand for one
type, and only the arguments are reported, if anything is, or the names of both have one fault,
which is reported last. -/
inductive SameMeaning (t u : TypeExpr) : Prop
  | found (type : TypeSymbol) (findings : List Diagnostic)
      (args : (s.resolveAll parameters path t.args).2 = findings)
      (left : s.resolve parameters path t = ⟨type, findings⟩)
      (right : s.resolve parameters path u = ⟨type, findings⟩)
  | fault (fault : NameFault) (findings : List Diagnostic)
      (args : (s.resolveAll parameters path t.args).2 = findings)
      (left : s.resolve parameters path t =
        ⟨t.suffixes.foldl withSuffix (.unresolved t.name), findings ++
          [.error fault.code (fault.message t.name t.args.length) (.within path t.span)]⟩)
      (right : s.resolve parameters path u =
        ⟨u.suffixes.foldl withSuffix (.unresolved u.name), findings ++
          [.error fault.code (fault.message u.name u.args.length) (.within path u.span)]⟩)

variable {s parameters path}

/-- Written types whose names stand for the same mean the same. -/
theorem sameMeaning_of_standsFor {t u : TypeExpr} (hargs : u.args = t.args)
    (hsuffixes : u.suffixes = t.suffixes) {outcome : Except NameFault TypeSymbol}
    (ht : s.resolve parameters path t = s.standsFor parameters path t outcome)
    (hu : s.resolve parameters path u = s.standsFor parameters path u outcome) :
    s.SameMeaning parameters path t u := by
  cases outcome with
  | ok type =>
    refine .found _ _ rfl ht ?_
    rw [hu, standsFor, hargs, hsuffixes]
  | error fault =>
    refine .fault fault _ rfl ht ?_
    rw [hu, standsFor, hargs]

/-- A name that is written out is looked for where its lead says. -/
theorem resolve_of_lead (s : Scope) (parameters : List String) (path : String) {lead : List Ident}
    (target : Ident) (args : List TypeExpr) (suffixes : List TypeSuffix) (span : Span)
    (hlead : lead ≠ []) :
    s.resolve parameters path (.mk (lead ++ [target]) args suffixes span) =
      s.standsFor parameters path (.mk (lead ++ [target]) args suffixes span)
        (s.lookupQualified (dottedText lead) target.name args.length) := by
  have hname : (TypeExpr.mk (lead ++ [target]) args suffixes span).name = target.name := by
    rw [TypeExpr.name, TypeExpr.path, List.getLast?_concat]
    rfl
  have hqualifier : (TypeExpr.mk (lead ++ [target]) args suffixes span).qualifier? =
      some (dottedText lead) := by
    cases lead with
    | nil => exact absurd rfl hlead
    | cons first more => simp only [TypeExpr.qualifier?, TypeExpr.path, List.dropLast_concat]
  have hlong : (TypeExpr.mk (lead ++ [target]) args suffixes span).path.length ≠ 1 := by
    have hpos := List.length_pos_iff.mpr hlead
    rw [TypeExpr.path, List.length_append, List.length_singleton]
    omega
  rw [resolve_eq_standsFor, meaning_of_word fun hlone => absurd hlone hlong, hname, hqualifier]
  rfl

/-- A qualified name whose qualifier is no alias is looked for in the namespace of this name. Only
if nothing is known of it there, it belongs to the first assembly whose types cannot be listed. -/
theorem lookupQualified_eq_search {namespaceName name : String} {arity : Nat}
    (hnamespace : s.aliases.lookup namespaceName = none)
    (h : s.search (· == namespaceName) name arity = .error .unknown →
      ∀ a ∈ s.references, a.isUnlisted = false) :
    s.lookupQualified namespaceName name arity = s.search (· == namespaceName) name arity := by
  simp only [lookupQualified, hnamespace, Option.getD_none]
  split
  next hunknown =>
    have hnone : s.references.find? (·.isUnlisted) = none := by
      rw [List.find?_eq_none]
      intro a ha
      rw [h hunknown a ha]
      exact Bool.false_ne_true
    rw [hunknown, unlisted, hnone]
  · rfl

theorem lookupQualified_eq_unlisted {namespaceName name : String} {arity : Nat}
    {a : AssemblyMetadata} (hnamespace : s.aliases.lookup namespaceName = none)
    (hunknown : s.search (· == namespaceName) name arity = .error .unknown)
    (ha : s.references.find? (·.isUnlisted) = some a) :
    s.lookupQualified namespaceName name arity =
      .ok (.named (some namespaceName) name .classType a.identity) := by
  simp only [lookupQualified, hnamespace, Option.getD_none, hunknown, unlisted, ha]

/-- An alias of a type is looked for in the namespace of its target, and nowhere else. -/
theorem resolve_of_alias (path : String) {short : Ident} {namespaceName target : String}
    (args : List TypeExpr) (suffixes : List TypeSuffix) (span : Span) (htarget : '.' ∉ target.toList)
    (halias : s.aliases.lookup short.name = some (namespaceName ++ "." ++ target))
    (hkeyword : keywordType? short.name = none) (hparameter : short.name ∉ parameters) :
    s.resolve parameters path (.mk [short] args suffixes span) =
      s.standsFor parameters path (.mk [short] args suffixes span)
        (s.search (· == namespaceName) target args.length) := by
  have hword : s.word? parameters short.name = none := by
    simp only [word?, hkeyword, List.contains_eq_mem, hparameter, decide_false, Bool.false_eq_true,
      if_false]
  have hlookup : s.lookup none short.name args.length =
      s.search (· == namespaceName) target args.length := by
    simp only [lookup, halias, Option.bind_some, splitAtLastPoint?_append htarget]
  rw [resolve_eq_standsFor, meaning_of_word fun _ _ => hword]
  exact congrArg _ hlookup

/-- **An alias of a type and its target, written out, mean the same**, unless no reference lists
a type of the target's name in its namespace and there is one whose types cannot be listed. Then
the alias stands for nothing, and what is written out for a class of the first such reference. -/
theorem resolve_alias (s : Scope) (parameters : List String) (path : String) (lead : List Ident)
    (short target : Ident) (args : List TypeExpr) (suffixes : List TypeSuffix) (span span' : Span)
    (hlead : lead ≠ []) (htarget : '.' ∉ target.name.toList)
    (halias : s.aliases.lookup short.name = some (dottedText lead ++ "." ++ target.name))
    (hnamespace : s.aliases.lookup (dottedText lead) = none)
    (hkeyword : keywordType? short.name = none) (hparameter : short.name ∉ parameters) :
    ((s.search (· == dottedText lead) target.name args.length = .error .unknown →
        ∀ a ∈ s.references, a.isUnlisted = false) →
      s.SameMeaning parameters path (.mk [short] args suffixes span)
        (.mk (lead ++ [target]) args suffixes span')) ∧
    (∀ a, s.search (· == dottedText lead) target.name args.length = .error .unknown →
      s.references.find? (·.isUnlisted) = some a →
        s.resolve parameters path (.mk [short] args suffixes span) =
          s.standsFor parameters path (.mk [short] args suffixes span) (.error .unknown) ∧
        s.resolve parameters path (.mk (lead ++ [target]) args suffixes span') =
          s.standsFor parameters path (.mk (lead ++ [target]) args suffixes span')
            (.ok (.named (some (dottedText lead)) target.name .classType a.identity))) := by
  have hshort := resolve_of_alias path args suffixes span htarget halias hkeyword hparameter
  have hlong := resolve_of_lead s parameters path target args suffixes span' hlead
  constructor
  · intro hlisted
    rw [lookupQualified_eq_search hnamespace hlisted] at hlong
    exact sameMeaning_of_standsFor rfl rfl hshort hlong
  · intro a hunknown ha
    rw [lookupQualified_eq_unlisted hnamespace hunknown ha] at hlong
    rw [hunknown] at hshort
    exact ⟨hshort, hlong⟩

/-- A script with an alias of a listed type and one of a type of an assembly whose types cannot be
listed. -/
def sampleScope : Scope where
  assembly := ⟨"Submission", 42⟩
  declared := []
  references := [systemRuntime, .ofFile "/bin/Contoso.Models.dll"]
  imports := ["System"]
  aliases := [("Id", "System.Guid"), ("Order", "Contoso.Models.Order")]

/-- A dotted name at the start of the script. -/
def sampleName (names : List String) : TypeExpr :=
  .mk (names.map (⟨·, ⟨1, 1, 1⟩⟩)) [] [] ⟨1, 1, 1⟩

theorem sampleScope_unknown :
    sampleScope.search (· == "Contoso.Models") "Order" 0 = .error .unknown := by
  have hnone : sampleScope.candidates (· == "Contoso.Models") "Order" 0 = [] := by decide +kernel
  have harity : sampleScope.visibleArity? (· == "Contoso.Models") "Order" = none := by
    decide +kernel
  simp only [search, hnone, harity]

theorem sampleScope_listed : sampleScope.search (· == "System") "Guid" 0 ≠ .error .unknown := by
  have hone : (sampleScope.candidates (· == "System") "Guid" 0).length = 1 := by decide +kernel
  obtain ⟨found, hfound⟩ := List.length_eq_one_iff.mp hone
  simp only [search, hfound]
  exact fun h => nomatch h

/-- The alias of a listed type means what its target means. That of the unlisted one is reported,
though its target is taken for a class of the assembly whose types cannot be listed. -/
theorem sampleScope_aliases :
    sampleScope.SameMeaning [] "run.csx" (sampleName ["Id"]) (sampleName ["System", "Guid"]) ∧
    (sampleScope.resolve [] "run.csx" (sampleName ["Order"])).findings.map (·.code) = ["FS0246"] ∧
    sampleScope.resolve [] "run.csx" (sampleName ["Contoso", "Models", "Order"]) =
      ⟨.named (some "Contoso.Models") "Order" .classType
        (AssemblyMetadata.ofFile "/bin/Contoso.Models.dll").identity, []⟩ := by
  have hlisted := resolve_alias sampleScope [] "run.csx" [⟨"System", ⟨1, 1, 1⟩⟩]
    ⟨"Id", ⟨1, 1, 1⟩⟩ ⟨"Guid", ⟨1, 1, 1⟩⟩ [] [] ⟨1, 1, 1⟩ ⟨1, 1, 1⟩
    (by decide) (by decide) (by decide +kernel) (by decide +kernel) (by decide) (by decide)
  have hunlisted := resolve_alias sampleScope [] "run.csx"
    [⟨"Contoso", ⟨1, 1, 1⟩⟩, ⟨"Models", ⟨1, 1, 1⟩⟩]
    ⟨"Order", ⟨1, 1, 1⟩⟩ ⟨"Order", ⟨1, 1, 1⟩⟩ [] [] ⟨1, 1, 1⟩ ⟨1, 1, 1⟩
    (by decide) (by decide) (by decide +kernel) (by decide +kernel) (by decide) (by decide)
  have hfirst : sampleScope.references.find? (·.isUnlisted) =
      some (.ofFile "/bin/Contoso.Models.dll") := by decide +kernel
  obtain ⟨hshort, hlong⟩ := hunlisted.2 _ sampleScope_unknown hfirst
  refine ⟨hlisted.1 fun h => absurd h sampleScope_listed, ?_, hlong⟩
  rw [sampleName, List.map_singleton, hshort]
  rfl

/-- An alias and its target may mean different things. -/
theorem alias_ne_target :
    ¬ ∀ (s : Scope) (parameters : List String) (path : String) (lead : List Ident)
      (short target : Ident) (args : List TypeExpr) (suffixes : List TypeSuffix)
      (span span' : Span), lead ≠ [] → '.' ∉ target.name.toList →
        s.aliases.lookup short.name = some (dottedText lead ++ "." ++ target.name) →
          s.aliases.lookup (dottedText lead) = none → keywordType? short.name = none →
            short.name ∉ parameters →
              s.SameMeaning parameters path (.mk [short] args suffixes span)
                (.mk (lead ++ [target]) args suffixes span') := by
  intro h
  have hsame := h sampleScope [] "run.csx" [⟨"Contoso", ⟨1, 1, 1⟩⟩, ⟨"Models", ⟨1, 1, 1⟩⟩]
    ⟨"Order", ⟨1, 1, 1⟩⟩ ⟨"Order", ⟨1, 1, 1⟩⟩ [] [] ⟨1, 1, 1⟩ ⟨1, 1, 1⟩
    (by decide) (by decide) (by decide +kernel) (by decide +kernel) (by decide) (by decide)
  have hshort : sampleScope.resolve [] "run.csx" (.mk [⟨"Order", ⟨1, 1, 1⟩⟩] [] [] ⟨1, 1, 1⟩) =
      sampleScope.standsFor [] "run.csx" (.mk [⟨"Order", ⟨1, 1, 1⟩⟩] [] [] ⟨1, 1, 1⟩)
        (sampleScope.search (· == "Contoso.Models") "Order" 0) :=
    resolve_of_alias "run.csx" [] [] ⟨1, 1, 1⟩ (by decide) (by decide +kernel) (by decide)
      (by decide)
  rw [sampleScope_unknown] at hshort
  have hfound : (sampleScope.resolve [] "run.csx"
      (sampleName ["Contoso", "Models", "Order"])).findings = [] := by
    decide +kernel
  cases hsame with
  | found type findings hargs left right =>
    obtain rfl : [] = findings := hargs
    exact absurd (congrArg Resolved.findings (hshort.symm.trans left)) (List.cons_ne_nil _ _)
  | fault fault findings hargs left right =>
    obtain rfl : [] = findings := hargs
    exact absurd ((congrArg Resolved.findings right).symm.trans hfound) (List.cons_ne_nil _ _)

end Scope

end ScriptHost
