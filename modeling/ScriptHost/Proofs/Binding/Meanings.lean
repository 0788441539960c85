/-
# What written types stand for, by their names

A written type is resolved in two steps that have nothing to do with each other: its name is
given a meaning, by the words that mean something by themselves or else by what can be looked up,
and its arguments are resolved. What it stands for is made of both, and what is reported of it are
the reports on its arguments and then the fault of its name, if it has one.

Key definitions: `Scope.meaning`, `Scope.standsFor`.
Key theorems: `Scope.resolve_eq_standsFor`, `Scope.findings_resolve_iff`.
-/
import ScriptHost.Binding.Scope

namespace ScriptHost

@[simp] theorem TypeSymbol.instantiate_nil (t : TypeSymbol) : t.instantiate [] = t := rfl

/-- A type without arguments of its own is constructed with those behind its name, if any. -/
theorem TypeSymbol.instantiate_eq_construct {t : TypeSymbol} (h : t.args = []) :
    ∀ args : List TypeSymbol, t.instantiate args = t.construct args
  | [] => by
    obtain ⟨ns, name, kind, owner?, args⟩ := t
    obtain rfl : args = [] := h
    rfl
  | _ :: _ => rfl

theorem frameworkType_args (name : String) : (frameworkType name).args = [] := by
  unfold frameworkType
  split <;> rfl

namespace Scope

section

variable (s : Scope) (parameters : List String) (path : String) (t : TypeExpr)

/-- What the name of a written type stands for, with so many arguments behind it. -/
def meaning : Except NameFault TypeSymbol :=
  match if t.path.length = 1 ∧ t.args = [] then s.word? parameters t.name else none with
  | some type => .ok type
  | none => s.lookup t.qualifier? t.name t.args.length

/-- What a written type stands for, by what its name stands for. -/
def standsFor : Except NameFault TypeSymbol → Resolved
  | .ok type =>
    ⟨t.suffixes.foldl withSuffix (type.instantiate (s.resolveAll parameters path t.args).1),
      (s.resolveAll parameters path t.args).2⟩
  | .error fault =>
    ⟨t.suffixes.foldl withSuffix (.unresolved t.name),
      (s.resolveAll parameters path t.args).2 ++
        [.error fault.code (fault.message t.name t.args.length) (.within path t.span)]⟩

end

variable {s : Scope} {parameters : List String} {path : String} {t : TypeExpr}

/-- A word that means something by itself takes no arguments. -/
theorem args_of_word {name : String} {type : TypeSymbol}
    (h : s.word? parameters name = some type) : type.args = [] := by
  unfold word? at h
  split at h
  next framework _ =>
    obtain rfl := Option.some.inj h
    exact frameworkType_args framework
  · split at h
    · obtain rfl := Option.some.inj h
      rfl
    · cases h

theorem meaning_of_word (h : t.path.length = 1 → t.args = [] → s.word? parameters t.name = none) :
    s.meaning parameters t = s.lookup t.qualifier? t.name t.args.length := by
  unfold meaning
  split
  next type hword =>
    split at hword
    next hlone => exact absurd (hword.symm.trans (h hlone.1 hlone.2)) (Option.some_ne_none _)
    · cases hword
  · rfl

theorem resolveName_eq {types : List TypeSymbol} (hlength : types.length = t.args.length) :
    s.resolveName parameters path t types =
      match s.meaning parameters t with
      | .ok type => ⟨type.instantiate types, []⟩
      | .error fault => ⟨.unresolved t.name,
          [.error fault.code (fault.message t.name t.args.length) (.within path t.span)]⟩ := by
  have hnil : types = [] ↔ t.args = [] := by
    rw [← List.length_eq_zero_iff, hlength, List.length_eq_zero_iff]
  simp only [resolveName, meaning, hnil, hlength]
  cases hword : (if t.path.length = 1 ∧ t.args = [] then s.word? parameters t.name else none) with
  | some type =>
    split at hword
    next hlone =>
      obtain rfl := hnil.mpr hlone.2
      rfl
    · cases hword
  | none => rfl

/-- **A written type stands for what its name and its arguments make.** -/
theorem resolve_eq_standsFor :
    s.resolve parameters path t = s.standsFor parameters path t (s.meaning parameters t) := by
  obtain ⟨segments, args, suffixes, span⟩ := t
  have hlength : (s.resolveAll parameters path args).1.length =
      (TypeExpr.mk segments args suffixes span).args.length := length_resolveAll _ _ _ _
  simp only [resolve, resolveName_eq hlength]
  cases s.meaning parameters (.mk segments args suffixes span) with
  | ok type => simp only [standsFor, TypeExpr.args, TypeExpr.suffixes, List.append_nil]
  | error fault => rfl

/-- Nothing but its arguments is reported of a written type exactly if its name stands for
something. -/
theorem findings_resolve_iff :
    (s.resolve parameters path t).findings = (s.resolveAll parameters path t.args).2 ↔
      ∃ type, s.meaning parameters t = .ok type := by
  rw [resolve_eq_standsFor]
  cases s.meaning parameters t with
  | ok type => exact iff_of_true rfl ⟨type, rfl⟩
  | error fault =>
    refine iff_of_false (fun h => ?_) fun ⟨type, h⟩ => nomatch h
    exact List.cons_ne_nil _ _ (List.append_right_eq_self.mp h)

end Scope

end ScriptHost
