/-
# Which candidate is selected

The choice of an entry point looks at nothing but the public candidates, and not at their order.
With a configured name it falls on the only public candidate of that name. Without one it falls on
a lone public candidate, and among several on the only one that is named `Run` in any case of the
letters. Two candidates that match are refused, under the name that was looked for; where there is
neither a choice nor two that match, nothing is found.

Key definitions: `EntryPointPolicy.Matches`, `EntryPointPolicy.Selects`.
Key theorems: `onlyMethod_perm`, `EntryPointPolicy.resolve_decided`,
`CompilationUnit.resolve_of_signature`.
-/
import ScriptHost.CompilationUnit
import ScriptHost.Proofs.Assembly.Search
import ScriptHost.Proofs.Only

namespace ScriptHost

/-! ### The only method -/

variable {name : String} {ms ks : List MethodReference} {m : MethodReference}

theorem onlyMethod_eq_ok_iff : onlyMethod name ms = .ok m ↔ ms = [m] := by
  unfold onlyMethod
  split <;> simp

theorem onlyMethod_eq_ambiguous_iff {name' : String} :
    onlyMethod name ms = .error (.ambiguous name') ↔
      name' = name ∧ ∃ m k more, ms = m :: k :: more := by
  unfold onlyMethod
  split <;> simp [eq_comm]

theorem onlyMethod_eq_missing_iff : onlyMethod name ms = .error .missing ↔ ms = [] := by
  unfold onlyMethod
  split <;> simp

/-- The order of the methods does not matter. -/
theorem onlyMethod_perm (h : ms.Perm ks) : onlyMethod name ms = onlyMethod name ks := by
  cases ms with
  | nil => rw [h.nil_eq]
  | cons m more =>
    cases more with
    | nil => rw [List.singleton_perm.mp h]
    | cons k more =>
      have hlength : ks.length = more.length + 2 := h.length_eq.symm
      obtain ⟨m', ks, rfl⟩ := List.exists_cons_of_length_pos (by omega : 0 < ks.length)
      rw [List.length_cons] at hlength
      obtain ⟨k', ks, rfl⟩ := List.exists_cons_of_length_pos (by omega : 0 < ks.length)
      rfl

namespace EntryPointPolicy

variable {policy : EntryPointPolicy} {candidates others : List MethodReference}

/-! ### What is selected -/

/-- A policy selects the only public candidate whose name passes a test. -/
theorem exists_test_of_resolve (h : policy.resolve ms = .ok m) :
    ∃ test : String → Bool, (ms.filter (·.isPublic)).filter (test ·.name) = [m] := by
  simp only [resolve] at h
  split at h
  next name _ => exact ⟨(· == name), onlyMethod_eq_ok_iff.mp h⟩
  · split at h
    next k hvisible =>
      obtain rfl := Except.ok.inj h
      exact ⟨fun _ => true, by rw [hvisible]; rfl⟩
    · exact ⟨(·.toLower == defaultEntryPoint.toLower), onlyMethod_eq_ok_iff.mp h⟩

/-- So it is the only public candidate of its name. -/
theorem filter_of_resolve (h : policy.resolve ms = .ok m) :
    (ms.filter (·.isPublic)).filter (·.name == m.name) = [m] := by
  obtain ⟨test, htest⟩ := exists_test_of_resolve h
  generalize ms.filter (·.isPublic) = visible at htest ⊢
  have hm : test m.name := by
    have hmem : m ∈ visible.filter (test ·.name) := htest ▸ List.mem_singleton_self m
    exact (List.mem_filter.mp hmem).2
  have hsame : ∀ k : MethodReference, (k.name == m.name && test k.name) = (k.name == m.name) := by
    intro k
    by_cases hk : k.name = m.name
    · rw [hk, hm, Bool.and_true]
    · rw [beq_eq_false_iff_ne.mpr hk, Bool.false_and]
  calc visible.filter (·.name == m.name)
      = (visible.filter (test ·.name)).filter (·.name == m.name) := by
        rw [List.filter_filter]
        exact List.filter_congr fun k _ => (hsame k).symm
    _ = [m] := by
        rw [htest]
        simp

/-- A policy selects one of the candidates. -/
theorem mem_of_resolve (h : policy.resolve ms = .ok m) : m ∈ ms := by
  have hmem : m ∈ (ms.filter (·.isPublic)).filter (·.name == m.name) :=
    filter_of_resolve h ▸ List.mem_singleton_self m
  exact (List.mem_filter.mp (List.mem_filter.mp hmem).1).1

/-! ### What a policy looks for -/

/-- A public candidate that has the name which the policy goes by: exactly the configured one, or
the default one in any case of the letters. -/
def Matches (policy : EntryPointPolicy) (k : MethodReference) : Prop :=
  k.isPublic ∧
    match policy.name? with
    | some name => k.name = name
    | none => SameName k.name defaultEntryPoint

/-- The policy selects `m`: the only candidate that matches or, without a configured name, a lone
public one. -/
def Selects (policy : EntryPointPolicy) (candidates : List MethodReference) (m : MethodReference) :
    Prop :=
  match policy.name? with
  | some _ => IsOnly policy.Matches candidates m
  | none =>
    IsOnly (·.isPublic) candidates m ∨
      HasTwo (·.isPublic) candidates ∧ IsOnly policy.Matches candidates m

/-- The name that the policy goes by. -/
def sought (policy : EntryPointPolicy) : String := policy.name?.getD defaultEntryPoint

/-- Whether a candidate matches. -/
def accepts (policy : EntryPointPolicy) (k : MethodReference) : Bool :=
  k.isPublic &&
    match policy.name? with
    | some name => k.name == name
    | none => k.name.toLower == defaultEntryPoint.toLower

theorem accepts_iff {k : MethodReference} : policy.accepts k = true ↔ policy.Matches k := by
  unfold accepts Matches
  cases policy.name? with
  | some name => simp
  | none => simp [toLower_eq_iff]

theorem accepts_eq (policy : EntryPointPolicy) : (fun k => policy.accepts k = true) = policy.Matches :=
  funext fun _ => propext accepts_iff

/-! ### How a policy resolves -/

/-- The candidates that match. -/
theorem filter_accepts (policy : EntryPointPolicy) (candidates : List MethodReference) :
    candidates.filter policy.accepts = (candidates.filter (·.isPublic)).filter fun k =>
      match policy.name? with
      | some name => k.name == name
      | none => k.name.toLower == defaultEntryPoint.toLower := by
  rw [List.filter_filter]
  exact List.filter_congr fun k _ => Bool.and_comm _ _

/-- Without a configured name a lone public candidate is selected. -/
theorem resolve_of_lone (hname : policy.name? = none) (h : candidates.filter (·.isPublic) = [m]) :
    policy.resolve candidates = .ok m := by
  simp only [resolve, hname, h]

/-- Everywhere else the only candidate that matches is. -/
theorem resolve_of_not_lone
    (h : policy.name? = none → ∀ m, candidates.filter (·.isPublic) ≠ [m]) :
    policy.resolve candidates = onlyMethod policy.sought (candidates.filter policy.accepts) := by
  rw [filter_accepts]
  unfold resolve sought
  cases hname : policy.name? with
  | some name => rfl
  | none =>
    simp only
    split
    next m hlone => exact absurd hlone (h hname m)
    · rfl

/-- **The choice looks at nothing but the public candidates**, and not at their order. -/
theorem resolve_perm (h : (candidates.filter (·.isPublic)).Perm (others.filter (·.isPublic))) :
    policy.resolve candidates = policy.resolve others := by
  by_cases hlone : policy.name? = none ∧ ∃ m, candidates.filter (·.isPublic) = [m]
  · obtain ⟨hname, m, hm⟩ := hlone
    rw [hm] at h
    rw [resolve_of_lone hname hm, resolve_of_lone hname (List.singleton_perm.mp h).symm]
  · have hcandidates : policy.name? = none → ∀ m, candidates.filter (·.isPublic) ≠ [m] :=
      fun hname m hm => hlone ⟨hname, m, hm⟩
    have hothers : policy.name? = none → ∀ m, others.filter (·.isPublic) ≠ [m] := by
      intro hname m hm
      rw [hm] at h
      exact hcandidates hname m (List.perm_singleton.mp h)
    rw [resolve_of_not_lone hcandidates, resolve_of_not_lone hothers, filter_accepts, filter_accepts]
    exact onlyMethod_perm (h.filter _)

/-- A candidate that matches is public. -/
theorem Matches.isPublic {k : MethodReference} (h : policy.Matches k) : k.isPublic := h.1

/-- Without a configured name the policy selects a lone public candidate, and nothing else. -/
theorem selects_of_lone {k : MethodReference} (hname : policy.name? = none)
    (hk : candidates.filter (·.isPublic) = [k]) : policy.Selects candidates m ↔ k = m := by
  have honly := filter_eq_singleton_iff.mp hk
  simp only [Selects, hname]
  constructor
  · rintro (h | ⟨htwo, -⟩)
    · exact honly.unique h
    · exact absurd htwo honly.not_two
  · rintro rfl
    exact .inl honly

/-- Two that match are two public ones. -/
theorem not_two_of_lone {k : MethodReference} (hk : candidates.filter (·.isPublic) = [k]) :
    ¬ HasTwo policy.Matches candidates := fun htwo =>
  (filter_eq_singleton_iff.mp hk).not_two (htwo.mono fun _ hm => hm.isPublic)

/-- Where no public candidate is alone, the policy selects the only one that matches. -/
theorem selects_of_not_lone (h : policy.name? = none → ∀ m, candidates.filter (·.isPublic) ≠ [m]) :
    policy.Selects candidates m ↔ IsOnly policy.Matches candidates m := by
  unfold Selects
  cases hname : policy.name? with
  | some name => exact Iff.rfl
  | none =>
    simp only
    constructor
    · rintro (hlone | ⟨-, honly⟩)
      · exact absurd (filter_eq_singleton_iff.mpr hlone) (h hname m)
      · exact honly
    · intro honly
      -- the one that matches is public and not alone, so there are two public ones
      rcases none_one_or_two (·.isPublic) candidates with hnone | ⟨k, hk⟩ | htwo
      · obtain ⟨before, after, rfl, hm, -⟩ := honly
        exact absurd hm.isPublic (List.filter_eq_nil_iff.mp hnone m (by simp))
      · exact absurd (filter_eq_singleton_iff.mpr hk) (h hname k)
      · exact .inr ⟨htwo, honly⟩

/-- **What becomes of a choice.** It is the same for all lists with the same public candidates, in
any order, whatever else is in them. A candidate is selected exactly if it is the one that the
policy selects, two that match are refused under the name that was looked for, and nothing is found
exactly if there is neither the one nor the other. -/
theorem resolve_decided (policy : EntryPointPolicy) (candidates : List MethodReference) :
    (∀ others, (candidates.filter (·.isPublic)).Perm (others.filter (·.isPublic)) →
      policy.resolve others = policy.resolve candidates) ∧
    (∀ m, policy.resolve candidates = .ok m ↔ policy.Selects candidates m) ∧
    (∀ name, policy.resolve candidates = .error (.ambiguous name) ↔
      name = policy.sought ∧ HasTwo policy.Matches candidates) ∧
    (policy.resolve candidates = .error .missing ↔
      (∀ m, ¬ policy.Selects candidates m) ∧ ¬ HasTwo policy.Matches candidates) := by
  refine ⟨fun others h => (resolve_perm h).symm, ?_⟩
  by_cases hlone : policy.name? = none ∧ ∃ m, candidates.filter (·.isPublic) = [m]
  · obtain ⟨hname, k, hk⟩ := hlone
    rw [resolve_of_lone hname hk]
    simp [selects_of_lone hname hk, not_two_of_lone hk]
  · have hnot : policy.name? = none → ∀ m, candidates.filter (·.isPublic) ≠ [m] :=
      fun hname m hm => hlone ⟨hname, m, hm⟩
    simp only [selects_of_not_lone hnot, ← accepts_eq]
    rw [resolve_of_not_lone hnot]
    exact ⟨fun m => onlyMethod_eq_ok_iff.trans filter_eq_singleton_iff,
      fun name => onlyMethod_eq_ambiguous_iff.trans (and_congr_right fun _ => two_of_filter_iff),
      onlyMethod_eq_missing_iff.trans filter_eq_nil_iff_neither⟩

/-- A public `run`, a private `Run` and a public helper. -/
def sampleCandidates : List MethodReference :=
  [⟨"Run", false, default⟩, ⟨"Format", true, default⟩, ⟨"run", true, default⟩]

/-- Without the private candidate, and in the other order, the choice is the same. -/
theorem sampleCandidates_decided :
    (EntryPointPolicy.mk none).resolve [⟨"run", true, default⟩, ⟨"Format", true, default⟩] =
        (EntryPointPolicy.mk none).resolve sampleCandidates ∧
      (EntryPointPolicy.mk none).resolve sampleCandidates = .ok ⟨"run", true, default⟩ := by
  have hdecided := resolve_decided ⟨none⟩ sampleCandidates
  have hrun : (EntryPointPolicy.mk none).Matches ⟨"run", true, default⟩ :=
    ⟨rfl, by simp only [SameName]; decide⟩
  have hothers : ∀ k ∈ sampleCandidates.take 2, ¬ (EntryPointPolicy.mk none).Matches k := by
    refine List.forall_mem_cons.mpr ⟨fun h => Bool.false_ne_true h.isPublic,
      List.forall_mem_singleton.mpr fun h => absurd h.2 ?_⟩
    simp only [SameName]
    decide
  refine ⟨hdecided.1 _ (List.Perm.swap _ _ _), (hdecided.2.1 _).mpr (.inr ⟨?_, ?_⟩)⟩
  · exact ⟨[⟨"Run", false, default⟩], _, [], _, [], rfl, rfl, rfl⟩
  · exact ⟨sampleCandidates.take 2, [], rfl, hrun, by simpa using hothers⟩

end EntryPointPolicy

/-- The signature of an entry point is that of the method which the policy selects in the class. -/
theorem CompilationUnit.resolve_of_signature {u : CompilationUnit} {policy : EntryPointPolicy}
    {sig : FunctionSignature} (h : u.signature policy = .ok sig) :
    ∃ m ∈ u.compilation.scriptClass.methods,
      policy.resolve (u.compilation.scriptClass.methods.map .ofMethod) = .ok (.ofMethod m) ∧
        sig = .ofMethod m := by
  unfold signature at h
  split at h
  · cases h
  · split at h
    next r hr =>
      obtain rfl := Except.ok.inj h
      obtain ⟨m, hm, rfl⟩ := List.mem_map.mp (EntryPointPolicy.mem_of_resolve hr)
      exact ⟨m, hm, hr, rfl⟩
    · cases h

end ScriptHost
