/-
# How a manifest numbers the bodies

A pass over the entries of the script class counts the bodies: a statement and a method take
the next number, a field and a property none (`manifestFrom`, `statementsFrom`). The manifest
looks up the body of each member instead; the two agree, as the bodies of the members are
entered in the order of the members (`manifestFrom_eq`). So every body has one number, and at
that number stands the body that the entry came with.

Key definitions: `manifestFrom`, `statementsFrom`, `methodsOf`, `statementsOf`.
Key theorems: `manifestFrom_eq`, `statementsFrom_eq`, `numbers_perm`, `methods_forall₂`,
`statements_forall₂`.
-/
import Mathlib.Data.List.Forall2
import ScriptHost.Emission.Plan
import ScriptHost.Proofs.Binding.Table

namespace ScriptHost

/-- The manifest's members for entries, where the first body has the number `k`. -/
def manifestFrom : Nat → List (Nat × Entry) → List ManifestMember
  | _, [] => []
  | k, (_, .statement _) :: es => manifestFrom (k + 1) es
  | k, (_, .member m none) :: es => .ofMember none m :: manifestFrom k es
  | k, (_, .member m (some _)) :: es => .ofMember (some k) m :: manifestFrom (k + 1) es

/-- The numbers of the statements among entries, where the first body has the number `k`. -/
def statementsFrom : Nat → List (Nat × Entry) → List Nat
  | _, [] => []
  | k, (_, .statement _) :: es => k :: statementsFrom (k + 1) es
  | k, (_, .member _ none) :: es => statementsFrom k es
  | k, (_, .member _ (some _)) :: es => statementsFrom (k + 1) es

/-- The methods among entries with their bodies, each with the number of its document. -/
def methodsOf (es : List (Nat × Entry)) : List (Nat × MethodSymbol × Body) :=
  es.filterMap fun
    | (n, .member (.method m) (some body)) => some (n, m, body)
    | _ => none

/-- The statements among entries, each with the number of its document. -/
def statementsOf (es : List (Nat × Entry)) : List (Nat × Body) :=
  es.filterMap fun
    | (n, .statement body) => some (n, body)
    | _ => none

variable {es : List (Nat × Entry)} {front : List BoundBody} {i : Nat}

/-- The bodies of members in front have smaller numbers than `i`. -/
def MembersBelow (i : Nat) (front : List BoundBody) : Prop :=
  ∀ b ∈ front, ∀ j, b.member? = some j → j < i

theorem MembersBelow.concat {b : BoundBody} (h : MembersBelow i front)
    (hb : ∀ j, b.member? = some j → j < i + 1) : MembersBelow (i + 1) (front ++ [b]) := by
  intro b' hb' j hj
  rcases List.mem_append.mp hb' with hf | hs
  · exact Nat.lt_succ_of_lt (h b' hf j hj)
  · obtain rfl := List.mem_singleton.mp hs
    exact hb j hj

theorem findIdx?_member (h : MembersBelow i front) (n : Nat) (body : Body) (r : List BoundBody) :
    (front ++ ⟨some i, n, body⟩ :: r).findIdx? (·.member? == some i) = some front.length := by
  have hnone : front.findIdx? (·.member? == some i) = none := by
    refine List.findIdx?_eq_none_iff.mpr fun b hb => ?_
    have hne : b.member? ≠ some i := fun he => Nat.lt_irrefl i (h b hb i he)
    simpa using hne
  rw [List.findIdx?_append, hnone]
  simp [List.findIdx?_cons]

theorem ofMember_of_none {m : Member} (h : Entry.Sound (.member m none)) (body? : Option Nat) :
    ManifestMember.ofMember body? m = .ofMember none m := by
  cases m with
  | method m => exact absurd h Entry.Sound.not_method
  | field f => rfl
  | property p => rfl

/-- **Looking up the bodies of the members numbers them as the pass over the entries does**,
by induction on the entries behind those that were passed. -/
theorem manifestFrom_eq : ∀ {es : List (Nat × Entry)} {front : List BoundBody} {i : Nat},
    (∀ e ∈ es, e.2.Sound) → MembersBelow i front →
      ((membersOf es).zipIdx i).map (fun p => ManifestMember.ofMember
        ((front ++ bodiesFrom i es).findIdx? (·.member? == some p.2)) p.1) =
          manifestFrom front.length es
  | [], front, i, hs, hf => rfl
  | (n, .statement body) :: es, front, i, hs, hf => by
    obtain ⟨-, hes⟩ := List.forall_mem_cons.mp hs
    have hlen : (front ++ [(⟨none, n, body⟩ : BoundBody)]).length = front.length + 1 :=
      List.length_append
    have hf' : MembersBelow i (front ++ [⟨none, n, body⟩]) := by
      intro b hb j hj
      rcases List.mem_append.mp hb with hb | hb
      · exact hf b hb j hj
      · obtain rfl := List.mem_singleton.mp hb
        cases hj
    have ih := manifestFrom_eq hes hf'
    rw [hlen, List.append_assoc, List.singleton_append] at ih
    rw [membersOf_statement, bodiesFrom_statement, ih, manifestFrom]
  | (n, .member m none) :: es, front, i, hs, hf => by
    obtain ⟨hm, hes⟩ := List.forall_mem_cons.mp hs
    have hf' : MembersBelow (i + 1) front := fun b hb j hj => Nat.lt_succ_of_lt (hf b hb j hj)
    have ih := manifestFrom_eq hes hf'
    rw [membersOf_member, bodiesFrom_data, List.zipIdx_cons, List.map_cons, ih, ofMember_of_none hm,
      manifestFrom]
  | (n, .member m (some body)) :: es, front, i, hs, hf => by
    obtain ⟨-, hes⟩ := List.forall_mem_cons.mp hs
    have hlen : (front ++ [(⟨some i, n, body⟩ : BoundBody)]).length = front.length + 1 :=
      List.length_append
    have hf' : MembersBelow (i + 1) (front ++ [⟨some i, n, body⟩]) := hf.concat fun j hj => by
      obtain rfl := Option.some.inj hj
      exact Nat.lt_succ_self i
    have ih := manifestFrom_eq hes hf'
    rw [hlen, List.append_assoc, List.singleton_append] at ih
    rw [membersOf_member, bodiesFrom_method, List.zipIdx_cons, List.map_cons, findIdx?_member hf, ih,
      manifestFrom]

theorem statementsFrom_eq : ∀ (i k : Nat) (es : List (Nat × Entry)),
    ((bodiesFrom i es).zipIdx k).filterMap
        (fun (b, n) => if b.member?.isNone then some n else none) = statementsFrom k es
  | i, k, [] => rfl
  | i, k, (n, .statement body) :: es => by
    have ih := statementsFrom_eq i (k + 1) es
    simpa only [bodiesFrom, List.zipIdx_cons, List.filterMap_cons, statementsFrom,
      Option.isNone_none, ↓reduceIte, List.cons.injEq, true_and] using ih
  | i, k, (n, .member m none) :: es => statementsFrom_eq (i + 1) k es
  | i, k, (n, .member m (some body)) :: es => by
    have ih := statementsFrom_eq (i + 1) (k + 1) es
    rw [bodiesFrom_method, List.zipIdx_cons, List.filterMap_cons_none rfl, ih, statementsFrom]

/-! ### Every body has one number -/

/-- **The numbers of the members' bodies and those of the statements are the numbers of all
bodies, each once.** -/
theorem numbers_perm : ∀ (i k : Nat) {es : List (Nat × Entry)}, (∀ e ∈ es, e.2.Sound) →
    ((manifestFrom k es).filterMap (·.body?) ++ statementsFrom k es).Perm
      (List.range' k (bodiesFrom i es).length)
  | i, k, [], hs => .nil
  | i, k, (n, .statement body) :: es, hs => by
    obtain ⟨-, hes⟩ := List.forall_mem_cons.mp hs
    have ih := numbers_perm i (k + 1) hes
    rw [bodiesFrom_statement, List.length_cons, List.range'_succ]
    exact List.perm_middle.trans (ih.cons k)
  | i, k, (n, .member m none) :: es, hs => by
    obtain ⟨-, hes⟩ := List.forall_mem_cons.mp hs
    have ih := numbers_perm (i + 1) k hes
    have hbody : (ManifestMember.ofMember none m).body? = none := by
      cases m <;> rfl
    simp only [manifestFrom, List.filterMap_cons, hbody, statementsFrom]
    exact ih
  | i, k, (n, .member m (some body)) :: es, hs => by
    obtain ⟨hm, hes⟩ := List.forall_mem_cons.mp hs
    obtain ⟨method, rfl⟩ := Entry.Sound.exists_method hm
    have ih := numbers_perm (i + 1) (k + 1) hes
    rw [bodiesFrom_method, List.length_cons, List.range'_succ]
    exact ih.cons k

/-- Statements have growing numbers. -/
theorem statementsFrom_pairwise : ∀ (k : Nat) (es : List (Nat × Entry)),
    (∀ n ∈ statementsFrom k es, k ≤ n) ∧ (statementsFrom k es).Pairwise (· < ·)
  | k, [] => ⟨fun n hn => absurd hn List.not_mem_nil, .nil⟩
  | k, (_, .statement _) :: es => by
    obtain ⟨hle, hlt⟩ := statementsFrom_pairwise (k + 1) es
    refine ⟨fun n hn => ?_, .cons hle hlt⟩
    rcases List.mem_cons.mp hn with rfl | hn
    · exact Nat.le_refl _
    · exact Nat.le_of_succ_le (hle n hn)
  | k, (_, .member _ none) :: es => statementsFrom_pairwise k es
  | k, (_, .member _ (some _)) :: es => by
    obtain ⟨hle, hlt⟩ := statementsFrom_pairwise (k + 1) es
    exact ⟨fun n hn => Nat.le_of_succ_le (hle n hn), hlt⟩

/-- A method has a number in the manifest, a field or a property none. -/
theorem body?_isSome_manifestFrom : ∀ (k : Nat) {es : List (Nat × Entry)},
    (∀ e ∈ es, e.2.Sound) → ∀ x ∈ manifestFrom k es, x.body?.isSome ↔ x.kind = .method
  | k, [], hs => fun x hx => absurd hx List.not_mem_nil
  | k, (_, .statement _) :: es, hs =>
    body?_isSome_manifestFrom (k + 1) (List.forall_mem_cons.mp hs).2
  | k, (_, .member m none) :: es, hs => by
    obtain ⟨hm, hes⟩ := List.forall_mem_cons.mp hs
    refine List.forall_mem_cons.mpr ⟨?_, body?_isSome_manifestFrom k hes⟩
    cases m with
    | method m => exact absurd hm Entry.Sound.not_method
    | _ => simp [ManifestMember.ofMember]
  | k, (_, .member m (some body)) :: es, hs => by
    obtain ⟨hm, hes⟩ := List.forall_mem_cons.mp hs
    obtain ⟨method, rfl⟩ := Entry.Sound.exists_method hm
    refine List.forall_mem_cons.mpr ⟨?_, body?_isSome_manifestFrom (k + 1) hes⟩
    simp [ManifestMember.ofMember]

/-! ### What stands at the numbers -/

/-- **The methods of the manifest are the methods among the entries, in order, and at the
number of each stands its body.** -/
theorem methods_forall₂ : ∀ {es : List (Nat × Entry)} (front : List BoundBody) (i : Nat),
    (∀ e ∈ es, e.2.Sound) →
      List.Forall₂ (fun x q => ∃ k j, x = .ofMember (some k) (.method q.2.1) ∧
          (front ++ bodiesFrom i es)[k]? = some ⟨some j, q.1, q.2.2⟩)
        ((manifestFrom front.length es).filter (·.kind = .method)) (methodsOf es)
  | [], front, i, hs => .nil
  | (n, .statement body) :: es, front, i, hs => by
    obtain ⟨-, hes⟩ := List.forall_mem_cons.mp hs
    have ih := methods_forall₂ (front ++ [⟨none, n, body⟩]) i hes
    rw [List.length_append, List.append_assoc] at ih
    exact ih
  | (n, .member m none) :: es, front, i, hs => by
    obtain ⟨hm, hes⟩ := List.forall_mem_cons.mp hs
    have ih := methods_forall₂ front (i + 1) hes
    cases m with
    | method m => exact absurd hm Entry.Sound.not_method
    | field f => exact ih
    | property p => exact ih
  | (n, .member m (some body)) :: es, front, i, hs => by
    obtain ⟨hm, hes⟩ := List.forall_mem_cons.mp hs
    obtain ⟨method, rfl⟩ := Entry.Sound.exists_method hm
    have ih := methods_forall₂ (front ++ [⟨some i, n, body⟩]) (i + 1) hes
    rw [List.length_append, List.append_assoc] at ih
    exact .cons ⟨front.length, i, rfl, by simp [bodiesFrom_method]⟩ ih

/-- **The statements of the manifest are the statements among the entries, in order, and at
the number of each stands its text.** -/
theorem statements_forall₂ : ∀ (es : List (Nat × Entry)) (front : List BoundBody) (i : Nat),
    List.Forall₂ (fun k q => (front ++ bodiesFrom i es)[k]? = some ⟨none, q.1, q.2⟩)
      (statementsFrom front.length es) (statementsOf es)
  | [], front, i => .nil
  | (n, .statement body) :: es, front, i => by
    have ih := statements_forall₂ es (front ++ [⟨none, n, body⟩]) i
    rw [List.length_append, List.append_assoc] at ih
    exact .cons (by simp [bodiesFrom_statement]) ih
  | (n, .member m none) :: es, front, i => statements_forall₂ es front (i + 1)
  | (n, .member m (some body)) :: es, front, i => by
    have ih := statements_forall₂ es (front ++ [⟨some i, n, body⟩]) (i + 1)
    rw [List.length_append, List.append_assoc] at ih
    cases m <;> exact ih

end ScriptHost
