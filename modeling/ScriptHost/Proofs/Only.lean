/-
# The only element of a list

Among the elements of a list that satisfy a condition there is none, one, or there are at least two.
What is chosen only if it is the only one, by what is left of the list under the condition, is told
apart in these three cases.

Key definitions: `IsOnly`, `HasTwo`.
Key theorems: `filter_eq_singleton_iff`, `two_of_filter_iff`, `filter_eq_nil_iff_neither`,
`none_one_or_two`.
-/
import Mathlib.Data.List.Basic

namespace ScriptHost

variable {α : Type} {P Q : α → Prop} {p : α → Bool} {xs : List α} {x : α}

/-- `x` is the only element of `xs` that satisfies `P`; an element that occurs twice is two. -/
def IsOnly (P : α → Prop) (xs : List α) (x : α) : Prop :=
  ∃ before after, xs = before ++ x :: after ∧ P x ∧ ∀ y ∈ before ++ after, ¬ P y

/-- At least two elements of `xs` satisfy `P`; an element that occurs twice is two. -/
def HasTwo (P : α → Prop) (xs : List α) : Prop :=
  ∃ before x between y after, xs = before ++ x :: (between ++ y :: after) ∧ P x ∧ P y

theorem filter_eq_singleton_iff : xs.filter p = [x] ↔ IsOnly (p ·) xs x := by
  rw [List.filter_eq_cons_iff]
  constructor
  · rintro ⟨before, after, rfl, hbefore, hx, hafter⟩
    refine ⟨before, after, rfl, hx, List.forall_mem_append.mpr ⟨hbefore, ?_⟩⟩
    exact List.filter_eq_nil_iff.mp hafter
  · rintro ⟨before, after, rfl, hx, hall⟩
    obtain ⟨hbefore, hafter⟩ := List.forall_mem_append.mp hall
    exact ⟨before, after, rfl, hbefore, hx, List.filter_eq_nil_iff.mpr hafter⟩

theorem two_of_filter_iff : (∃ x y more, xs.filter p = x :: y :: more) ↔ HasTwo (p ·) xs := by
  constructor
  · rintro ⟨x, y, more, h⟩
    obtain ⟨before, behind, rfl, -, hx, h⟩ := List.filter_eq_cons_iff.mp h
    obtain ⟨between, after, rfl, -, hy, -⟩ := List.filter_eq_cons_iff.mp h
    exact ⟨before, x, between, y, after, rfl, hx, hy⟩
  · rintro ⟨before, x, between, y, after, rfl, hx, hy⟩
    have hlength : 2 ≤ ((before ++ x :: (between ++ y :: after)).filter p).length := by
      simp only [List.filter_append, List.filter_cons_of_pos hx, List.filter_cons_of_pos hy,
        List.length_append, List.length_cons]
      omega
    generalize (before ++ x :: (between ++ y :: after)).filter p = found at hlength
    match found, hlength with
    | u :: v :: more, _ => exact ⟨u, v, more, rfl⟩

/-- No element, one or at least two satisfy a condition. -/
theorem none_one_or_two (p : α → Bool) (xs : List α) :
    xs.filter p = [] ∨ (∃ x, IsOnly (p ·) xs x) ∨ HasTwo (p ·) xs := by
  cases hfound : xs.filter p with
  | nil => exact .inl rfl
  | cons x more =>
    cases more with
    | nil => exact .inr (.inl ⟨x, filter_eq_singleton_iff.mp hfound⟩)
    | cons y more => exact .inr (.inr (two_of_filter_iff.mp ⟨x, y, more, hfound⟩))

/-- None does exactly if there is neither one nor two. -/
theorem filter_eq_nil_iff_neither :
    xs.filter p = [] ↔ (∀ x, ¬ IsOnly (p ·) xs x) ∧ ¬ HasTwo (p ·) xs := by
  constructor
  · intro hnone
    refine ⟨fun x hx => ?_, fun htwo => ?_⟩
    · rw [filter_eq_singleton_iff.mpr hx] at hnone
      exact List.cons_ne_nil _ _ hnone
    · obtain ⟨x, y, more, hfound⟩ := two_of_filter_iff.mpr htwo
      rw [hnone] at hfound
      exact List.cons_ne_nil _ _ hfound.symm
  · rintro ⟨hone, htwo⟩
    rcases none_one_or_two p xs with hnone | ⟨x, hx⟩ | h
    · exact hnone
    · exact absurd hx (hone x)
    · exact absurd h htwo

theorem IsOnly.unique {y : α} (h : IsOnly (p ·) xs x) (h' : IsOnly (p ·) xs y) : x = y := by
  have heq := (filter_eq_singleton_iff.mpr h).symm.trans (filter_eq_singleton_iff.mpr h')
  exact List.singleton_inj.mp heq

/-- What the condition amounts to does not matter. -/
theorem IsOnly.congr (h : IsOnly P xs x) (hPQ : ∀ y, P y ↔ Q y) : IsOnly Q xs x := by
  obtain ⟨before, after, hxs, hx, hothers⟩ := h
  exact ⟨before, after, hxs, (hPQ x).mp hx, fun y hy hQ => hothers y hy ((hPQ y).mpr hQ)⟩

/-- One is not two. -/
theorem IsOnly.not_two (h : IsOnly (p ·) xs x) : ¬ HasTwo (p ·) xs := fun htwo => by
  obtain ⟨u, v, more, hfound⟩ := two_of_filter_iff.mpr htwo
  rw [filter_eq_singleton_iff.mpr h] at hfound
  exact List.cons_ne_nil _ _ (List.cons.inj hfound).2.symm

theorem HasTwo.mono (h : HasTwo P xs) (hPQ : ∀ x, P x → Q x) : HasTwo Q xs := by
  obtain ⟨before, x, between, y, after, rfl, hx, hy⟩ := h
  exact ⟨before, x, between, y, after, rfl, hPQ x hx, hPQ y hy⟩

end ScriptHost
