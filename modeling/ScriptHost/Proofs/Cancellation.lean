/-
# Families of cancellation tokens

Which tokens belong together is told by the steps alone: a token descends from the fresh step
that handed it out, or from where the token descends that it was cloned from. The tokens that
descend from one fresh step are a family. The flags are shared cells, and the invariant ties the
cells to the steps: two tokens share a cell exactly if they are of one family, and a cell is set
exactly if a token of its family was cancelled. So a token is cancelled with its whole family,
clones that are made later included, and with no other, and it stays so.

Key definitions: `handedOut`, `Descends`, `SameFamily`, `WasCancelled`, `CancelTokens.run`,
`CancelTokens.Tracks`, `CancelTokens.Faithful`.
Key theorems: `existsUnique_descends`, `wasCancelled_concat_of_lt`, `CancelTokens.Tracks.apply`,
`CancelTokens.tracks_run`, `CancelTokens.faithful_run`.
-/
import Mathlib.Data.List.Induction
import ScriptHost.Cancellation

namespace ScriptHost

/-! ### What the steps tell -/

/-- The number of tokens that a step hands out where there are `n`. What is not there is not
cloned. -/
def CancelStep.handsOut (n : Nat) : CancelStep → Nat
  | .fresh => 1
  | .clone i => if i < n then 1 else 0
  | .cancel _ => 0

/-- The number of tokens that the steps hand out. -/
def handedOut (steps : List CancelStep) : Nat :=
  steps.foldl (fun n step => n + step.handsOut n) 0

/-- After the steps there is a token `j`, which descends by clone steps from the fresh step at the
position `o`. Tokens are counted in the order they are handed out. -/
inductive Descends : List CancelStep → (j o : Nat) → Prop
  | fresh (steps : List CancelStep) : Descends (steps ++ [.fresh]) (handedOut steps) steps.length
  | clone {steps : List CancelStep} {i o : Nat} (h : Descends steps i o) :
    Descends (steps ++ [.clone i]) (handedOut steps) o
  | later {steps : List CancelStep} {j o : Nat} (h : Descends steps j o) (step : CancelStep) :
    Descends (steps ++ [step]) j o

/-- Two tokens that descend from one fresh step. -/
def SameFamily (steps : List CancelStep) (i j : Nat) : Prop :=
  ∃ o, Descends steps i o ∧ Descends steps j o

/-- One of the steps cancelled a token, and that one is of the family of `j`. -/
def WasCancelled (steps : List CancelStep) (j : Nat) : Prop :=
  ∃ before i after, steps = before ++ .cancel i :: after ∧ i < handedOut before ∧ SameFamily steps i j

variable {steps : List CancelStep} {step : CancelStep} {i j o : Nat}

theorem handedOut_concat (steps : List CancelStep) (step : CancelStep) :
    handedOut (steps ++ [step]) = handedOut steps + step.handsOut (handedOut steps) := by
  unfold handedOut
  rw [List.foldl_append, List.foldl_cons, List.foldl_nil]

theorem handedOut_le_append (steps more : List CancelStep) :
    handedOut steps ≤ handedOut (steps ++ more) := by
  induction more using List.reverseRecOn with
  | nil => exact Nat.le_of_eq (congrArg handedOut (List.append_nil steps).symm)
  | append_singleton more step ih =>
    rw [← List.append_assoc, handedOut_concat]
    omega

/-- Only tokens that were handed out descend from a step, and that step is one of those made. -/
theorem Descends.lt (h : Descends steps j o) : j < handedOut steps ∧ o < steps.length := by
  induction h with
  | fresh steps =>
    rw [handedOut_concat, List.length_append]
    exact ⟨Nat.lt_succ_self _, Nat.lt_succ_self _⟩
  | @clone steps i o h ih =>
    have hone : (CancelStep.clone i).handsOut (handedOut steps) = 1 := if_pos ih.1
    rw [handedOut_concat, hone, List.length_append]
    exact ⟨Nat.lt_succ_self _, Nat.lt_add_right _ ih.2⟩
  | later h step ih =>
    rw [handedOut_concat, List.length_append]
    exact ⟨Nat.lt_add_right _ ih.1, Nat.lt_add_right _ ih.2⟩

theorem SameFamily.lt (h : SameFamily steps i j) : i < handedOut steps ∧ j < handedOut steps := by
  obtain ⟨o, hi, hj⟩ := h
  exact ⟨hi.lt.1, hj.lt.1⟩

/-- What a step adds is where the token that it hands out descends from. -/
theorem descends_concat_iff : Descends (steps ++ [step]) j o ↔ Descends steps j o ∨
    j = handedOut steps ∧ (step = .fresh ∧ o = steps.length ∨
      ∃ i, step = .clone i ∧ Descends steps i o) := by
  constructor
  · intro h
    generalize hall : steps ++ [step] = all at h
    cases h with
    | fresh steps' =>
      obtain ⟨rfl, hstep⟩ := List.append_inj' hall rfl
      exact .inr ⟨rfl, .inl ⟨List.singleton_inj.mp hstep, rfl⟩⟩
    | clone h =>
      obtain ⟨rfl, hstep⟩ := List.append_inj' hall rfl
      exact .inr ⟨rfl, .inr ⟨_, List.singleton_inj.mp hstep, h⟩⟩
    | later h step' =>
      obtain ⟨rfl, -⟩ := List.append_inj' hall rfl
      exact .inl h
  · rintro (h | ⟨rfl, ⟨rfl, rfl⟩ | ⟨i, rfl, h⟩⟩)
    · exact .later h step
    · exact .fresh steps
    · exact .clone h

/-- A step changes nothing about the tokens that are there. -/
theorem descends_concat_of_lt (hj : j < handedOut steps) :
    Descends (steps ++ [step]) j o ↔ Descends steps j o := by
  rw [descends_concat_iff]
  constructor
  · rintro (h | ⟨rfl, -⟩)
    · exact h
    · exact absurd hj (Nat.lt_irrefl _)
  · exact .inl

/-- **Every token descends from exactly one fresh step**, by induction on the steps. -/
theorem existsUnique_descends (steps : List CancelStep) :
    ∀ j < handedOut steps, ∃! o, Descends steps j o := by
  induction steps using List.reverseRecOn with
  | nil => exact fun j hj => absurd hj (Nat.not_lt_zero j)
  | append_singleton steps step ih =>
    intro j hj
    by_cases hold : j < handedOut steps
    · obtain ⟨o, ho, hunique⟩ := ih j hold
      exact ⟨o, .later ho step, fun o' ho' => hunique o' ((descends_concat_of_lt hold).mp ho')⟩
    -- the step handed `j` out
    have hnone (o : Nat) : ¬ Descends steps j o := fun h => hold h.lt.1
    rw [handedOut_concat] at hj
    cases step with
    | fresh =>
      obtain rfl : j = handedOut steps := by
        simp only [CancelStep.handsOut] at hj
        omega
      refine ⟨steps.length, .fresh steps, fun o ho => ?_⟩
      rcases descends_concat_iff.mp ho with h | ⟨-, ⟨-, rfl⟩ | ⟨i, hi, -⟩⟩
      · exact absurd h (hnone o)
      · rfl
      · cases hi
    | clone i =>
      have hi : i < handedOut steps := by
        by_contra hi
        simp only [CancelStep.handsOut, if_neg hi] at hj
        omega
      obtain rfl : j = handedOut steps := by
        simp only [CancelStep.handsOut, if_pos hi] at hj
        omega
      obtain ⟨o, ho, hunique⟩ := ih i hi
      refine ⟨o, .clone ho, fun o' ho' => ?_⟩
      rcases descends_concat_iff.mp ho' with h | ⟨-, ⟨hfresh, -⟩ | ⟨i', hi', h⟩⟩
      · exact absurd h (hnone o')
      · cases hfresh
      · obtain rfl := CancelStep.clone.inj hi'
        exact hunique o' h
    | cancel i => exact absurd hj hold

theorem Descends.unique {o' : Nat} (h : Descends steps j o) (h' : Descends steps j o') : o = o' :=
  (existsUnique_descends steps j h.lt.1).unique h h'

/-! ### Families -/

theorem SameFamily.refl (hj : j < handedOut steps) : SameFamily steps j j := by
  obtain ⟨o, ho, -⟩ := existsUnique_descends steps j hj
  exact ⟨o, ho, ho⟩

theorem sameFamily_comm : SameFamily steps i j ↔ SameFamily steps j i :=
  exists_congr fun _ => and_comm

theorem sameFamily_concat_of_lt (hi : i < handedOut steps) (hj : j < handedOut steps) :
    SameFamily (steps ++ [step]) i j ↔ SameFamily steps i j :=
  exists_congr fun _ => and_congr (descends_concat_of_lt hi) (descends_concat_of_lt hj)

/-- A fresh token is of no family that was there. -/
theorem not_sameFamily_fresh (hi : i < handedOut steps) :
    ¬ SameFamily (steps ++ [.fresh]) i (handedOut steps) := by
  rintro ⟨o, ho, hfresh⟩
  obtain rfl := hfresh.unique (.fresh steps)
  exact Nat.lt_irrefl _ ((descends_concat_of_lt hi).mp ho).lt.2

/-- A clone is of the family of its original. -/
theorem sameFamily_clone {k : Nat} (hi : i < handedOut steps) (hk : k < handedOut steps) :
    SameFamily (steps ++ [.clone k]) i (handedOut steps) ↔ SameFamily steps i k := by
  constructor
  · rintro ⟨o, ho, hclone⟩
    obtain ⟨o', ho', -⟩ := existsUnique_descends steps k hk
    obtain rfl := hclone.unique (.clone ho')
    exact ⟨o, (descends_concat_of_lt hi).mp ho, ho'⟩
  · rintro ⟨o, ho, hclone⟩
    exact ⟨o, .later ho _, .clone hclone⟩

/-- One of the steps before the last cancelled a token of the family, or the last step does. -/
theorem wasCancelled_concat_iff : WasCancelled (steps ++ [step]) j ↔
    (∃ before i after, steps = before ++ .cancel i :: after ∧ i < handedOut before ∧
      SameFamily (steps ++ [step]) i j) ∨
    ∃ i, step = .cancel i ∧ i < handedOut steps ∧ SameFamily (steps ++ [step]) i j := by
  constructor
  · rintro ⟨before, i, after, hsteps, hi, hfamily⟩
    rcases List.eq_nil_or_concat after with rfl | ⟨after, last, rfl⟩
    · obtain ⟨rfl, hstep⟩ := List.append_inj' hsteps rfl
      exact .inr ⟨i, List.singleton_inj.mp hstep, hi, hfamily⟩
    · rw [List.concat_eq_append, ← List.cons_append, ← List.append_assoc] at hsteps
      obtain ⟨rfl, -⟩ := List.append_inj' hsteps rfl
      exact .inl ⟨before, i, after, rfl, hi, hfamily⟩
  · rintro (⟨before, i, after, rfl, hi, hfamily⟩ | ⟨i, rfl, hi, hfamily⟩)
    · exact ⟨before, i, after ++ [step], by simp, hi, hfamily⟩
    · exact ⟨steps, i, [], rfl, hi, hfamily⟩

theorem WasCancelled.lt (h : WasCancelled steps j) : j < handedOut steps := by
  obtain ⟨before, i, after, -, -, hfamily⟩ := h
  exact hfamily.lt.2

/-- A token that is there is cancelled by a step only if its family is. -/
theorem wasCancelled_concat_of_lt (hj : j < handedOut steps) : WasCancelled (steps ++ [step]) j ↔
    WasCancelled steps j ∨ ∃ i, step = .cancel i ∧ SameFamily steps i j := by
  rw [wasCancelled_concat_iff]
  apply or_congr
  · refine exists_congr fun before => exists_congr fun i => exists_congr fun after => ?_
    refine and_congr_right fun hsteps => and_congr_right fun hi => sameFamily_concat_of_lt ?_ hj
    rw [hsteps]
    exact Nat.lt_of_lt_of_le hi (handedOut_le_append before _)
  · refine exists_congr fun i => and_congr_right fun _ => ?_
    constructor
    · rintro ⟨hi, hfamily⟩
      exact (sameFamily_concat_of_lt hi hj).mp hfamily
    · intro hfamily
      exact ⟨hfamily.lt.1, (sameFamily_concat_of_lt hfamily.lt.1 hj).mpr hfamily⟩

theorem not_wasCancelled_fresh : ¬ WasCancelled (steps ++ [.fresh]) (handedOut steps) := by
  rw [wasCancelled_concat_iff]
  rintro (⟨before, i, after, rfl, hi, hfamily⟩ | ⟨i, hi, -⟩)
  · exact not_sameFamily_fresh (Nat.lt_of_lt_of_le hi (handedOut_le_append before _)) hfamily
  · cases hi

/-- A clone was cancelled exactly if its original was. -/
theorem wasCancelled_clone {k : Nat} (hk : k < handedOut steps) :
    WasCancelled (steps ++ [.clone k]) (handedOut steps) ↔ WasCancelled steps k := by
  rw [wasCancelled_concat_iff]
  constructor
  · rintro (⟨before, i, after, rfl, hi, hfamily⟩ | ⟨i, hi, -⟩)
    · have hlt := Nat.lt_of_lt_of_le hi (handedOut_le_append before (.cancel i :: after))
      exact ⟨before, i, after, rfl, hi, (sameFamily_clone hlt hk).mp hfamily⟩
    · cases hi
  · rintro ⟨before, i, after, rfl, hi, hfamily⟩
    exact .inl ⟨before, i, after, rfl, hi, (sameFamily_clone hfamily.lt.1 hk).mpr hfamily⟩

/-! ### The cells -/

namespace CancelTokens

/-- The tokens after the steps. -/
def run (steps : List CancelStep) : CancelTokens := steps.foldl apply none

/-- The cells are those that the steps tell of: tokens of one family have one cell, and it is set
if the family was cancelled. -/
structure Tracks (steps : List CancelStep) (ts : CancelTokens) : Prop where
  tokens : ts.familyOf.length = handedOut steps
  cells : ∀ f ∈ ts.familyOf, f < ts.cancelled.length
  families : ∀ {i j f g}, ts.familyOf[i]? = some f → ts.familyOf[j]? = some g →
    (f = g ↔ SameFamily steps i j)
  flags : ∀ j, ts.flags[j]? = some true ↔ WasCancelled steps j

variable {ts : CancelTokens} {f g k : Nat}

theorem run_concat (steps : List CancelStep) (step : CancelStep) :
    run (steps ++ [step]) = (run steps).apply step := by
  unfold run
  rw [List.foldl_append, List.foldl_cons, List.foldl_nil]

theorem length_flags (ts : CancelTokens) : ts.flags.length = ts.familyOf.length := List.length_map _

theorem getElem?_flags (ts : CancelTokens) (j : Nat) :
    ts.flags[j]? = ts.familyOf[j]?.map fun f => ts.cancelled.getD f false := List.getElem?_map

theorem apply_fresh (ts : CancelTokens) :
    ts.apply .fresh = ⟨ts.familyOf ++ [ts.cancelled.length], ts.cancelled ++ [false]⟩ := rfl

theorem apply_clone (h : ts.familyOf[k]? = some f) :
    ts.apply (.clone k) = ⟨ts.familyOf ++ [f], ts.cancelled⟩ := by
  simp only [apply, h]

theorem apply_cancel (h : ts.familyOf[i]? = some f) :
    ts.apply (.cancel i) = ⟨ts.familyOf, ts.cancelled.set f true⟩ := by
  simp only [apply, h]

/-- A step on a token that is not there does nothing. -/
theorem apply_of_none (h : ts.familyOf[i]? = Option.none) :
    ts.apply (.clone i) = ts ∧ ts.apply (.cancel i) = ts := by
  simp only [apply, h, and_self]

theorem flags_fresh (h : ∀ f ∈ ts.familyOf, f < ts.cancelled.length) :
    (ts.apply .fresh).flags = ts.flags ++ [false] := by
  have hold : ∀ f ∈ ts.familyOf, (ts.cancelled ++ [false]).getD f false = ts.cancelled.getD f false := by
    intro f hf
    rw [List.getD_eq_getElem?_getD, List.getElem?_append_left (h f hf), List.getD_eq_getElem?_getD]
  unfold flags
  rw [apply_fresh, List.map_append, List.map_congr_left hold]
  simp

theorem flags_clone (h : ts.familyOf[k]? = some f) :
    (ts.apply (.clone k)).flags = ts.flags ++ [ts.cancelled.getD f false] := by
  unfold flags
  rw [apply_clone h, List.map_append, List.map_singleton]

theorem flags_cancel (h : ts.familyOf[i]? = some f) (hf : f < ts.cancelled.length) (j : Nat) :
    (ts.apply (.cancel i)).flags[j]? =
      if ts.familyOf[j]? = some f then some true else ts.flags[j]? := by
  rw [getElem?_flags, getElem?_flags, apply_cancel h]
  by_cases hj : ts.familyOf[j]? = some f
  · rw [if_pos hj]
    simp [hj, hf]
  · rw [if_neg hj]
    cases hg : ts.familyOf[j]? with
    | none => rfl
    | some g =>
      have hne : f ≠ g := fun heq => hj (by rw [hg, heq])
      simp [List.getElem?_set_ne hne]

/-- A token that is there has a cell. -/
theorem Tracks.exists_cell (h : Tracks steps ts) (hj : j < handedOut steps) :
    ∃ f, ts.familyOf[j]? = some f ∧ f < ts.cancelled.length := by
  have hlt : j < ts.familyOf.length := by rw [h.tokens]; exact hj
  exact ⟨_, List.getElem?_eq_getElem hlt, h.cells _ (List.getElem_mem hlt)⟩

theorem Tracks.lt (h : Tracks steps ts) (hj : ts.familyOf[j]? = some f) : j < handedOut steps := by
  obtain ⟨hlt, -⟩ := List.getElem?_eq_some_iff.mp hj
  rw [← h.tokens]
  exact hlt

theorem getElem?_concat {α : Type} {xs : List α} {x y : α} (h : (xs ++ [x])[i]? = some y) :
    xs[i]? = some y ∨ i = xs.length ∧ y = x := by
  rcases Nat.lt_trichotomy i xs.length with hlt | rfl | hgt
  · rw [List.getElem?_append_left hlt] at h
    exact .inl h
  · rw [List.getElem?_concat_length] at h
    exact .inr ⟨rfl, (Option.some.inj h).symm⟩
  · rw [List.getElem?_eq_none (by simp; omega)] at h
    cases h

/-- A token is added with the cell `g`, which just the tokens of its family have. -/
theorem Tracks.families_concat (h : Tracks steps ts) (hnew : handedOut (steps ++ [step]) = handedOut steps + 1)
    (hg : ∀ {i f}, ts.familyOf[i]? = some f →
      (f = g ↔ SameFamily (steps ++ [step]) i (handedOut steps))) {f f' : Nat}
    (hi : (ts.familyOf ++ [g])[i]? = some f) (hj : (ts.familyOf ++ [g])[j]? = some f') :
    f = f' ↔ SameFamily (steps ++ [step]) i j := by
  rcases getElem?_concat hi with hold | ⟨rfl, rfl⟩ <;>
    rcases getElem?_concat hj with hold' | ⟨rfl, rfl⟩
  · rw [h.families hold hold', sameFamily_concat_of_lt (h.lt hold) (h.lt hold')]
  · rw [h.tokens]
    exact hg hold
  · rw [h.tokens, sameFamily_comm, eq_comm]
    exact hg hold'
  · rw [h.tokens, eq_self, true_iff]
    apply SameFamily.refl
    omega

/-- A flag is added for a token that is added, and the others are those of before. -/
theorem Tracks.flags_concat (h : Tracks steps ts) {b : Bool}
    (hnew : handedOut (steps ++ [step]) = handedOut steps + 1) (hstep : ∀ i, step ≠ .cancel i)
    (hb : b = true ↔ WasCancelled (steps ++ [step]) (handedOut steps)) (j : Nat) :
    (ts.flags ++ [b])[j]? = some true ↔ WasCancelled (steps ++ [step]) j := by
  have hlength : ts.flags.length = handedOut steps := by rw [length_flags, h.tokens]
  rcases Nat.lt_trichotomy j (handedOut steps) with hlt | rfl | hgt
  · rw [List.getElem?_append_left (by omega), h.flags, wasCancelled_concat_of_lt hlt]
    constructor
    · exact .inl
    · rintro (hj | ⟨i, hi, -⟩)
      · exact hj
      · exact absurd hi (hstep i)
  · rw [← hlength, List.getElem?_concat_length, hlength, ← hb, Option.some.injEq]
  · rw [List.getElem?_eq_none (by simp; omega)]
    constructor
    · intro hj
      cases hj
    · intro hj
      have hlt := hj.lt
      omega

/-- No token is added, and none that is there is cancelled. -/
theorem Tracks.idle (h : Tracks steps ts) (hsame : handedOut (steps ++ [step]) = handedOut steps)
    (hnone : ∀ i, step = .cancel i → ¬ i < handedOut steps) : Tracks (steps ++ [step]) ts := by
  refine ⟨by rw [hsame, h.tokens], h.cells, fun {i j f g} hi hj => ?_, fun j => ?_⟩
  · rw [h.families hi hj, sameFamily_concat_of_lt (h.lt hi) (h.lt hj)]
  · rw [h.flags]
    constructor
    · intro hj
      exact (wasCancelled_concat_of_lt hj.lt).mpr (.inl hj)
    · intro hj
      have hlt := hj.lt
      rw [hsame] at hlt
      rcases (wasCancelled_concat_of_lt hlt).mp hj with hj | ⟨i, hi, hfamily⟩
      · exact hj
      · exact absurd hfamily.lt.1 (hnone i hi)

/-- The cell of a family is set. -/
theorem Tracks.set (h : Tracks steps ts) (hf : ts.familyOf[i]? = some f) :
    Tracks (steps ++ [.cancel i]) (ts.apply (.cancel i)) := by
  have hsame : handedOut (steps ++ [.cancel i]) = handedOut steps := handedOut_concat ..
  have hi := h.lt hf
  refine ⟨?_, ?_, ?_, fun j => ?_⟩
  · rw [apply_cancel hf, hsame, h.tokens]
  · rw [apply_cancel hf, List.length_set]
    exact h.cells
  · rw [apply_cancel hf]
    intro k j g g' hk hj
    rw [h.families hk hj, sameFamily_concat_of_lt (h.lt hk) (h.lt hj)]
  · rw [flags_cancel hf (h.cells f (List.mem_of_getElem? hf))]
    by_cases hj : j < handedOut steps
    · obtain ⟨g, hg, -⟩ := h.exists_cell hj
      have hcell : ts.familyOf[j]? = some f ↔ SameFamily steps i j := by
        rw [hg, Option.some.injEq, eq_comm, h.families hf hg]
      rw [wasCancelled_concat_of_lt hj, ← h.flags]
      by_cases hfamily : SameFamily steps i j
      · rw [if_pos (hcell.mpr hfamily), eq_self, true_iff]
        exact .inr ⟨i, rfl, hfamily⟩
      · rw [if_neg fun heq => hfamily (hcell.mp heq)]
        constructor
        · exact .inl
        · rintro (hj | ⟨i', hi', hfamily'⟩)
          · exact hj
          · obtain rfl := CancelStep.cancel.inj hi'
            exact absurd hfamily' hfamily
    · have hnone : ts.familyOf[j]? = Option.none :=
        List.getElem?_eq_none (by rw [h.tokens]; exact Nat.le_of_not_lt hj)
      rw [hnone, if_neg (by simp), getElem?_flags, hnone]
      constructor
      · intro hj
        cases hj
      · intro hcancelled
        have hlt := hcancelled.lt
        rw [hsame] at hlt
        exact absurd hlt hj

/-- **A step keeps the cells those that the steps tell of.** -/
theorem Tracks.apply (h : Tracks steps ts) (step : CancelStep) :
    Tracks (steps ++ [step]) (ts.apply step) := by
  cases step with
  | fresh =>
    have hnew : handedOut (steps ++ [.fresh]) = handedOut steps + 1 := handedOut_concat ..
    refine ⟨?_, ?_, ?_, fun j => ?_⟩
    · rw [apply_fresh, List.length_append, h.tokens, hnew, List.length_singleton]
    · rw [apply_fresh, List.length_append, List.length_singleton]
      intro f hf
      rcases List.mem_append.mp hf with hf | hf
      · exact Nat.lt_succ_of_lt (h.cells f hf)
      · rw [List.mem_singleton.mp hf]
        exact Nat.lt_succ_self _
    · rw [apply_fresh]
      refine h.families_concat hnew fun {i f} hi => ?_
      have hlt := h.cells f (List.mem_of_getElem? hi)
      have hne := not_sameFamily_fresh (h.lt hi)
      constructor
      · intro heq
        omega
      · exact fun hsame => absurd hsame hne
    · rw [flags_fresh h.cells]
      refine h.flags_concat hnew (fun i hi => by cases hi) ?_ j
      simp [not_wasCancelled_fresh]
  | clone k =>
    by_cases hk : k < handedOut steps
    · obtain ⟨f, hf, hcell⟩ := h.exists_cell hk
      have hnew : handedOut (steps ++ [.clone k]) = handedOut steps + 1 := by
        rw [handedOut_concat, CancelStep.handsOut, if_pos hk]
      refine ⟨?_, ?_, ?_, fun j => ?_⟩
      · rw [apply_clone hf, List.length_append, h.tokens, hnew, List.length_singleton]
      · rw [apply_clone hf]
        intro g hg
        rcases List.mem_append.mp hg with hg | hg
        · exact h.cells g hg
        · rw [List.mem_singleton.mp hg]
          exact hcell
      · rw [apply_clone hf]
        refine h.families_concat hnew fun {i g} hi => ?_
        rw [sameFamily_clone (h.lt hi) hk]
        exact h.families hi hf
      · rw [flags_clone hf]
        refine h.flags_concat hnew (fun i hi => by cases hi) ?_ j
        rw [wasCancelled_clone hk, ← h.flags, getElem?_flags, hf, Option.map_some, Option.some.injEq]
    · have hnone : ts.familyOf[k]? = Option.none :=
        List.getElem?_eq_none (by rw [h.tokens]; exact Nat.le_of_not_lt hk)
      rw [(apply_of_none hnone).1]
      refine h.idle ?_ fun i hi => by cases hi
      rw [handedOut_concat, CancelStep.handsOut, if_neg hk, Nat.add_zero]
  | cancel i =>
    by_cases hi : i < handedOut steps
    · obtain ⟨f, hf, -⟩ := h.exists_cell hi
      exact h.set hf
    · have hnone : ts.familyOf[i]? = Option.none :=
        List.getElem?_eq_none (by rw [h.tokens]; exact Nat.le_of_not_lt hi)
      rw [(apply_of_none hnone).2]
      refine h.idle (handedOut_concat ..) fun k hk => ?_
      obtain rfl := CancelStep.cancel.inj hk
      exact hi

/-- **The cells are those that the steps tell of**, by induction on the steps. -/
theorem tracks_run (steps : List CancelStep) : Tracks steps (run steps) := by
  induction steps using List.reverseRecOn with
  | nil =>
    refine ⟨rfl, fun f hf => absurd hf List.not_mem_nil, ?_, fun j => ?_⟩
    · intro i j f g hi hj
      cases hi
    · constructor
      · intro hj
        cases hj
      · intro hj
        exact absurd hj.lt (Nat.not_lt_zero j)
  | append_singleton steps step ih =>
    rw [run_concat]
    exact ih.apply step

/-! ### The flags -/

/-- The flags report what the steps did. -/
structure Faithful (steps : List CancelStep) (ts : CancelTokens) : Prop where
  /-- There is a flag for each token, and each token descends from one fresh step. -/
  tokens : ts.flags.length = handedOut steps
  origins : ∀ j < handedOut steps, ∃! o, Descends steps j o
  /-- A token is cancelled exactly if a step cancelled one of its family. -/
  reports : ∀ j, ts.flags[j]? = some true ↔ WasCancelled steps j
  /-- No step clears a flag. -/
  kept : ∀ step, ∀ j : Nat, ts.flags[j]? = some true → (ts.apply step).flags[j]? = some true
  /-- A step leaves the flags alone that are not of the family which it cancels. -/
  others : ∀ step, ∀ j < handedOut steps, (∀ i, step = .cancel i → ¬ SameFamily steps i j) →
    (ts.apply step).flags[j]? = ts.flags[j]?
  /-- A clone has the flag of its original. -/
  cloned : ∀ i < handedOut steps, (ts.apply (.clone i)).flags[handedOut steps]? = ts.flags[i]?

theorem Tracks.exists_flag (h : Tracks steps ts) (hj : j < handedOut steps) :
    ∃ b, ts.flags[j]? = some b ∧ (b = true ↔ WasCancelled steps j) := by
  obtain ⟨f, hf, -⟩ := h.exists_cell hj
  have hflag : ts.flags[j]? = some (ts.cancelled.getD f false) := by
    rw [getElem?_flags, hf, Option.map_some]
  refine ⟨_, hflag, ?_⟩
  rw [← h.flags, hflag, Option.some.injEq]

/-- **The flags report what the steps did**: after any steps a token is cancelled exactly if one of
its family was. -/
theorem faithful_run (steps : List CancelStep) : Faithful steps (run steps) := by
  have h := tracks_run steps
  have hlength : (run steps).flags.length = handedOut steps := by rw [length_flags, h.tokens]
  refine ⟨hlength, existsUnique_descends steps, h.flags, fun step j hj => ?_,
    fun step j hj hothers => ?_, fun i hi => ?_⟩
  · have hcancelled := (h.flags j).mp hj
    exact ((h.apply step).flags j).mpr
      ((wasCancelled_concat_of_lt hcancelled.lt).mpr (.inl hcancelled))
  · have hlt := Nat.lt_of_lt_of_le hj (handedOut_le_append steps [step])
    obtain ⟨b, hb, hflag⟩ := h.exists_flag hj
    obtain ⟨b', hb', hflag'⟩ := (h.apply step).exists_flag hlt
    have heq : b' = b := by
      apply Bool.eq_iff_iff.mpr
      rw [hflag, hflag', wasCancelled_concat_of_lt hj]
      constructor
      · rintro (hcancelled | ⟨i, hi, hfamily⟩)
        · exact hcancelled
        · exact absurd hfamily (hothers i hi)
      · exact .inl
    rw [hb, hb', heq]
  · obtain ⟨f, hf, -⟩ := h.exists_cell hi
    rw [flags_clone hf, ← hlength, List.getElem?_concat_length, getElem?_flags, hf, Option.map_some]

/-- A clone that is made after the cancellation is cancelled, another family is not. -/
example : (run [.fresh, .clone 0, .fresh, .cancel 1, .clone 0]).flags = [true, true, false, true] := by
  decide

end CancelTokens

end ScriptHost
