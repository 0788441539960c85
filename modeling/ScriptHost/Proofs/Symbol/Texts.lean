/-
# Texts of types with commas between them

The text of a type made of names holds commas only with a blank behind them, and starts with a
character of a name. So where such texts stand in a row with bare commas between them, the bare
commas tell where each of them ends: the row determines the texts.

Key definitions: `TypeSymbol.IsNamed`, `CommasSpaced`, `Listed`.
Key theorems: `TypeSymbol.listed_text`, `eq_of_append_eq`, `intercalate_inj`.
-/
import Mathlib.Data.List.Basic
import ScriptHost.Proofs.Token.Names
import ScriptHost.Symbol.Type

namespace ScriptHost

open Source

/-- Every name in a type, at any depth of its arguments, is a name. -/
inductive TypeSymbol.IsNamed : TypeSymbol → Prop
  | mk {namespace? : Option String} {name : String} {kind : TypeKind}
    {assembly? : Option AssemblyIdentity} {args : List TypeSymbol} (hname : IsName name)
    (hargs : ∀ a ∈ args, IsNamed a) : IsNamed (.mk namespace? name kind assembly? args)

/-! ### Texts in a row -/

/-- Behind every comma stands a blank. -/
def CommasSpaced : List Char → Prop
  | [] => True
  | c :: r => (c = ',' → r.head? = some ' ') ∧ CommasSpaced r

/-- A text that can stand between bare commas: a blank stands behind each of its commas, and none
at its start. -/
structure Listed (w : List Char) : Prop where
  spaced : CommasSpaced w
  start : ∃ c r, w = c :: r ∧ c ≠ ' '

theorem CommasSpaced.append : ∀ {a b : List Char}, CommasSpaced a → CommasSpaced b →
    CommasSpaced (a ++ b)
  | [], _, _, hb => hb
  | c :: r, b, ha, hb => by
    refine ⟨fun hc => ?_, CommasSpaced.append ha.2 hb⟩
    have hblank := ha.1 hc
    cases r with
    | nil => cases hblank
    | cons d r => exact hblank

theorem commasSpaced_of_not_mem : ∀ {w : List Char}, ',' ∉ w → CommasSpaced w
  | [], _ => trivial
  | c :: r, h => by
    rw [List.mem_cons, not_or] at h
    exact ⟨fun hc => absurd hc.symm h.1, commasSpaced_of_not_mem h.2⟩

theorem Listed.append {a b : List Char} (ha : Listed a) (hb : CommasSpaced b) : Listed (a ++ b) := by
  obtain ⟨c, r, rfl, hc⟩ := ha.start
  exact ⟨ha.spaced.append hb, c, r ++ b, rfl, hc⟩

/-- The texts `ws`, each behind a bare comma. -/
def behindCommas (ws : List (List Char)) : List Char := ws.flatMap (',' :: ·)

theorem intercalate_eq (w : List Char) : ∀ ws : List (List Char),
    [','].intercalate (w :: ws) = w ++ behindCommas ws
  | [] => by simp [behindCommas]
  | v :: ws => by
    rw [List.intercalate_cons_cons, intercalate_eq v ws, behindCommas, behindCommas,
      List.flatMap_cons]
    simp

/-- What begins with a comma and a blank does not begin with a bare comma. -/
theorem append_ne_behindCommas {c : Char} {w more : List Char} {ws : List (List Char)}
    (hw : CommasSpaced (c :: w)) (hws : ∀ x ∈ ws, Listed x) :
    c :: w ++ more ≠ behindCommas ws := by
  intro h
  cases ws with
  | nil => cases h
  | cons x ws =>
    obtain ⟨d, r, rfl, hd⟩ := (hws x List.mem_cons_self).start
    obtain ⟨hc, htail⟩ := List.cons.inj h
    have hblank := hw.1 hc
    cases w with
    | nil => cases hblank
    | cons b w =>
      obtain ⟨hb, -⟩ := List.cons.inj htail
      exact hd (hb.symm.trans (Option.some.inj hblank))

/-- Where bare commas follow, it is told how far a text goes, by induction on the text. -/
theorem eq_of_append_eq : ∀ {w v : List Char} {ws vs : List (List Char)}, CommasSpaced w →
    CommasSpaced v → (∀ x ∈ ws, Listed x) → (∀ x ∈ vs, Listed x) →
      w ++ behindCommas ws = v ++ behindCommas vs → w = v ∧ behindCommas ws = behindCommas vs
  | [], [], _, _, _, _, _, _, h => ⟨rfl, h⟩
  | [], c :: v, _, _, _, hv, hws, _, h => absurd h.symm (append_ne_behindCommas hv hws)
  | c :: w, [], _, _, hw, _, _, hvs, h => absurd h (append_ne_behindCommas hw hvs)
  | c :: w, d :: v, _, _, hw, hv, hws, hvs, h => by
    obtain ⟨rfl, htail⟩ := List.cons.inj h
    obtain ⟨rfl, hbehind⟩ := eq_of_append_eq hw.2 hv.2 hws hvs htail
    exact ⟨rfl, hbehind⟩

theorem behindCommas_inj : ∀ {ws vs : List (List Char)}, (∀ x ∈ ws, Listed x) →
    (∀ x ∈ vs, Listed x) → behindCommas ws = behindCommas vs → ws = vs
  | [], [], _, _, _ => rfl
  | [], v :: vs, _, _, h => by cases h
  | w :: ws, [], _, _, h => by cases h
  | w :: ws, v :: vs, hws, hvs, h => by
    obtain ⟨hw, hmore⟩ := List.forall_mem_cons.mp hws
    obtain ⟨hv, hmore'⟩ := List.forall_mem_cons.mp hvs
    obtain ⟨hwv, hbehind⟩ :=
      eq_of_append_eq hw.spaced hv.spaced hmore hmore' (List.cons.inj h).2
    rw [hwv, behindCommas_inj hmore hmore' hbehind]

/-- **Bare commas between texts tell the texts apart.** -/
theorem intercalate_inj {ws vs : List (List Char)} (hws : ∀ x ∈ ws, Listed x)
    (hvs : ∀ x ∈ vs, Listed x) (h : [','].intercalate ws = [','].intercalate vs) : ws = vs := by
  have hne {w : List Char} {ws : List (List Char)} (hw : Listed w) :
      [','].intercalate (w :: ws) ≠ [] := by
    obtain ⟨c, r, rfl, -⟩ := hw.start
    rw [intercalate_eq]
    exact List.cons_ne_nil _ _
  cases ws with
  | nil =>
    cases vs with
    | nil => rfl
    | cons v vs => exact absurd h.symm (hne (hvs v List.mem_cons_self))
  | cons w ws =>
    cases vs with
    | nil => exact absurd h (hne (hws w List.mem_cons_self))
    | cons v vs =>
      rw [intercalate_eq, intercalate_eq] at h
      refine behindCommas_inj hws hvs ?_
      exact congrArg (List.cons ',') h

/-! ### Texts of types -/

theorem IsName.listed {name : String} (h : IsName name) : Listed name.toList := by
  refine ⟨commasSpaced_of_not_mem (h.not_mem (by decide)), ?_⟩
  obtain ⟨c, r, hname⟩ := List.exists_cons_of_ne_nil h.nonempty
  refine ⟨c, r, hname, ?_⟩
  rintro rfl
  have hmem : ' ' ∈ name.toList := by
    rw [hname]
    exact List.mem_cons_self
  exact h.not_mem (by decide) hmem

namespace TypeSymbol

mutual

/-- **The text of a type made of names can stand between bare commas**, by recursion on the type. -/
theorem listed_text : ∀ {t : TypeSymbol}, t.IsNamed → Listed t.text.toList
  | .mk namespace? name kind assembly? args, .mk hname hargs => by
    unfold text
    split
    · exact hname.listed
    next first more =>
      obtain ⟨hfirst, hmore⟩ := List.forall_mem_cons.mp hargs
      have htext := listed_text hfirst
      have hbrackets : CommasSpaced "[]".toList := commasSpaced_of_not_mem (by decide)
      have hless : CommasSpaced "<".toList := commasSpaced_of_not_mem (by decide)
      have hgreater : CommasSpaced ">".toList := commasSpaced_of_not_mem (by decide)
      split
      · rw [String.toList_append]
        exact htext.append hbrackets
      · simp only [String.toList_append]
        have hopen := (hname.listed.append hless).append htext.spaced
        exact (hopen.append (commasSpaced_textsAfter hmore)).append hgreater

/-- The texts of further arguments hold commas only with a blank behind them. -/
theorem commasSpaced_textsAfter : ∀ {ts : List TypeSymbol}, (∀ t ∈ ts, t.IsNamed) →
    CommasSpaced (textsAfter ts).toList
  | [], _ => by simp [textsAfter, CommasSpaced]
  | t :: more, h => by
    obtain ⟨ht, hmore⟩ := List.forall_mem_cons.mp h
    have hlist : ", ".toList = [',', ' '] := by decide
    have hcomma : CommasSpaced ", ".toList := by
      rw [hlist]
      exact ⟨fun _ => rfl, fun h => absurd h (by decide), trivial⟩
    rw [textsAfter, String.toList_append, String.toList_append]
    exact (hcomma.append (listed_text ht).spaced).append (commasSpaced_textsAfter hmore)

end

end TypeSymbol

end ScriptHost
