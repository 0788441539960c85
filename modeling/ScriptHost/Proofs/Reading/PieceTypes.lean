/-
# Types and type parameters, read in step

Both versions of a text have the same types at the same pieces, up to the places of their
parts: a type is read from single tokens only, and no block stands inside one.

Key theorems: `inStep_typeExpr`, `inStep_typeParameters`.
-/
import ScriptHost.Proofs.Reading.Pieces

namespace ScriptHost

open Parse Source

variable {e : Edit} {ps qs w : List (Piece e)}

/-! ### Names -/

/-- The further segments of a name are at the same pieces, two at a time. -/
theorem moreSegments_cursor : ∀ (m : Nat) (ps : List (Piece e)), ps.length ≤ m →
    ∃ (more : Side → List Ident) (w qs : List (Piece e)), ps = w ++ qs ∧
      Keeps (List.map Ident.bare) more ∧
      ∀ s, moreSegments (e.cursor ps s).rest = (more s, (e.cursor qs s).rest)
  | m, [], _ => ⟨fun _ => [], [], [], rfl, fun _ => rfl, fun _ => rfl⟩
  | 0, p :: qs, hm => by simp at hm
  | m + 1, p :: qs, hm => by
    have hstop (h : ∀ s, moreSegments (e.cursor (p :: qs) s).rest = ([], (e.cursor (p :: qs) s).rest)) :
        ∃ (more : Side → List Ident) (w rs : List (Piece e)), p :: qs = w ++ rs ∧
          Keeps (List.map Ident.bare) more ∧
          ∀ s, moreSegments (e.cursor (p :: qs) s).rest = (more s, (e.cursor rs s).rest) :=
      ⟨fun _ => [], [], p :: qs, rfl, fun _ => rfl, h⟩
    by_cases hp : p.kind = .dot
    · obtain ⟨t, ht, rfl⟩ := Piece.eq_token (p := p) (by rw [hp]; simp)
      cases qs with
      | nil => exact hstop fun s => rfl
      | cons q rs =>
        by_cases hq : q.kind = .identifier
        · obtain ⟨u, hu, rfl⟩ := Piece.eq_token (p := q) (by rw [hq]; simp)
          simp only [List.length_cons] at hm
          obtain ⟨more, w, ts, hts, hmore, h⟩ := moreSegments_cursor m rs (by omega)
          refine ⟨fun s => .ofToken (u s) :: more s, _ :: _ :: w, ts, by rw [hts]; rfl,
            fun s => ?_, fun s => ?_⟩
          · simp only [List.map_cons, hmore s]
            exact congrArg (· :: _) (congrArg (Ident.mk · default) (hu.lexeme s))
          · have hdot : (t s).kind = .dot := (Piece.kind_token t ht s).trans hp
            have hname : (u s).kind = .identifier := (Piece.kind_token u hu s).trans hq
            simp only [Edit.rest_token, moreSegments, hdot, hname, and_self, ↓reduceIte, h s]
        · refine hstop fun s => ?_
          obtain ⟨r, hr⟩ := e.rest_cons rs s q
          rw [Edit.rest_token, hr]
          exact moreSegments_of_next (by rwa [q.kind_first]) r
    · refine hstop fun s => ?_
      obtain ⟨r, hr⟩ := e.rest_cons qs s p
      rw [hr]
      exact moreSegments_of_kind (by rwa [p.kind_first]) r

theorem inStep_dottedName (ps : List (Piece e)) :
    InStep (Keeps (List.map Ident.bare)) (fun _ => dottedName) ps := by
  refine (inStep_expectIdentifier ps).bind fun first w qs _ hfirst _ => ?_
  obtain ⟨more, v, rs, hrs, hmore, h⟩ := moreSegments_cursor qs.length qs (Nat.le_refl _)
  refine .done (a := fun s => first s :: more s) hrs (fun s => ?_) fun s => ?_
  · simp only [List.map_cons, hfirst s, hmore s]
  · simp only [h s]
    rfl

/-- A qualifier in front of a name is at the same pieces. -/
theorem dropGlobal_cursor (h : ps.head?.map Piece.kind = some .identifier) :
    ∃ w qs, ps = w ++ qs ∧ ∀ s, dropGlobal (e.cursor ps s).rest = (e.cursor qs s).rest := by
  obtain ⟨p, hp, hk⟩ := Option.map_eq_some_iff.mp h
  obtain ⟨qs, rfl⟩ := List.head?_eq_some_iff.mp hp
  obtain ⟨t, ht, rfl⟩ := Piece.eq_token (p := p) (by rw [hk]; simp)
  cases qs with
  | nil => exact ⟨[], _, rfl, fun _ => rfl⟩
  | cons q rs =>
    by_cases hq : (t .before).lexeme = "global" ∧ q.kind = .operator ∧ q.lexeme = "::"
    · obtain ⟨u, hu, rfl⟩ := Piece.eq_token (p := q) (by rw [hq.2.1]; simp)
      refine ⟨[_, _], rs, rfl, fun s => ?_⟩
      have h1 : (t s).lexeme = "global" := (ht.lexeme s).trans hq.1
      have h2 : (u s).kind = .operator := (hu.kind s).trans hq.2.1
      have h3 : (u s).lexeme = "::" := (hu.lexeme s).trans hq.2.2
      simp only [Edit.rest_token, dropGlobal, h1, h2, h3, and_self, ↓reduceIte]
    · refine ⟨[], _, rfl, fun s => ?_⟩
      obtain ⟨r, hr⟩ := e.rest_cons rs s q
      rw [Edit.rest_token, hr]
      simp only [dropGlobal, ht.lexeme s, q.kind_first, q.lexeme_first, hq, ↓reduceIte]

/-! ### Suffixes -/

/-- A rank is closed behind the same pieces, or not at all. -/
theorem closeRank?_cursor : ∀ ps : List (Piece e),
    (∃ w qs, ps = w ++ qs ∧ ∀ s, closeRank? (e.cursor ps s).rest = some (e.cursor qs s).rest) ∨
      ∀ s, closeRank? (e.cursor ps s).rest = none
  | [] => .inr fun _ => rfl
  | p :: qs => by
    by_cases hcomma : p.kind = .comma
    · obtain ⟨t, ht, rfl⟩ := Piece.eq_token (p := p) (by rw [hcomma]; simp)
      have heq (s : Side) : closeRank? (e.cursor (.token t ht :: qs) s).rest =
          closeRank? (e.cursor qs s).rest := by
        have hk : (t s).kind = .comma := (Piece.kind_token t ht s).trans hcomma
        simp only [Edit.rest_token, closeRank?, hk, ↓reduceIte]
      rcases closeRank?_cursor qs with ⟨w, rs, hrs, h⟩ | h
      · exact .inl ⟨_ :: w, rs, by rw [hrs]; rfl, fun s => (heq s).trans (h s)⟩
      · exact .inr fun s => (heq s).trans (h s)
    by_cases hclose : p.kind = .closing .bracket
    · obtain ⟨t, ht, rfl⟩ := Piece.eq_token (p := p) (by rw [hclose]; simp)
      refine .inl ⟨[_], qs, rfl, fun s => ?_⟩
      have hk : (t s).kind = .closing .bracket := (Piece.kind_token t ht s).trans hclose
      simp only [Edit.rest_token, closeRank?, hk, reduceCtorEq, ↓reduceIte]
    · refine .inr fun s => ?_
      obtain ⟨r, hr⟩ := e.rest_cons qs s p
      simp only [hr, closeRank?, p.kind_first, hcomma, hclose, ↓reduceIte]

/-- Suffixes are at the same pieces, whatever bound each version sets on their number. -/
theorem typeSuffixesWithin_cursor : ∀ (m : Nat) {n : Side → Nat} {ps : List (Piece e)},
    ps.length ≤ m → (∀ s, ps.length ≤ n s) →
      ∃ (suffixes : List TypeSuffix) (w qs : List (Piece e)), ps = w ++ qs ∧
        ∀ s, typeSuffixesWithin (n s) (e.cursor ps s).rest = (suffixes, (e.cursor qs s).rest)
  | m, n, [], hm, hn => ⟨[], [], [], rfl, fun s => by cases n s <;> rfl⟩
  | 0, n, p :: qs, hm, hn => by simp at hm
  | m + 1, n, p :: qs, hm, hn => by
    obtain ⟨k, rfl⟩ := exists_succ fun s => Nat.lt_of_lt_of_le (Nat.succ_pos _) (hn s)
    simp only [List.length_cons] at hm hn
    by_cases hquestion : p.kind = .question
    · obtain ⟨t, ht, rfl⟩ := Piece.eq_token (p := p) (by rw [hquestion]; simp)
      obtain ⟨suffixes, w, rs, hrs, h⟩ := typeSuffixesWithin_cursor m (n := k)
        (show qs.length ≤ m by omega) fun s => by have := hn s; omega
      refine ⟨.nullable :: suffixes, _ :: w, rs, by rw [hrs]; rfl, fun s => ?_⟩
      have hk : (t s).kind = .question := (Piece.kind_token t ht s).trans hquestion
      simp only [Edit.rest_token, typeSuffixesWithin, hk, ↓reduceIte, h s]
    by_cases hopen : p.kind = .opening .bracket
    · obtain ⟨t, ht, rfl⟩ := Piece.eq_token (p := p) (by rw [hopen]; simp)
      have hk (s : Side) : (t s).kind = .opening .bracket := (Piece.kind_token t ht s).trans hopen
      rcases closeRank?_cursor qs with ⟨v, rs, hrs, hclose⟩ | hclose
      · have hlen : rs.length ≤ qs.length := by
          rw [hrs, List.length_append]
          omega
        obtain ⟨suffixes, w, ts, hts, h⟩ := typeSuffixesWithin_cursor m (n := k)
          (show rs.length ≤ m by omega) fun s => by have := hn s; omega
        refine ⟨.array :: suffixes, .token t ht :: v ++ w, ts, by rw [hrs, hts]; simp, fun s => ?_⟩
        simp only [Edit.rest_token, typeSuffixesWithin, hk, reduceCtorEq, ↓reduceIte, hclose s, h s]
      · refine ⟨[], [], _, rfl, fun s => ?_⟩
        simp only [Edit.rest_token, typeSuffixesWithin, hk, reduceCtorEq, ↓reduceIte, hclose s]
    · refine ⟨[], [], _, rfl, fun s => ?_⟩
      obtain ⟨r, hr⟩ := e.rest_cons qs s p
      simp only [hr, typeSuffixesWithin, p.kind_first, hquestion, hopen, ↓reduceIte]

theorem inStep_typeSuffixes (ps : List (Piece e)) :
    InStep (fun a => ∃ suffixes, a = fun _ => suffixes) (fun _ => typeSuffixes) ps := by
  obtain ⟨suffixes, w, qs, hqs, h⟩ := typeSuffixesWithin_cursor ps.length
    (n := fun s => (e.cursor ps s).rest.length) (Nat.le_refl _) fun s => e.length_le ps s
  refine .done (a := fun _ => suffixes) hqs ⟨_, rfl⟩ fun s => ?_
  simp only [typeSuffixes, h s]
  rfl

/-! ### Types -/

theorem inStep_typeArguments {type : Side → Parse TypeExpr} (hr : ∀ s, Reads (type s))
    (hi : ∀ w qs, ps = w ++ qs → InStep (Keeps TypeExpr.bare) type qs) :
    InStep (Keeps (List.map TypeExpr.bare)) (fun s => typeArguments (type s)) ps := by
  refine .here_bind (.eat_ite (by simp) (fun p qs hps => ?_) (.pure (a := fun _ => []) fun _ => rfl))
  have hsuffix (w rs : List (Piece e)) (hqs : qs = w ++ rs) : InStep (Keeps TypeExpr.bare) type rs :=
    hi (p :: w) rs (by rw [hps, hqs]; rfl)
  refine (inStep_commaSeparated hr hsuffix).bind fun args w rs _ hargs _ => ?_
  exact .eat_ite (by simp) (fun _ _ _ => .pure hargs) (.complain fun _ => rfl)

theorem inStep_typeParts (start : Side → Cursor) {type : Side → Parse TypeExpr}
    (hr : ∀ s, Reads (type s))
    (hi : ∀ w qs, ps = w ++ qs → qs.length < ps.length → InStep (Keeps TypeExpr.bare) type qs) :
    InStep (Keeps TypeExpr.bare) (fun s => typeParts (start s) (type s)) ps := by
  refine (inStep_dottedName ps).bind fun path w qs hps hpath hd => ?_
  have hlt := Edit.length_lt hps (takes_dottedName _ _ _ (hd .before))
  have hsuffix (v rs : List (Piece e)) (hqs : qs = v ++ rs) : InStep (Keeps TypeExpr.bare) type rs := by
    refine hi (w ++ v) rs (by rw [hps, hqs, List.append_assoc]) (Nat.lt_of_le_of_lt ?_ hlt)
    rw [hqs, List.length_append]
    omega
  refine (inStep_typeArguments hr hsuffix).bind fun args _ rs _ hargs _ => ?_
  refine (inStep_typeSuffixes rs).bind fun suffixes _ ts _ hsuffixes _ => ?_
  obtain ⟨suffixes, rfl⟩ := hsuffixes
  refine .span_end fun spans s => ?_
  simp only [TypeExpr.bare, TypeExpr.bareAll_eq_map, hpath s, hargs s]

/-- **Types**, by induction on the pieces that are left: the arguments of a type are behind its
name. -/
theorem inStep_typeExprWithin : ∀ (m : Nat) {n : Side → Nat} {ps : List (Piece e)},
    ps.length ≤ m → (∀ s, ps.length < n s) →
      InStep (Keeps TypeExpr.bare) (fun s => typeExprWithin (n s)) ps
  | m, n, ps, hm, hn => by
    obtain ⟨k, rfl⟩ := exists_succ fun s => Nat.lt_of_le_of_lt (Nat.zero_le _) (hn s)
    have hk (s : Side) : ps.length ≤ k s := Nat.le_of_lt_succ (hn s)
    by_cases h : ps.head?.map Piece.kind = some .identifier
    · obtain ⟨w, qs, hps, hdrop⟩ := dropGlobal_cursor h
      have hlen : qs.length ≤ ps.length := by
        rw [hps, List.length_append]
        omega
      have hparts : InStep (Keeps TypeExpr.bare)
          (fun s => typeParts (e.cursor ps s) (typeExprWithin (k s))) qs := by
        refine inStep_typeParts _ (fun s => reads_typeExprWithin (k s)) fun v rs _ hlt => ?_
        cases m with
        | zero => omega
        | succ m => exact inStep_typeExprWithin m (by omega) fun s => by have := hk s; omega
      refine hparts.behind hps fun s => ?_
      simp only [typeExprWithin, Edit.isAt_cursor, h, beq_self_eq_true, ↓reduceIte, hdrop s]
      rfl
    · refine (InStep.complain (c := fun _ => .expectedType (ps.head?.map Piece.kind))
        fun _ => rfl).of_eq fun s => ?_
      simp only [typeExprWithin, Edit.isAt_cursor, beq_false_of_ne h, Bool.false_eq_true, ↓reduceIte,
        Edit.kind?_cursor]

theorem inStep_typeExpr (ps : List (Piece e)) :
    InStep (Keeps TypeExpr.bare) (fun _ => typeExpr) ps :=
  (inStep_typeExprWithin ps.length (n := fun s => (e.cursor ps s).rest.length + 1)
    (Nat.le_refl _) fun s => Nat.lt_succ_of_le (e.length_le ps s)).of_eq fun _ => rfl

/-! ### Type parameters -/

theorem inStep_typeParameter (ps : List (Piece e)) :
    InStep (Keeps Ident.bare) (fun _ => typeParameter) ps := by
  refine (inStep_skipAttributes ps).bind fun _ w qs _ _ _ => ?_
  refine .eat_ite (by simp) (fun _ rs _ => inStep_expectIdentifier rs) ?_
  exact .eat_bind (by simp) (fun _ rs _ => inStep_expectIdentifier rs) (inStep_expectIdentifier qs)

theorem inStep_typeParameters (ps : List (Piece e)) :
    InStep (Keeps (List.map Ident.bare)) (fun _ => typeParameters) ps := by
  refine .eat_ite (by simp) (fun _ qs _ => ?_) (.pure (a := fun _ => []) fun _ => rfl)
  refine (inStep_commaSeparated (fun _ => reads_typeParameter) fun _ rs _ =>
    inStep_typeParameter rs).bind fun names _ rs _ hnames _ => ?_
  exact (inStep_expect (by simp) rs).bind fun _ _ _ _ _ _ => .pure hnames

end ScriptHost
