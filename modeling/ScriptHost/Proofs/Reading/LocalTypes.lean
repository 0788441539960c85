/-
# Types are read locally

The scanners of a type look one or two tokens ahead, and its arguments nest; all of them
stay in front of a `;` outside all brackets.

Key theorems: `moreSegments_append`, `typeSuffixesWithin_append`, `stays_typeExpr`,
`stays_typeParameters`.
-/
import ScriptHost.Proofs.Reading.Locality

namespace ScriptHost

open Parse Source

variable {k : Continued} {α β : Type} {st : List Delimiter} {s s0 : List Token}

/-! ### Types -/

theorem moreSegments_append (more : List Token) : ∀ {s : List Token}, Inside st s →
    moreSegments (s ++ more) = ((moreSegments s).1, (moreSegments s).2 ++ more) ∧
      (moreSegments s).2 ≠ []
  | [], hs => absurd rfl hs.ne_nil
  | [t], hs => by
    obtain ⟨u, hu, hk⟩ := hs.last
    obtain rfl : t = u := by simpa using hu
    cases more with
    | nil => simp [moreSegments]
    | cons v more => simp [moreSegments, hk]
  | point :: t :: r, hs => by
    simp only [List.cons_append, moreSegments]
    split
    · next h =>
      have htr : Inside st (t :: r) := hs.tail h.1 rfl (by simp)
      have hr : Inside st r := htr.tail h.2 rfl (by simp)
      obtain ⟨h1, h2⟩ := moreSegments_append more hr
      rw [h1]
      exact ⟨rfl, h2⟩
    · exact ⟨rfl, by simp⟩

theorem closeRank?_append (more : List Token) : ∀ {st : List Delimiter} {s : List Token}, Inside st s →
    closeRank? (s ++ more) = (closeRank? s).map (· ++ more)
  | _, [], hs => absurd rfl hs.ne_nil
  | _, t :: r, hs => by
    simp only [List.cons_append, closeRank?]
    split
    · next h =>
      have hr := hs.tail h rfl (by simp)
      exact closeRank?_append more hr
    · split <;> rfl

theorem typeSuffixesWithin_append (more : List Token) : ∀ {n m : Nat} {s : List Token}, Inside st s →
    s.length ≤ n → s.length ≤ m →
      typeSuffixesWithin n (s ++ more) =
          ((typeSuffixesWithin m s).1, (typeSuffixesWithin m s).2 ++ more) ∧
        (typeSuffixesWithin m s).2 ≠ []
  | n, m, [], hs, hn, hm => absurd rfl hs.ne_nil
  | 0, m, t :: r, hs, hn, hm => by simp at hn
  | n + 1, 0, t :: r, hs, hn, hm => by simp at hm
  | n + 1, m + 1, t :: r, hs, hn, hm => by
    rw [List.length_cons] at hn hm
    simp only [List.cons_append, typeSuffixesWithin]
    split
    · next h =>
      have hr := hs.tail h rfl (by simp)
      obtain ⟨h1, h2⟩ := typeSuffixesWithin_append more (n := n) (m := m) hr (by omega) (by omega)
      rw [h1]
      exact ⟨rfl, h2⟩
    · split
      · next h =>
        rw [closeRank?_append more (hs.opening h)]
        cases hc : closeRank? r with
        | none => exact ⟨rfl, by simp⟩
        | some rest =>
          obtain ⟨w, closer, rfl, hw, hk⟩ := neutral_closeRank? hc
          have hrest : Inside st rest := by
            have hin := (hs.opening h).behind hw (by simp)
            obtain ⟨outer, ho, hr⟩ := hin.closing hk
            obtain ⟨-, rfl⟩ := List.cons.inj ho
            exact hr
          rw [List.length_append, List.length_cons] at hn hm
          obtain ⟨h1, h2⟩ :=
            typeSuffixesWithin_append more (n := n) (m := m) hrest (by omega) (by omega)
          simp only [Option.map_some, h1]
          exact ⟨trivial, h2⟩
      · exact ⟨rfl, by simp⟩

theorem stays_dottedName (hs : Inside st s) : Stays k s dottedName dottedName := by
  refine (stays_expectIdentifier hs).bind reads_expectIdentifier hs fun first r hr _ => ?_
  obtain ⟨h1, h2⟩ := moreSegments_append k.more hr
  exact ⟨by simp only [Continued.whole, Continued.part, Continued.onto, Cursor.goto, h1], h2⟩

theorem stays_typeSuffixes (hs : Inside st s) : Stays k s typeSuffixes typeSuffixes := by
  obtain ⟨h1, h2⟩ := typeSuffixesWithin_append k.more (n := (s ++ k.more).length) (m := s.length) hs
    (by simp) (Nat.le_refl _)
  exact ⟨by simp only [typeSuffixes, Continued.whole, Continued.part, Continued.onto, Cursor.goto, h1], h2⟩

theorem stays_typeArguments {type type' : Parse TypeExpr} (ht : Reads type') (hs : Inside st s)
    (hi : ∀ r, Inside st r → r.length < s.length → Stays k r type type') :
    Stays k s (typeArguments type) (typeArguments type') := by
  refine .here_bind ?_
  rw [k.span_whole hs.ne_nil]
  refine .eat_plain hs (by simp) rfl (fun r hr hlt => ?_) (.pure hs.ne_nil _)
  have hlist : Stays k r (commaSeparated type) (commaSeparated type') :=
    stays_commaSeparated ht hr fun q hq hql => hi q hq (by omega)
  refine hlist.bind (reads_commaSeparated ht) hr fun args q hq _ => ?_
  exact .eat_plain hq (by simp) rfl (fun q' hq' _ => .pure hq'.ne_nil _) (.complain hq.ne_nil _)

/-- The span from a place to where a reader stands. -/
theorem Stays.span_bind {g h : Span → Parse β} (hs0 : s0 ≠ [])
    (hk : ∀ span, Stays k s (g span) (h span)) :
    Stays k s (here >>= fun stop => g ((k.whole s0).spanSince stop))
      (here >>= fun stop => h ((k.part s0).spanSince stop)) := by
  refine .here_bind ?_
  rw [k.spanSince_whole hs0]
  exact hk _

theorem Ends.span_bind {g h : Span → Parse β} (hs0 : s0 ≠ [])
    (hk : ∀ span, Ends k s (g span) (h span)) :
    Ends k s (here >>= fun stop => g ((k.whole s0).spanSince stop))
      (here >>= fun stop => h ((k.part s0).spanSince stop)) := by
  refine .here_bind ?_
  rw [k.spanSince_whole hs0]
  exact hk _

theorem stays_typeParts {type type' : Parse TypeExpr} (ht : Reads type') (hs0 : s0 ≠ [])
    (hs : Inside st s) (hi : ∀ r, Inside st r → r.length < s.length → Stays k r type type') :
    Stays k s (typeParts (k.whole s0) type) (typeParts (k.part s0) type') := by
  refine (stays_dottedName hs).bind reads_dottedName hs fun path r hr hd => ?_
  have hle := length_le_of_done reads_dottedName hd
  have hargs : Stays k r (typeArguments type) (typeArguments type') :=
    stays_typeArguments ht hr fun q hq hql => hi q hq (by omega)
  refine hargs.bind (reads_typeArguments ht) hr fun args q hq _ => ?_
  refine (stays_typeSuffixes hq).bind reads_typeSuffixes hq fun suffixes p hp _ => ?_
  exact .span_bind hs0 fun span => .pure hp.ne_nil (TypeExpr.mk path args suffixes span)

theorem dropGlobal_append (more : List Token) {t : Token} {r : List Token}
    (hs : Inside st (t :: r)) (ht : t.kind = .identifier) :
    dropGlobal (t :: r ++ more) = dropGlobal (t :: r) ++ more ∧ Inside st (dropGlobal (t :: r)) := by
  have hr := hs.tail ht rfl (by simp)
  obtain ⟨u, r', rfl⟩ := hr.cons_eq
  simp only [List.cons_append, dropGlobal]
  split
  · next h => exact ⟨rfl, hr.tail h.2.1 rfl (by simp)⟩
  · exact ⟨rfl, hs⟩

/-- **Types**, by induction on how deep their arguments may be nested. -/
theorem stays_typeExprWithin : ∀ {n m : Nat} {s : List Token}, Inside st s → s.length < n →
    s.length < m → Stays k s (typeExprWithin n) (typeExprWithin m)
  | 0, m, s, hs, hn, hm => by omega
  | n + 1, 0, s, hs, hn, hm => by omega
  | n + 1, m + 1, s, hs, hn, hm => by
    obtain ⟨t, r, rfl⟩ := hs.cons_eq
    by_cases ht : t.kind = .identifier
    · obtain ⟨hd, hin⟩ := dropGlobal_append k.more hs ht
      have hlen : (dropGlobal (t :: r)).length ≤ (t :: r).length := by
        rcases dropGlobal_eq (t :: r) with h | ⟨a, b, h, -⟩
        · rw [h]
        · have hl : (t :: r).length = (dropGlobal (t :: r)).length + 2 := congrArg List.length h
          omega
      have hparts : Stays k (dropGlobal (t :: r)) (typeParts (k.whole (t :: r)) (typeExprWithin n))
          (typeParts (k.part (t :: r)) (typeExprWithin m)) :=
        stays_typeParts (reads_typeExprWithin m) hs.ne_nil hin fun q hq hql =>
          stays_typeExprWithin hq (by omega) (by omega)
      have hat : (k.part (t :: r)).isAt .identifier = true := by
        simp [Continued.part, Cursor.isAt, Cursor.kind?, ht]
      have hat' : (k.whole (t :: r)).isAt .identifier = true := by
        rw [k.isAt_whole hs.ne_nil, hat]
      have hgoto : (k.whole (t :: r)).goto (dropGlobal (k.whole (t :: r)).rest) =
          k.whole (dropGlobal (t :: r)) := by
        simp only [Continued.whole, Cursor.goto, hd]
      apply hparts.of_eq
      · simp only [typeExprWithin, hat', ↓reduceIte, hgoto]
      · simp only [typeExprWithin, hat, ↓reduceIte]
        rfl
    · have hat : (k.part (t :: r)).isAt .identifier = false := by
        simp [Continued.part, Cursor.isAt, Cursor.kind?, ht]
      have hc := Stays.complain (k := k) hs.ne_nil (α := TypeExpr)
        (.expectedType (k.part (t :: r)).kind?)
      apply hc.of_eq
      · simp only [typeExprWithin, k.isAt_whole hs.ne_nil, hat, Bool.false_eq_true, ↓reduceIte,
          k.kind?_whole hs.ne_nil]
      · simp only [typeExprWithin, hat, Bool.false_eq_true, ↓reduceIte]

theorem stays_typeExpr (hs : Inside st s) : Stays k s typeExpr typeExpr := by
  have h := stays_typeExprWithin (k := k) (n := (s ++ k.more).length + 1) (m := s.length + 1) hs
    (by rw [List.length_append]; omega) (by omega)
  exact ⟨h.same, h.inside⟩

theorem stays_typeParameter (hs : Inside st s) : Stays k s typeParameter typeParameter := by
  refine (stays_skipAttributes hs).bind reads_skipAttributes hs fun _ r hr _ => ?_
  refine .eat_plain hr (by simp) rfl (fun q hq _ => stays_expectIdentifier hq) ?_
  exact .eat_plain hr (by simp) rfl (fun q hq _ => stays_expectIdentifier hq) (stays_expectIdentifier hr)

theorem stays_typeParameters (hs : Inside st s) : Stays k s typeParameters typeParameters := by
  refine .eat_plain hs (by simp) rfl (fun r hr _ => ?_) (.pure hs.ne_nil _)
  have hlist : Stays k r (commaSeparated typeParameter) (commaSeparated typeParameter) :=
    stays_commaSeparated reads_typeParameter hr fun q hq _ => stays_typeParameter hq
  refine hlist.bind (reads_commaSeparated reads_typeParameter) hr fun names q hq _ => ?_
  exact (stays_expect hq (by simp)).bind (reads_expect rfl) hq fun _ p hp _ => .pure hp.ne_nil _

end ScriptHost
