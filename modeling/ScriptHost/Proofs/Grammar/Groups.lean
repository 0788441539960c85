/-
# Groups are matched exactly

A group is skipped with a stack of the brackets that are to be closed. Here its outcome is told
without the stack. There is a group at an opening bracket if a balanced run starts there, and the
shortest such run is the group. If there is none, some brackets stay open: either up to a bracket
of another kind than the innermost of them, the first one that closes none, or up to the end.
Skipping up to a stop goes over single tokens and whole groups, so it comes to the first stop
outside of groups, unless a bracket without a partner, a group that is not closed or the end is
there before.

Key definitions: `IsGroup`, `LeavesOpen`, `FirstMismatch`, `SkipsGroup`, `HaltsUpTo`, `SkipsUpTo`.
Key theorems: `leavesOpen_iff_nest`, `closeGroup_eq_closed_iff`, `FirstMismatch.unique`,
`skipsGroup`, `skipUntil_clear`, `exists_clear`, `skipping_exact`.
-/
import Mathlib.Data.List.Induction
import ScriptHost.Proofs.Grammar.Acceptance
import ScriptHost.Proofs.Reading.Rounds

namespace ScriptHost

open Parse Source

variable {c d : Cursor} {t opener closer : Token} {pair other inner : Delimiter}
  {st outer : List Delimiter} {r s w v g rest : List Token} {stops : TokenKind → Bool}

/-! ### Groups and open brackets -/

/-- A balanced group: an opening bracket and the one that closes it, with balanced tokens between. -/
inductive IsGroup : List Token → Prop
  | intro {opener closer : Token} {pair : Delimiter} {inner : List Token}
    (ho : opener.kind = .opening pair) (hc : closer.kind = .closing pair) (hi : Balanced inner) :
    IsGroup (opener :: inner ++ [closer])

/-- Tokens that leave the brackets open, from the inside out: balanced runs, with an opening bracket
in front of each but the first. So every closing bracket among them has its partner. -/
inductive LeavesOpen : List Delimiter → List Token → Prop
  | balanced {w : List Token} (h : Balanced w) : LeavesOpen [] w
  | opened {st : List Delimiter} {w v : List Token} {opener : Token} {pair : Delimiter}
    (h : LeavesOpen st w) (ho : opener.kind = .opening pair) (hv : Balanced v) :
    LeavesOpen (pair :: st) (w ++ opener :: v)

theorem Balanced.append {a b : List Token} (ha : Balanced a) (hb : Balanced b) : Balanced (a ++ b) :=
  balanced_iff_neutral.mpr ((neutral_of_balanced ha).append (neutral_of_balanced hb))

theorem IsGroup.balanced (h : IsGroup g) : Balanced g := by
  obtain ⟨ho, hc, hi⟩ := h
  exact .group ho hc hi .nil

theorem IsGroup.ne_nil (h : IsGroup g) : g ≠ [] := by
  obtain ⟨ho, hc, hi⟩ := h
  exact List.cons_ne_nil _ _

/-- A balanced run changes nothing about what is open. -/
theorem LeavesOpen.append (h : LeavesOpen st w) (hv : Balanced v) : LeavesOpen st (w ++ v) := by
  cases h with
  | balanced h => exact .balanced (h.append hv)
  | opened h ho hb =>
    rw [List.append_assoc, List.cons_append]
    exact .opened h ho (hb.append hv)

/-- **What tokens leave open is the stack on which they run**, by induction on what is open one way
and on what was read last the other. -/
theorem leavesOpen_iff_nest : LeavesOpen st w ↔ nest [] w = some st := by
  constructor
  · intro h
    induction h with
    | balanced h => exact neutral_of_balanced h
    | @opened st w v opener pair h ho hv ih =>
      rw [nest_append, ih, Option.bind_some, nest_opening ho]
      exact (neutral_of_balanced hv).nest _
  · intro h
    induction w using List.reverseRecOn generalizing st with
    | nil =>
      obtain rfl := Option.some.inj h
      exact .balanced .nil
    | append_singleton w t ih =>
      rw [nest_append] at h
      obtain ⟨st', hw, ht⟩ := Option.bind_eq_some_iff.mp h
      have hopen := ih hw
      cases hk : t.kind with
      | opening pair =>
        rw [nest_opening hk] at ht
        obtain rfl := Option.some.inj ht
        exact .opened hopen hk .nil
      | closing pair =>
        obtain ⟨outer, rfl, hr⟩ := nest_closing_inv hk ht
        obtain rfl := Option.some.inj hr
        -- the bracket closes a group, which is balanced
        cases hopen with
        | @opened _ w v opener _ hbelow ho hv =>
          have hgroup : Balanced (opener :: v ++ [t]) := (IsGroup.intro ho hk hv).balanced
          rw [List.append_assoc]
          exact hbelow.append hgroup
      | _ =>
        have hplain : t.kind.isBracket = false := by rw [hk]; rfl
        rw [nest_plain hplain] at ht
        obtain rfl := Option.some.inj ht
        exact hopen.append (.plain hplain .nil)

/-! ### The first bracket without a partner -/

/-- The first closing bracket of the tokens that closes none: it is of another kind than the
innermost bracket that the tokens before it leave open. -/
structure FirstMismatch (r w : List Token) (closer : Token) (other : Delimiter) (rest : List Token) :
    Prop where
  split : r = w ++ closer :: rest
  kind : closer.kind = .closing other
  inside : ∃ pair st, LeavesOpen (pair :: st) w ∧ other ≠ pair

/-- The tokens do not run through such a bracket. -/
theorem FirstMismatch.stuck (h : FirstMismatch r w closer other rest) :
    nest [] (w ++ [closer]) = none := by
  obtain ⟨pair, st, hopen, hne⟩ := h.inside
  rw [nest_append, leavesOpen_iff_nest.mp hopen, Option.bind_some]
  simp [nest, h.kind, hne]

theorem FirstMismatch.not_leavesOpen (h : FirstMismatch r w closer other rest) : ¬ LeavesOpen st r := by
  intro hopen
  have hsplit : r = (w ++ [closer]) ++ rest := by rw [h.split]; simp
  have hnest := leavesOpen_iff_nest.mp hopen
  rw [hsplit, nest_append, h.stuck] at hnest
  cases hnest

/-- Of two such brackets none stands behind the other. -/
theorem FirstMismatch.not_lt {w' rest' : List Token} {closer' : Token} {other' : Delimiter}
    (h : FirstMismatch r w closer other rest) (h' : FirstMismatch r w' closer' other' rest') :
    ¬ w.length < w'.length := by
  intro hlt
  have hbegins : w ++ [closer] <+: w' := by
    have hlength : (w ++ [closer]).length ≤ w'.length := by
      rw [List.length_append, List.length_singleton]
      omega
    have hr : w ++ [closer] <+: r := ⟨rest, by rw [h.split]; simp⟩
    exact List.prefix_of_prefix_length_le hr ⟨closer' :: rest', h'.split.symm⟩ hlength
  obtain ⟨v, rfl⟩ := hbegins
  obtain ⟨pair, st, hopen, -⟩ := h'.inside
  have hnest := leavesOpen_iff_nest.mp hopen
  rw [nest_append, h.stuck] at hnest
  cases hnest

/-- **There is one first bracket that closes none.** -/
theorem FirstMismatch.unique {w' rest' : List Token} {closer' : Token} {other' : Delimiter}
    (h : FirstMismatch r w closer other rest) (h' : FirstMismatch r w' closer' other' rest') :
    closer = closer' ∧ other = other' ∧ rest = rest' := by
  have hlength : w.length = w'.length := by
    have hlt := h.not_lt h'
    have hgt := h'.not_lt h
    omega
  have hsplit := h.split.symm.trans h'.split
  obtain ⟨-, hbehind⟩ := List.append_inj hsplit hlength
  obtain ⟨rfl, rfl⟩ := List.cons.inj hbehind
  have hkind := h.kind.symm.trans h'.kind
  exact ⟨rfl, TokenKind.closing.inj hkind, rfl⟩

/-! ### The end of a group -/

/-- **A group closes exactly where its bracket stands behind a balanced run.** -/
theorem closeGroup_eq_closed_iff : closeGroup pair [] r = .closed closer rest ↔
    ∃ v, r = v ++ closer :: rest ∧ Balanced v ∧ closer.kind = .closing pair := by
  constructor
  · exact balanced_of_closed
  · rintro ⟨v, rfl, hv, hc⟩
    rw [closeGroup_neutral (neutral_of_balanced hv)]
    simp [closeGroup, hc]

/-! ### Skipping a group -/

/-- A balanced run that starts with an opening bracket starts with a group. -/
theorem exists_group_of_balanced (h : Balanced (opener :: w)) (ho : opener.kind = .opening pair) :
    ∃ v closer s, w = v ++ closer :: s ∧ Balanced v ∧ closer.kind = .closing pair := by
  generalize hall : opener :: w = all at h
  cases h with
  | nil => cases hall
  | plain ht hr =>
    obtain ⟨rfl, -⟩ := List.cons.inj hall
    rw [ho] at ht
    cases ht
  | @group first closer kind v s hfirst hc hi hr =>
    rw [List.cons_append] at hall
    obtain ⟨rfl, hw⟩ := List.cons.inj hall
    obtain rfl := TokenKind.opening.inj (ho.symm.trans hfirst)
    exact ⟨v, closer, s, hw, hi, hc⟩

/-- The outcome of skipping a group at the opening bracket `opener`. A reader has no list of
problems that it could add to: but for the tokens that are left, the cursor it gives is the one it
was given. -/
structure SkipsGroup (c : Cursor) (opener : Token) (pair : Delimiter) : Prop where
  /-- Just a group is taken, and its closing bracket is given. -/
  done_iff : ∀ closer d, skipGroup c = .done closer d ↔
    ∃ g r, c.rest = g ++ r ∧ IsGroup g ∧ g.getLast? = some closer ∧ d = c.goto r
  /-- A group is taken if a balanced run of tokens starts here. -/
  isDone_iff : (skipGroup c).isDone ↔ ∃ w, w <+: c.rest ∧ w ≠ [] ∧ Balanced w
  /-- The group that is taken is the shortest of these runs. -/
  shortest : ∀ closer d, skipGroup c = .done closer d →
    ∀ w, w <+: c.rest → w ≠ [] → Balanced w → c.readUpTo d <+: w
  /-- Otherwise the first bracket that closes none is reported, and it is taken, or the opening
  bracket is, at the end. -/
  failed_iff : ∀ e d, skipGroup c = .failed e d ↔ (¬ ∃ w, w <+: c.rest ∧ w ≠ [] ∧ Balanced w) ∧
    ((∃ w closer other r, FirstMismatch c.rest w closer other r ∧
      e = ⟨.unexpectedCloser other, closer.span⟩ ∧ d = c.goto r) ∨
    (∃ st, LeavesOpen st c.rest) ∧ e = ⟨.unclosed pair, opener.span⟩ ∧ d = c.goto [])

section SkipGroup

variable (hr : c.rest = opener :: r) (ho : opener.kind = .opening pair)

include hr ho

theorem skipGroup_eq : skipGroup c =
    match closeGroup pair [] r with
    | .closed closer rest => .done closer (c.goto rest)
    | .mismatched closer other rest => .failed ⟨.unexpectedCloser other, closer.span⟩ (c.goto rest)
    | .unclosed => .failed ⟨.unclosed pair, opener.span⟩ (c.goto []) := by
  cases hclose : closeGroup pair [] r <;> simp only [skipGroup, hr, ho, hclose]

theorem skipGroup_eq_done_iff : skipGroup c = .done closer d ↔
    ∃ rest, closeGroup pair [] r = .closed closer rest ∧ d = c.goto rest := by
  rw [skipGroup_eq hr ho]
  split
  next closer' rest hclose =>
    rw [hclose]
    constructor
    · intro h
      obtain ⟨rfl, rfl⟩ := Reply.done.inj h
      exact ⟨rest, rfl, rfl⟩
    · rintro ⟨rest', h, rfl⟩
      obtain ⟨rfl, rfl⟩ := GroupEnd.closed.inj h
      rfl
  all_goals simp_all

/-- The tokens behind a group, if one starts here, which begins every balanced run that does. -/
theorem exists_closed_of_balanced (hbegins : w <+: c.rest) (hne : w ≠ []) (hw : Balanced w) :
    ∃ v closer rest s, c.rest = (opener :: v ++ [closer]) ++ rest ∧ w = (opener :: v ++ [closer]) ++ s ∧
      skipGroup c = .done closer (c.goto rest) := by
  obtain ⟨more, hmore⟩ := hbegins
  obtain ⟨first, w, rfl⟩ := List.exists_cons_of_ne_nil hne
  rw [hr, List.cons_append] at hmore
  obtain ⟨rfl, rfl⟩ := List.cons.inj hmore
  obtain ⟨v, closer, s, rfl, hv, hc⟩ := exists_group_of_balanced hw ho
  refine ⟨v, closer, s ++ more, s, by rw [hr]; simp, by simp, ?_⟩
  apply (skipGroup_eq_done_iff hr ho).mpr
  exact ⟨s ++ more, closeGroup_eq_closed_iff.mpr ⟨v, by simp, hv, hc⟩, rfl⟩

theorem skipGroup_eq_done_iff_group : skipGroup c = .done closer d ↔
    ∃ g r, c.rest = g ++ r ∧ IsGroup g ∧ g.getLast? = some closer ∧ d = c.goto r := by
  constructor
  · intro h
    obtain ⟨rest, hclose, rfl⟩ := (skipGroup_eq_done_iff hr ho).mp h
    obtain ⟨v, rfl, hv, hc⟩ := closeGroup_eq_closed_iff.mp hclose
    exact ⟨opener :: v ++ [closer], rest, by rw [hr]; simp, .intro ho hc hv, List.getLast?_concat, rfl⟩
  · rintro ⟨g, rest, hg, hgroup, hlast, rfl⟩
    cases hgroup with
    | @intro first last kind v hfirst hc hv =>
      rw [hr, List.append_assoc, List.cons_append] at hg
      obtain ⟨rfl, rfl⟩ := List.cons.inj hg
      obtain rfl := TokenKind.opening.inj (ho.symm.trans hfirst)
      obtain rfl := Option.some.inj (List.getLast?_concat.symm.trans hlast)
      apply (skipGroup_eq_done_iff hr ho).mpr
      exact ⟨rest, closeGroup_eq_closed_iff.mpr ⟨v, rfl, hv, hc⟩, rfl⟩

/-- What a group that is skipped tells of its end. -/
theorem skipGroup_failed {e : ParseError} (h : skipGroup c = .failed e d) :
    (∃ w closer other rest, FirstMismatch c.rest w closer other rest ∧
      e = ⟨.unexpectedCloser other, closer.span⟩ ∧ d = c.goto rest) ∨
    (∃ st, LeavesOpen st c.rest) ∧ e = ⟨.unclosed pair, opener.span⟩ ∧ d = c.goto [] := by
  have hfound := found_closeGroup pair [] r
  rw [skipGroup_eq hr ho] at h
  split at h
  · cases h
  next closer other rest hclose =>
    obtain ⟨rfl, rfl⟩ := Reply.failed.inj h
    rw [hclose] at hfound
    cases hfound with
    | @mismatched w _ _ _ inner st split run kind ne =>
      subst split
      have hopen : LeavesOpen (inner :: st) (opener :: w) := by
        rw [leavesOpen_iff_nest, nest_opening ho]
        exact run
      exact .inl ⟨opener :: w, closer, other, rest, ⟨hr, kind, inner, st, hopen, ne⟩, rfl, rfl⟩
  next hclose =>
    obtain ⟨rfl, rfl⟩ := Reply.failed.inj h
    rw [hclose] at hfound
    cases hfound with
    | @unclosed inner st run =>
      refine .inr ⟨⟨inner :: st, ?_⟩, rfl, rfl⟩
      rw [leavesOpen_iff_nest, hr, nest_opening ho]
      exact run

/-- **Groups are skipped exactly.** -/
theorem skipsGroup : SkipsGroup c opener pair where
  done_iff closer d := skipGroup_eq_done_iff_group hr ho
  isDone_iff := by
    constructor
    · intro h
      cases hreply : skipGroup c with
      | done closer d =>
        obtain ⟨g, rest, hg, hgroup, -, -⟩ := (skipGroup_eq_done_iff_group hr ho).mp hreply
        exact ⟨g, ⟨rest, hg.symm⟩, hgroup.ne_nil, hgroup.balanced⟩
      | failed e d =>
        rw [hreply] at h
        cases h
    · rintro ⟨w, hbegins, hne, hw⟩
      obtain ⟨v, closer, rest, s, -, -, hdone⟩ := exists_closed_of_balanced hr ho hbegins hne hw
      rw [hdone]
      rfl
  shortest closer d h w hbegins hne hw := by
    obtain ⟨v, closer', rest, s, hrest, rfl, hdone⟩ :=
      exists_closed_of_balanced hr ho hbegins hne hw
    obtain ⟨rfl, rfl⟩ := Reply.done.inj (h.symm.trans hdone)
    rw [readUpTo_eq hrest]
    exact List.prefix_append _ _
  failed_iff e d := by
    constructor
    · intro h
      refine ⟨?_, skipGroup_failed hr ho h⟩
      rintro ⟨w, hbegins, hne, hw⟩
      obtain ⟨v, closer, rest, s, -, -, hdone⟩ := exists_closed_of_balanced hr ho hbegins hne hw
      cases h.symm.trans hdone
    · rintro ⟨hnone, hend⟩
      cases hreply : skipGroup c with
      | done closer d' =>
        obtain ⟨g, rest, hg, hgroup, -, -⟩ := (skipGroup_eq_done_iff_group hr ho).mp hreply
        exact absurd ⟨g, ⟨rest, hg.symm⟩, hgroup.ne_nil, hgroup.balanced⟩ hnone
      | failed e' d' =>
        rcases skipGroup_failed hr ho hreply with
            ⟨w', closer', other', rest', hfirst', rfl, rfl⟩ | ⟨⟨st', hst'⟩, rfl, rfl⟩ <;>
          rcases hend with ⟨w, closer, other, rest, hfirst, rfl, rfl⟩ | ⟨⟨st, hst⟩, rfl, rfl⟩
        · obtain ⟨rfl, rfl, rfl⟩ := hfirst.unique hfirst'
          rfl
        · exact absurd hst hfirst'.not_leavesOpen
        · exact absurd hst' hfirst.not_leavesOpen
        · rfl

end SkipGroup

/-! ### Skipping up to a stop -/

/-- Why skipping comes to a halt in front of the tokens: one that stops it stands next, or a closing
bracket, a group that cannot be skipped, or nothing. The reply is given along. -/
inductive HaltsUpTo (stops : TokenKind → Bool) (c : Cursor) : Reply Unit → Prop
  | stop {t : Token} {r : List Token} (hr : c.rest = t :: r) (hs : stops t.kind) :
    HaltsUpTo stops c (.done () c)
  | closer {t : Token} {r : List Token} {pair : Delimiter} (hr : c.rest = t :: r)
    (hs : stops t.kind = false) (hk : t.kind = .closing pair) :
    HaltsUpTo stops c (.failed ⟨.unexpectedCloser pair, t.span⟩ c)
  | group {t : Token} {r : List Token} {pair : Delimiter} {e : ParseError} {d : Cursor}
    (hr : c.rest = t :: r) (hs : stops t.kind = false) (hk : t.kind = .opening pair)
    (hg : skipGroup c = .failed e d) : HaltsUpTo stops c (.failed e d)
  | finish (hr : c.rest = []) : HaltsUpTo stops c (.failed ⟨.unexpectedEnd, .point c.finish⟩ c)

/-- A round of skipping: a stop, a token, a group or the end. -/
theorem skipUntil_eq_round (stops : TokenKind → Bool) (c : Cursor) :
    skipUntil stops c = untilRound stops (skipUntil stops) c :=
  (answers_until stops).unfold c

theorem skipUntil_of_halts {reply : Reply Unit} (h : HaltsUpTo stops c reply) :
    skipUntil stops c = reply := by
  rw [skipUntil_eq_round]
  cases h with
  | stop hr hs => simp only [untilRound, hr, hs, ↓reduceIte]
  | closer hr hs hk =>
    rw [hk] at hs
    simp only [untilRound, hr, hk, hs, Bool.false_eq_true, ↓reduceIte, complain, Cursor.span]
  | group hr hs hk hg =>
    rw [hk] at hs
    simp only [untilRound, hr, hk, hs, Bool.false_eq_true, ↓reduceIte, hg]
  | finish hr => simp only [untilRound, hr, complain, Cursor.span]

theorem skipUntil_plain (hr : c.rest = t :: r) (hk : t.kind.isBracket = false)
    (hs : stops t.kind = false) : skipUntil stops c = skipUntil stops (c.goto r) := by
  rw [skipUntil_eq_round]
  simp only [untilRound, hr, hs, Bool.false_eq_true, ↓reduceIte]
  cases h : t.kind <;> simp_all [TokenKind.isBracket]

theorem skipUntil_group (hr : c.rest = t :: r) (hk : t.kind = .opening pair)
    (hs : stops t.kind = false) (hg : skipGroup c = .done closer d) :
    skipUntil stops c = skipUntil stops d := by
  rw [skipUntil_eq_round]
  rw [hk] at hs
  simp only [untilRound, hr, hk, hs, Bool.false_eq_true, ↓reduceIte, hg]

/-- **Tokens and groups that do not stop it are skipped**, by induction on them. -/
theorem skipUntil_clear (h : Clear stops w) : ∀ {c : Cursor} {r : List Token}, c.rest = w ++ r →
    skipUntil stops c = skipUntil stops (c.goto r) := by
  induction h with
  | nil =>
    rintro c r rfl
    rfl
  | plain hk hs _ ih =>
    intro c r hr
    rw [skipUntil_plain hr hk hs, ih rfl]
    rfl
  | @group opener closer pair v w ho hs hc hi _ ih =>
    intro c r hr
    have hdone : skipGroup c = .done closer (c.goto (w ++ r)) := by
      apply (skipGroup_eq_done_iff_group (r := v ++ closer :: (w ++ r)) (by rw [hr]; simp) ho).mpr
      refine ⟨_, w ++ r, ?_, .intro ho hc hi, List.getLast?_concat, rfl⟩
      rw [hr]
      simp
    rw [skipUntil_group (r := v ++ closer :: (w ++ r)) (by rw [hr]; simp) ho hs hdone, ih rfl]
    rfl

/-- **Skipping comes to a halt**, by induction on the tokens that are left. -/
theorem exists_clear (stops : TokenKind → Bool) : ∀ (n : Nat) (c : Cursor), c.rest.length ≤ n →
    ∃ w r reply, c.rest = w ++ r ∧ Clear stops w ∧ HaltsUpTo stops (c.goto r) reply := by
  intro n
  induction n with
  | zero =>
    intro c hn
    have hnil : c.rest = [] := List.length_eq_zero_iff.mp (Nat.le_zero.mp hn)
    exact ⟨[], [], _, hnil, .nil, .finish rfl⟩
  | succ n ih =>
    intro c hn
    cases hr : c.rest with
    | nil => exact ⟨[], [], _, rfl, .nil, .finish rfl⟩
    | cons t r =>
      rw [hr, List.length_cons] at hn
      by_cases hs : stops t.kind = true
      · exact ⟨[], t :: r, _, rfl, .nil, .stop rfl hs⟩
      have hs : stops t.kind = false := Bool.eq_false_iff.mpr hs
      have hplain (hk : t.kind.isBracket = false) : ∃ w s reply, t :: r = w ++ s ∧ Clear stops w ∧
          HaltsUpTo stops (c.goto s) reply := by
        obtain ⟨w, s, reply, hw, hclear, hhalt⟩ := ih (c.goto r) (Nat.le_of_succ_le_succ hn)
        exact ⟨t :: w, s, reply, congrArg (t :: ·) hw, .plain hk hs hclear, hhalt⟩
      cases hk : t.kind with
      | opening pair =>
        cases hg : skipGroup c with
        | failed e d =>
          have hhalt : HaltsUpTo stops (c.goto (t :: r)) (.failed e d) := by
            refine .group rfl hs hk ?_
            rw [← hg, ← hr]
            rfl
          exact ⟨[], t :: r, _, rfl, .nil, hhalt⟩
        | done closer d =>
          obtain ⟨rest, hclose, rfl⟩ := (skipGroup_eq_done_iff hr hk).mp hg
          obtain ⟨v, rfl, hv, hc⟩ := closeGroup_eq_closed_iff.mp hclose
          rw [List.length_append, List.length_cons] at hn
          have hlength : (c.goto rest).rest.length ≤ n := by
            show rest.length ≤ n
            omega
          obtain ⟨w, s, reply, hw, hclear, hhalt⟩ := ih (c.goto rest) hlength
          obtain rfl : rest = w ++ s := hw
          exact ⟨t :: v ++ closer :: w, s, reply, by simp, .group hk hs hc hv hclear, hhalt⟩
      | closing pair => exact ⟨[], t :: r, _, rfl, .nil, .closer rfl hs hk⟩
      | _ => exact hplain (by rw [hk]; rfl)

/-- **Skipping gives the reply of the place where it comes to a halt.** -/
theorem skipUntil_eq_iff {reply : Reply Unit} : skipUntil stops c = reply ↔
    ∃ w r, c.rest = w ++ r ∧ Clear stops w ∧ HaltsUpTo stops (c.goto r) reply := by
  constructor
  · rintro rfl
    obtain ⟨w, r, reply, hr, hclear, hhalt⟩ := exists_clear stops _ c (Nat.le_refl _)
    rw [skipUntil_clear hclear hr, skipUntil_of_halts hhalt]
    exact ⟨w, r, hr, hclear, hhalt⟩
  · rintro ⟨w, r, hr, hclear, hhalt⟩
    rw [skipUntil_clear hclear hr, skipUntil_of_halts hhalt]

/-- The outcome of skipping up to a token that `stops`. -/
structure SkipsUpTo (stops : TokenKind → Bool) (c : Cursor) : Prop where
  /-- Tokens and whole groups are taken up to the first stop, and that one stays. -/
  done_iff : ∀ d, skipUntil stops c = .done () d ↔
    ∃ w t r, c.rest = w ++ t :: r ∧ Clear stops w ∧ stops t.kind ∧ d = c.goto (t :: r)
  /-- Otherwise tokens and whole groups are taken up to what cannot be skipped. -/
  failed_iff : ∀ e d, skipUntil stops c = .failed e d ↔
    ∃ w r, c.rest = w ++ r ∧ Clear stops w ∧ HaltsUpTo stops (c.goto r) (.failed e d)

theorem skipsUpTo (stops : TokenKind → Bool) (c : Cursor) : SkipsUpTo stops c where
  failed_iff e d := skipUntil_eq_iff
  done_iff d := by
    rw [skipUntil_eq_iff]
    constructor
    · rintro ⟨w, r, hr, hclear, hhalt⟩
      cases hhalt with
      | @stop t r' hr' hs =>
        obtain rfl : r = t :: r' := hr'
        exact ⟨w, t, r', hr, hclear, hs, rfl⟩
    · rintro ⟨w, t, r, hr, hclear, hs, rfl⟩
      exact ⟨w, t :: r, hr, hclear, .stop rfl hs⟩

/-- **Brackets are matched exactly**: at an opening bracket a group is skipped exactly if one starts
there, the shortest balanced run, and up to a stop exactly what stands in front of the first one
outside of groups. -/
theorem skipping_exact (c : Cursor) :
    (∀ opener ∈ c.rest.head?, ∀ pair, opener.kind = .opening pair → SkipsGroup c opener pair) ∧
      ∀ stops, SkipsUpTo stops c := by
  refine ⟨fun opener hopener pair ho => ?_, fun stops => skipsUpTo stops c⟩
  obtain ⟨r, hr⟩ := List.head?_eq_some_iff.mp hopener
  exact skipsGroup hr ho

/-- A group that holds a group of another kind, and a comma behind it. -/
def sampleGroups : Cursor := .ofLexed (lex "(a, [b, c]), d")

theorem sampleGroups_skipped : ∃ opener ∈ sampleGroups.rest.head?, opener.kind = .opening .paren ∧
    (skipGroup sampleGroups).isDone ∧ SkipsUpTo (· == .comma) sampleGroups := by
  have hopener : sampleGroups.rest.head? = some ⟨.opening .paren, "(", ⟨0, 1, 1⟩, 1⟩ := by
    decide +kernel
  obtain ⟨hgroup, hupTo⟩ := skipping_exact sampleGroups
  have hskips := hgroup _ hopener .paren rfl
  refine ⟨_, hopener, rfl, hskips.isDone_iff.mpr ?_, hupTo _⟩
  exact ⟨sampleGroups.rest.take 9, List.take_prefix _ _, by decide +kernel, by decide +kernel⟩

end ScriptHost
