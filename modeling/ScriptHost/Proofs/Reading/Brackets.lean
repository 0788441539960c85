/-
# Brackets, and where a group ends

The open brackets in front of a token are a stack, and tokens run on it: `nest`. A run of
tokens that leaves every stack as it was is neutral; these are the runs that are balanced
over the three bracket pairs. Groups are searched with such a stack (`closeGroup`), so the
end of a group does not depend on what stands behind it, and what a group takes is neutral.

Key definitions: `nest`, `Neutral`, `Balanced`, `GroupEnd.Found`.
Key theorems: `balanced_iff_neutral`, `closeGroup_append`, `found_closeGroup`,
`closeGroup_neutral`, `balanced_of_closed`.
-/
import ScriptHost.Script.Group

namespace ScriptHost

/-- The open brackets after the tokens, from the inside out, if every closing bracket closes
the innermost open one. -/
def nest : List Delimiter → List Token → Option (List Delimiter)
  | st, [] => some st
  | st, t :: r =>
    match t.kind with
    | .opening pair => nest (pair :: st) r
    | .closing pair =>
      match st with
      | [] => none
      | inner :: outer => if pair = inner then nest outer r else none
    | _ => nest st r

/-- Tokens that leave the open brackets as they are. -/
def Neutral (w : List Token) : Prop := nest [] w = some []

/-- Whether a kind of token is a bracket. -/
def TokenKind.isBracket : TokenKind → Bool
  | .opening _ | .closing _ => true
  | _ => false

/-- Tokens that are balanced over the three bracket pairs. -/
inductive Balanced : List Token → Prop
  | nil : Balanced []
  | plain {t : Token} {r : List Token} (ht : t.kind.isBracket = false) (hr : Balanced r) :
    Balanced (t :: r)
  | group {opener closer : Token} {pair : Delimiter} {inner r : List Token}
    (ho : opener.kind = .opening pair) (hc : closer.kind = .closing pair)
    (hi : Balanced inner) (hr : Balanced r) : Balanced (opener :: inner ++ closer :: r)

/-! ### Running tokens on a stack -/

@[simp] theorem nest_nil (st : List Delimiter) : nest st [] = some st := rfl

variable {t : Token} {pair : Delimiter} {st st' : List Delimiter} {r w s : List Token}

theorem nest_opening (h : t.kind = .opening pair) : nest st (t :: r) = nest (pair :: st) r := by
  simp [nest, h]

theorem nest_closing (h : t.kind = .closing pair) : nest (pair :: st) (t :: r) = nest st r := by
  simp [nest, h]

/-- A closing bracket that runs through closes the innermost open one. -/
theorem nest_closing_inv (h : t.kind = .closing pair) (hn : nest st (t :: r) = some st') :
    ∃ outer, st = pair :: outer ∧ nest outer r = some st' := by
  cases st with
  | nil => simp [nest, h] at hn
  | cons inner outer =>
    simp only [nest, h] at hn
    split at hn
    · next he => exact ⟨outer, by rw [he], hn⟩
    · cases hn

theorem nest_plain (h : t.kind.isBracket = false) : nest st (t :: r) = nest st r := by
  rw [nest]
  split
  · next hk => simp [hk, TokenKind.isBracket] at h
  · next hk => simp [hk, TokenKind.isBracket] at h
  · rfl

theorem nest_append : ∀ (st : List Delimiter) (a b : List Token),
    nest st (a ++ b) = (nest st a).bind (nest · b)
  | st, [], b => rfl
  | st, t :: a, b => by
    rw [List.cons_append]
    simp only [nest]
    split
    · exact nest_append _ a b
    · split
      · rfl
      · split
        · exact nest_append _ a b
        · rfl
    · exact nest_append _ a b

/-- Brackets below those that the tokens touch stay as they are. -/
theorem nest_frame : ∀ {w : List Token} {st st' : List Delimiter} (below : List Delimiter),
    nest st w = some st' → nest (st ++ below) w = some (st' ++ below)
  | [], st, st', below, h => by
    obtain rfl : st = st' := by simpa using h
    rfl
  | t :: w, st, st', below, h => by
    cases hk : t.kind with
    | opening pair =>
      rw [nest_opening hk] at h ⊢
      exact nest_frame below h
    | closing pair =>
      obtain ⟨outer, rfl, ho⟩ := nest_closing_inv hk h
      rw [List.cons_append, nest_closing hk]
      exact nest_frame below ho
    | _ =>
      rw [nest_plain (by rw [hk]; rfl)] at h ⊢
      exact nest_frame below h

/-! ### Neutral runs -/

theorem Neutral.nest (h : Neutral w) (st : List Delimiter) : nest st w = some st :=
  nest_frame st h

theorem Neutral.nil : Neutral [] := rfl

theorem Neutral.append {a b : List Token} (ha : Neutral a) (hb : Neutral b) : Neutral (a ++ b) := by
  rw [Neutral, nest_append, ha]
  exact hb

theorem Neutral.single (h : t.kind.isBracket = false) : Neutral [t] := nest_plain h

theorem Neutral.cons (h : t.kind.isBracket = false) (hw : Neutral w) : Neutral (t :: w) :=
  (Neutral.single h).append hw

/-- What stands behind a neutral run sees the same open brackets. -/
theorem Neutral.nest_append (h : Neutral w) : ScriptHost.nest st (w ++ s) = ScriptHost.nest st s := by
  rw [ScriptHost.nest_append, h.nest]
  rfl

/-- A neutral run in brackets is neutral. -/
theorem Neutral.group {opener closer : Token} (ho : opener.kind = .opening pair)
    (hc : closer.kind = .closing pair) (h : Neutral w) : Neutral (opener :: w ++ [closer]) := by
  rw [Neutral, List.cons_append, nest_opening ho, h.nest_append, nest_closing hc]
  rfl

/-- **What is balanced is neutral**, by induction on how it is balanced. -/
theorem neutral_of_balanced (h : Balanced w) : Neutral w := by
  induction h with
  | nil => exact .nil
  | plain ht _ ih => exact .cons ht ih
  | group ho hc _ _ hi hr =>
    have hgroup := (Neutral.group ho hc hi).append hr
    simpa using hgroup

/-- Tokens that close the open brackets close the innermost one behind a balanced run. -/
theorem balanced_of_nest : ∀ (n : Nat) {w : List Token} {pair : Delimiter} {outer : List Delimiter},
    w.length ≤ n → nest (pair :: outer) w = some [] →
      ∃ inner closer rest, w = inner ++ closer :: rest ∧ Balanced inner ∧
        closer.kind = .closing pair ∧ nest outer rest = some []
  | n, [], pair, outer, hn, h => by simp at h
  | 0, t :: r, pair, outer, hn, h => by simp at hn
  | n + 1, t :: r, pair, outer, hn, h => by
    rw [List.length_cons] at hn
    cases hk : t.kind with
    | opening first =>
      rw [nest_opening hk] at h
      obtain ⟨inner, closer, rest, rfl, hb, hc, hr⟩ := balanced_of_nest n (by omega) h
      have hlen : rest.length ≤ n := by
        rw [List.length_append, List.length_cons] at hn
        omega
      obtain ⟨inner', closer', rest', rfl, hb', hc', hr'⟩ := balanced_of_nest n hlen hr
      exact ⟨t :: inner ++ closer :: inner', closer', rest', by simp, .group hk hc hb hb', hc', hr'⟩
    | closing other =>
      obtain ⟨outer', he, hr⟩ := nest_closing_inv hk h
      obtain ⟨rfl, rfl⟩ := List.cons.inj he
      exact ⟨[], t, r, rfl, .nil, hk, hr⟩
    | _ =>
      have hb : t.kind.isBracket = false := by rw [hk]; rfl
      rw [nest_plain hb] at h
      obtain ⟨inner, closer, rest, rfl, hi, hc, hr⟩ := balanced_of_nest n (by omega) h
      exact ⟨t :: inner, closer, rest, rfl, .plain hb hi, hc, hr⟩

theorem balanced_of_neutral : ∀ (n : Nat) {w : List Token}, w.length ≤ n → Neutral w → Balanced w
  | n, [], hn, h => .nil
  | 0, t :: r, hn, h => by simp at hn
  | n + 1, t :: r, hn, h => by
    rw [List.length_cons] at hn
    unfold Neutral at h
    cases hk : t.kind with
    | opening first =>
      rw [nest_opening hk] at h
      obtain ⟨inner, closer, rest, rfl, hb, hc, hr⟩ := balanced_of_nest n (by omega) h
      have hlen : rest.length ≤ n := by
        rw [List.length_append, List.length_cons] at hn
        omega
      exact .group hk hc hb (balanced_of_neutral n hlen hr)
    | closing other =>
      obtain ⟨outer, he, -⟩ := nest_closing_inv hk h
      cases he
    | _ =>
      have hb : t.kind.isBracket = false := by rw [hk]; rfl
      rw [nest_plain hb] at h
      exact .plain hb (balanced_of_neutral n (by omega) h)

/-- **The balanced runs are the neutral ones.** -/
theorem balanced_iff_neutral : Balanced w ↔ Neutral w :=
  ⟨neutral_of_balanced, balanced_of_neutral w.length (Nat.le_refl _)⟩

instance (w : List Token) : Decidable (Neutral w) :=
  inferInstanceAs (Decidable (nest [] w = some []))

instance (w : List Token) : Decidable (Balanced w) := decidable_of_iff _ balanced_iff_neutral.symm

/-! ### Groups -/

/-- The end of a group when more tokens follow. -/
def GroupEnd.onto (more : List Token) : GroupEnd → GroupEnd
  | .closed closer rest => .closed closer (rest ++ more)
  | .mismatched closer pair rest => .mismatched closer pair (rest ++ more)
  | .unclosed => .unclosed

/-- **Where a group ends does not depend on what follows.** -/
theorem closeGroup_append (more : List Token) : ∀ (pair : Delimiter) (outer : List Delimiter)
    (r : List Token), closeGroup pair outer r ≠ .unclosed →
      closeGroup pair outer (r ++ more) = (closeGroup pair outer r).onto more
  | pair, outer, [], h => absurd rfl h
  | pair, outer, t :: r, h => by
    simp only [List.cons_append, closeGroup] at h ⊢
    split
    · next inner hk =>
      simp only [hk] at h
      exact closeGroup_append more inner _ r h
    · next other hk =>
      simp only [hk] at h
      split
      · next ho =>
        subst ho
        cases outer with
        | nil => rfl
        | cons next outer =>
          simp only [↓reduceIte] at h
          exact closeGroup_append more next outer r h
      · rfl
    · next h1 h2 =>
      refine closeGroup_append more pair outer r fun hu => h ?_
      split
      · next inner hk => exact absurd hk (h1 inner)
      · next other hk => exact absurd hk (h2 other)
      · exact hu

/-- What the end of a group tells of the tokens, run on the brackets that are open in front of them.
Behind those that leave just the outermost bracket open stands one that closes it; or one stands
where another kind is the innermost that is open; or some bracket is open behind all of them. -/
inductive GroupEnd.Found (stack : List Delimiter) (r : List Token) : GroupEnd → Prop
  | closed {w rest : List Token} {closer : Token} {last : Delimiter} (split : r = w ++ closer :: rest)
    (run : nest stack w = some [last]) (kind : closer.kind = .closing last)
    (outermost : stack.getLast? = some last) : Found stack r (.closed closer rest)
  | mismatched {w rest : List Token} {closer : Token} {other inner : Delimiter}
    {outer : List Delimiter} (split : r = w ++ closer :: rest)
    (run : nest stack w = some (inner :: outer)) (kind : closer.kind = .closing other)
    (ne : other ≠ inner) : Found stack r (.mismatched closer other rest)
  | unclosed {inner : Delimiter} {outer : List Delimiter} (run : nest stack r = some (inner :: outer)) :
    Found stack r .unclosed

/-- A token in front that leaves the outermost bracket open changes nothing about the end. -/
theorem GroupEnd.Found.cons {e : GroupEnd} (h : e.Found st' r)
    (ht : ∀ w, nest st (t :: w) = nest st' w) (hlast : st.getLast? = st'.getLast?) :
    e.Found st (t :: r) := by
  cases h with
  | @closed w rest closer last split run kind outermost =>
    exact .closed (w := t :: w) (congrArg (t :: ·) split) ((ht w).trans run) kind
      (hlast.trans outermost)
  | @mismatched w rest closer other inner outer split run kind ne =>
    exact .mismatched (w := t :: w) (congrArg (t :: ·) split) ((ht w).trans run) kind ne
  | unclosed run => exact .unclosed ((ht r).trans run)

/-- **How the search for the end of a group comes out**, by induction on the tokens. -/
theorem found_closeGroup : ∀ (pair : Delimiter) (outer : List Delimiter) (r : List Token),
    (closeGroup pair outer r).Found (pair :: outer) r
  | pair, outer, [] => .unclosed rfl
  | pair, outer, t :: r => by
    cases hk : t.kind with
    | opening inner =>
      simp only [closeGroup, hk]
      exact (found_closeGroup inner (pair :: outer) r).cons (fun _ => nest_opening hk)
        List.getLast?_cons_cons.symm
    | closing other =>
      simp only [closeGroup, hk]
      by_cases ho : other = pair
      · subst ho
        rw [if_pos rfl]
        cases outer with
        | nil => exact .closed (w := []) rfl rfl hk rfl
        | cons next outer =>
          exact (found_closeGroup next outer r).cons (fun _ => nest_closing hk)
            List.getLast?_cons_cons
      · rw [if_neg ho]
        exact .mismatched (w := []) rfl rfl hk ho
    | _ =>
      simp only [closeGroup, hk]
      exact (found_closeGroup pair outer r).cons (fun _ => nest_plain (by rw [hk]; rfl)) rfl

/-- A group that runs through its tokens closes. -/
theorem closed_of_nest {outer below : List Delimiter}
    (h : nest (pair :: outer ++ below) r = some []) :
    ∃ closer rest, closeGroup pair outer r = .closed closer rest := by
  have hfound := found_closeGroup pair outer r
  generalize closeGroup pair outer r = e at hfound
  cases hfound with
  | closed => exact ⟨_, _, rfl⟩
  | mismatched split run kind ne =>
    rw [split, nest_append, nest_frame below run, Option.bind_some] at h
    obtain ⟨outer', he, -⟩ := nest_closing_inv kind h
    exact absurd (List.cons.inj he).1.symm ne
  | unclosed run =>
    rw [nest_frame below run] at h
    cases h

/-- Tokens that run through on the brackets inside a group do not end it. -/
theorem closeGroup_nest {below : List Delimiter} (r : List Token) : ∀ {w : List Token}
    {st st' : List Delimiter} {top top' : Delimiter} {outer outer' : List Delimiter},
      nest st w = some st' → top :: outer = st ++ pair :: below →
        top' :: outer' = st' ++ pair :: below →
          closeGroup top outer (w ++ r) = closeGroup top' outer' r
  | [], st, st', top, top', outer, outer', h, ho, ho' => by
    obtain rfl : st = st' := by simpa using h
    obtain ⟨rfl, rfl⟩ := List.cons.inj (ho.trans ho'.symm)
    rfl
  | t :: w, st, st', top, top', outer, outer', h, ho, ho' => by
    cases hk : t.kind with
    | opening inner =>
      rw [nest_opening hk] at h
      simp only [List.cons_append, closeGroup, hk]
      exact closeGroup_nest r h (by rw [ho]; rfl) ho'
    | closing other =>
      obtain ⟨st2, rfl, hn⟩ := nest_closing_inv hk h
      rw [List.cons_append] at ho
      obtain ⟨rfl, hout⟩ := List.cons.inj ho
      simp only [List.cons_append, closeGroup, hk, ↓reduceIte]
      cases outer with
      | nil => simp at hout
      | cons next outer => exact closeGroup_nest r hn hout ho'
    | _ =>
      rw [nest_plain (by rw [hk]; rfl)] at h
      simp only [List.cons_append, closeGroup, hk]
      exact closeGroup_nest r h ho ho'

/-- **A neutral run does not end a group.** -/
theorem closeGroup_neutral (h : Neutral w) (outer : List Delimiter) :
    closeGroup pair outer (w ++ r) = closeGroup pair outer r :=
  closeGroup_nest r h rfl rfl

/-- What stands in front of the bracket that closes a group leaves just that group open. -/
theorem nest_of_closed {outer : List Delimiter} {closer : Token} {rest : List Token}
    (h : closeGroup pair outer r = .closed closer rest) :
    ∃ w last, r = w ++ closer :: rest ∧ nest (pair :: outer) w = some [last] ∧
      closer.kind = .closing last := by
  have hfound := found_closeGroup pair outer r
  rw [h] at hfound
  cases hfound with
  | closed split run kind _ => exact ⟨_, _, split, run, kind⟩

/-- A closed group holds balanced tokens. -/
theorem balanced_of_closed {closer : Token} {rest : List Token}
    (h : closeGroup pair [] r = .closed closer rest) :
    ∃ inner, r = inner ++ closer :: rest ∧ Balanced inner ∧ closer.kind = .closing pair := by
  have hfound := found_closeGroup pair [] r
  rw [h] at hfound
  cases hfound with
  | @closed w _ _ last split hw hc houter =>
    subst split
    obtain rfl : pair = last := Option.some.inj houter
    have hall : nest [pair] (w ++ [closer]) = some [] := by
      rw [nest_append, hw]
      exact nest_closing hc
    obtain ⟨inner, first, more, he, hb, hk, -⟩ := balanced_of_nest _ (Nat.le_refl _) hall
    -- the bracket that closes the balanced run is the one that the search stops at
    have hstop : closeGroup pair [] (inner ++ first :: (more ++ rest)) =
        .closed first (more ++ rest) := by
      rw [closeGroup_neutral (neutral_of_balanced hb)]
      simp [closeGroup, hk]
    have hsame : w ++ closer :: rest = inner ++ first :: (more ++ rest) := by
      have hmore := congrArg (· ++ rest) he
      simpa using hmore
    rw [hsame, hstop] at h
    obtain ⟨rfl, hrest⟩ := GroupEnd.closed.inj h
    exact ⟨inner, by rw [hsame, hrest], hb, hk⟩

/-- What is left behind a bracket of another kind is the end of the tokens. -/
theorem suffix_of_mismatched {outer : List Delimiter} {closer : Token} {other : Delimiter}
    {rest : List Token} (h : closeGroup pair outer r = .mismatched closer other rest) :
    ∃ w, r = w ++ rest := by
  have hfound := found_closeGroup pair outer r
  rw [h] at hfound
  cases hfound with
  | @mismatched w _ _ _ _ _ split run kind ne => exact ⟨w ++ [closer], by rw [split]; simp⟩

end ScriptHost
