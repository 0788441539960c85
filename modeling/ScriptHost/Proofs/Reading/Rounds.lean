/-
# Every loop of the reader ends

The bounds in the readers are counters that the algorithm does not have: a group is searched up to
its end, a list is read up to a token that is no comma, a type reads its arguments as types. Here the
algorithm stands by itself. A round is the body of a loop or of a recursion, with what it does next
left open, and a loop has ended within some rounds if it does not matter what it would do in the round
after these. Every round goes on behind a token at least, so every loop and every recursion ends, in
no more rounds than there are tokens and the end, and the bounded readers give what it ends with.
Only the end of a rank is not looked for: the look ahead has found it, and without that promise the
loop would not end.

Key definitions: `EndsWithin`, `Answers`, `Cursor.ReadingEnds`.
Key theorems: `Answers.endsWithin`, `answers_of_bound`, `typeRound_congr`, `not_endsWithin_rank`,
`readingEnds`.
-/
import Mathlib.Logic.Function.Iterate
import ScriptHost.Proofs.Reading.Turns

namespace ScriptHost

open Parse

/-! ### Loops and their rounds -/

section Loops

variable {σ ρ : Type} {body : (σ → ρ) → σ → ρ} {size : σ → Nat} {f : σ → ρ} {loop : Nat → σ → ρ}
  {s : σ} {n m : Nat}

/-- The loop that is entered at `s` has ended with `result` within `n` rounds: whatever is done
`beyond` them does not matter. A recursion is a loop whose rounds may go on more than once. -/
def EndsWithin (body : (σ → ρ) → σ → ρ) (n : Nat) (s : σ) (result : ρ) : Prop :=
  ∀ beyond : σ → ρ, body^[n] beyond s = result

/-- A round gives what `f` says if it goes on as `f` says wherever less is left. -/
def Answers (body : (σ → ρ) → σ → ρ) (size : σ → Nat) (f : σ → ρ) : Prop :=
  ∀ s g, (∀ s', size s' < size s → g s' = f s') → body g s = f s

/-- A round goes on only where less is left. -/
def GoesDown (body : (σ → ρ) → σ → ρ) (size : σ → Nat) : Prop :=
  ∀ s f g, (∀ s', size s' < size s → f s' = g s') → body f s = body g s

/-- **A loop that goes on with less each round ends**, by induction on the rounds. -/
theorem Answers.endsWithin (h : Answers body size f) : ∀ {n : Nat} {s : σ}, size s < n →
    EndsWithin body n s (f s)
  | 0, s, hn => by omega
  | n + 1, s, hn => fun beyond => by
    rw [Function.iterate_succ_apply']
    exact h s _ fun s' hs' => Answers.endsWithin h (by omega) beyond

/-- One round, and the loop from there on. -/
theorem Answers.unfold (h : Answers body size f) (s : σ) : f s = body f s :=
  (h s f fun _ _ => rfl).symm

theorem answers_of_eq (hbody : GoesDown body size) (h : ∀ s, f s = body f s) :
    Answers body size f := fun s g hg => (hbody s g f hg).trans (h s).symm

/-- A bound beyond what is left does not bite, by induction on it. -/
theorem bound_eq (hbody : GoesDown body size) (hloop : ∀ n, loop (n + 1) = body (loop n)) :
    ∀ {n m : Nat} {s : σ}, size s < n → size s < m → loop n s = loop m s
  | 0, m, s, hn, hm => by omega
  | n + 1, 0, s, hn, hm => by omega
  | n + 1, m + 1, s, hn, hm => by
    rw [hloop, hloop]
    exact hbody s _ _ fun s' hs' => bound_eq hbody hloop (by omega) (by omega)

/-- **A bounded loop is the loop itself** if the bound goes beyond what is left. -/
theorem answers_of_bound (loop : Nat → σ → ρ) (hbody : GoesDown body size)
    (hloop : ∀ n, loop (n + 1) = body (loop n)) (hf : ∀ s, f s = loop (size s + 1) s) :
    Answers body size f := fun s g hg => by
  rw [hf, hloop]
  refine hbody s _ _ fun s' hs' => ?_
  rw [hg s' hs', hf]
  exact bound_eq hbody hloop (by omega) hs'

/-- Where nothing is left no round need be made, so the bound may be what is left. -/
theorem bound_succ (hbody : GoesDown body size) (hloop : ∀ n, loop (n + 1) = body (loop n))
    (hnone : ∀ s g, size s = 0 → body g s = loop 0 s) : ∀ {n : Nat} {s : σ}, size s ≤ n →
      loop (n + 1) s = loop n s
  | 0, s, hn => by rw [hloop]; exact hnone s _ (by omega)
  | n + 1, s, hn => by
    have hless : ∀ s', size s' < size s → loop (n + 1) s' = loop n s' := fun s' hs' =>
      bound_succ hbody hloop hnone (by omega)
    calc loop (n + 1 + 1) s = body (loop (n + 1)) s := by rw [hloop (n + 1)]
      _ = body (loop n) s := hbody s _ _ hless
      _ = loop (n + 1) s := by rw [hloop]

theorem answers_of_size (loop : Nat → σ → ρ) (hbody : GoesDown body size)
    (hloop : ∀ n, loop (n + 1) = body (loop n)) (hnone : ∀ s g, size s = 0 → body g s = loop 0 s)
    (hf : ∀ s, f s = loop (size s) s) : Answers body size f :=
  answers_of_bound loop hbody hloop fun s =>
    (hf s).trans (bound_succ hbody hloop hnone (Nat.le_refl _)).symm

end Loops

/-! ### The rounds -/

/-- A round of the search for the end of a group, with the brackets to be closed. -/
def groupRound (next : Delimiter × List Delimiter × List Token → GroupEnd) :
    Delimiter × List Delimiter × List Token → GroupEnd
  | (_, _, []) => .unclosed
  | (pair, outer, t :: r) =>
    match t.kind with
    | .opening inner => next (inner, pair :: outer, r)
    | .closing other =>
      if other = pair then
        match outer with
        | [] => .closed t r
        | around :: outer => next (around, outer, r)
      else .mismatched t other r
    | _ => next (pair, outer, r)

/-- A round of the way to a token that `stops`: a token or a group. -/
def untilRound (stops : TokenKind → Bool) (next : Parse Unit) : Parse Unit := fun c =>
  match c.rest with
  | [] => complain .unexpectedEnd c
  | t :: r =>
    if stops t.kind then .done () c
    else match t.kind with
      | .opening _ =>
        match skipGroup c with
        | .done _ d => next d
        | .failed e d => .failed e d
      | .closing pair => complain (.unexpectedCloser pair) c
      | _ => next (c.goto r)

/-- A round at attribute groups. -/
def attributesRound (next : Parse Unit) : Parse Unit := fun c =>
  if c.isAt (.opening .bracket) then
    match skipGroup c with
    | .done _ d => next d
    | .failed e d => .failed e d
  else .done () c

/-- A round of recovery, with the number of open brackets. -/
def resumeRound (next : Nat × List Token → List Token) : Nat × List Token → List Token
  | (_, []) => []
  | (depth, t :: r) =>
    match t.kind with
    | .opening _ => next (depth + 1, r)
    | .closing pair =>
      match depth with
      | 0 => r
      | 1 => if pair = .brace then r else next (0, r)
      | depth + 1 => next (depth, r)
    | .semicolon => if depth = 0 then r else next (depth, r)
    | kind => if depth = 0 ∧ startsItem kind then t :: r else next (depth, r)

/-- A round at words that pass a test, such as modifiers. -/
def wordsRound (test : TokenKind → Bool) (next : List Token → List TokenKind × List Token) :
    List Token → List TokenKind × List Token
  | [] => ([], [])
  | t :: r => if test t.kind then (t.kind :: (next r).1, (next r).2) else ([], t :: r)

/-- A round at the segments of a dotted name. -/
def segmentsRound (next : List Token → List Ident × List Token) :
    List Token → List Ident × List Token
  | point :: t :: r =>
    if point.kind = .dot ∧ t.kind = .identifier then (.ofToken t :: (next r).1, (next r).2)
    else ([], point :: t :: r)
  | r => ([], r)

/-- A round of the look ahead behind the opening bracket of a rank. -/
def aheadRound (next : List Token → Option (List Token)) : List Token → Option (List Token)
  | [] => none
  | t :: r =>
    if t.kind = .comma then next r
    else if t.kind = .closing .bracket then some r
    else none

/-- A round of the way to the closing bracket of a rank. Nothing else ends it: at the end of the
tokens it stays where it is. -/
def rankRound (next : List Token → List Token) : List Token → List Token
  | [] => next []
  | t :: r => if t.kind = .closing .bracket then r else next r

/-- A round at the suffixes of a type. -/
def suffixesRound (next : List Token → List TypeSuffix × List Token) :
    List Token → List TypeSuffix × List Token
  | [] => ([], [])
  | t :: r =>
    if t.kind = .question then (.nullable :: (next r).1, (next r).2)
    else if t.kind = .opening .bracket then
      match closeRank? r with
      | none => ([], t :: r)
      | some r' => (.array :: (next r').1, (next r').2)
    else ([], t :: r)

/-- A round of a list with commas. -/
def listRound {α : Type} (item : Parse α) (next : Parse (List α)) : Parse (List α) := do
  let a ← item
  if ← eat .comma then
    let more ← next
    pure (a :: more)
  else pure [a]

/-- A type, whose arguments are read by `next`. -/
def typeRound (next : Parse TypeExpr) : Parse TypeExpr := fun c =>
  if c.isAt .identifier then typeParts c next (c.goto (dropGlobal c.rest))
  else complain (.expectedType c.kind?) c

/-- A round of a statement: a token or a group. -/
def statementRound (next : Cursor → Option ParseError × Cursor) (c : Cursor) :
    Option ParseError × Cursor :=
  match c.rest with
  | [] => (none, c)
  | t :: r =>
    match t.kind with
    | .semicolon => (none, c.goto r)
    | .opening pair =>
      match skipGroup c with
      | .failed e d => (some e, d)
      | .done _ d =>
        if pair = .brace ∧ continuationWords.all (!d.isAtWord ·) then (none, d) else next d
    | .closing pair => (some ⟨.unexpectedCloser pair, t.span⟩, c.goto r)
    | _ => next (c.goto r)

/-- A round at the tokens of a line. -/
def lineRound (line : Nat) (next : List Token → List Token) : List Token → List Token
  | [] => []
  | t :: r => if t.start.line == line then next r else t :: r

/-- A round at the items: a turn, if the tokens have not ended. -/
def itemsRound (next : Bool × Cursor → List Item × List ParseError) :
    Bool × Cursor → List Item × List ParseError
  | (declared, c) =>
    match c.rest with
    | [] => ([], [])
    | t :: _ =>
      let now := turn declared c
      match next (declared || declares t.kind, now.next) with
      | (items, errors) => (now.item?.toList ++ items, now.error?.toList ++ errors)

/-! ### Every round goes on with less -/

/-- How many tokens are left. -/
def Cursor.left (c : Cursor) : Nat := c.rest.length

theorem Cursor.left_goto_lt {c : Cursor} {t : Token} {r : List Token} (hr : c.rest = t :: r) :
    (c.goto r).left < c.left := by
  rw [Cursor.left, Cursor.left, hr]
  exact Nat.lt_succ_self _

theorem goesDown_group : GoesDown groupRound fun s => s.2.2.length
  | (_, _, []), f, g, h => rfl
  | (pair, outer, t :: r), f, g, h => by
    have hr (pair : Delimiter) (outer : List Delimiter) : f (pair, outer, r) = g (pair, outer, r) :=
      h _ (Nat.lt_succ_self _)
    cases outer <;> simp only [groupRound, hr]

theorem goesDown_until (stops : TokenKind → Bool) : GoesDown (untilRound stops) Cursor.left := by
  intro c f g h
  unfold untilRound
  split
  · rfl
  next t r hr =>
  have htail : f (c.goto r) = g (c.goto r) := h _ (Cursor.left_goto_lt hr)
  split
  · rfl
  split
  · split
    · next hd => exact h _ (takes_skipGroup _ _ _ hd)
    · rfl
  · rfl
  · exact htail

theorem goesDown_attributes : GoesDown attributesRound Cursor.left := by
  intro c f g h
  unfold attributesRound
  split
  · split
    · next hd => exact h _ (takes_skipGroup _ _ _ hd)
    · rfl
  · rfl

theorem goesDown_resume : GoesDown resumeRound fun s => s.2.length
  | (_, []), f, g, h => rfl
  | (depth, t :: r), f, g, h => by
    have hr (depth : Nat) : f (depth, r) = g (depth, r) := h _ (Nat.lt_succ_self _)
    rcases depth with _ | _ | depth <;> simp only [resumeRound, hr]

theorem goesDown_words (test : TokenKind → Bool) : GoesDown (wordsRound test) List.length
  | [], f, g, h => rfl
  | t :: r, f, g, h => by
    have hr : f r = g r := h r (Nat.lt_succ_self _)
    simp only [wordsRound, hr]

theorem goesDown_segments : GoesDown segmentsRound List.length
  | [], f, g, h => rfl
  | [t], f, g, h => rfl
  | point :: t :: r, f, g, h => by
    have hr : f r = g r := h r (by simp only [List.length_cons]; omega)
    simp only [segmentsRound, hr]

theorem goesDown_ahead : GoesDown aheadRound List.length
  | [], f, g, h => rfl
  | t :: r, f, g, h => by
    have hr : f r = g r := h r (Nat.lt_succ_self _)
    simp only [aheadRound, hr]

theorem goesDown_suffixes : GoesDown suffixesRound List.length
  | [], f, g, h => rfl
  | t :: r, f, g, h => by
    have hr : f r = g r := h r (Nat.lt_succ_self _)
    simp only [suffixesRound, hr]
    cases hrank : closeRank? r with
    | none => rfl
    | some r' =>
      obtain ⟨w, closer, hw, -, -⟩ := neutral_closeRank? hrank
      have hr' : f r' = g r' := h r' (by simp only [hw, List.length_append, List.length_cons]; omega)
      simp only [hr']

theorem goesDown_line (line : Nat) : GoesDown (lineRound line) List.length
  | [], f, g, h => rfl
  | t :: r, f, g, h => by
    have hr : f r = g r := h r (Nat.lt_succ_self _)
    simp only [lineRound, hr]

/-- A list goes on behind an item and a comma. -/
theorem goesDown_list {α : Type} {item : Parse α} (hitem : Reads item) :
    GoesDown (listRound item) Cursor.left := by
  intro c (f : Parse (List α)) (g : Parse (List α)) h
  unfold listRound
  rw [bind_apply, bind_apply]
  cases hc : item c with
  | failed e d => rfl
  | done a d =>
    obtain ⟨w, hw, -, -⟩ := hitem.done hc
    simp only [bind_apply]
    rcases eat_eq .comma d with ⟨t, r, hr, -, heat⟩ | heat
    · have hless : f (d.goto r) = g (d.goto r) := by
        refine h _ (Nat.lt_of_lt_of_le (Cursor.left_goto_lt hr) ?_)
        rw [Cursor.left, Cursor.left, hw, List.length_append]
        exact Nat.le_add_left _ _
      simp only [heat, ↓reduceIte, bind_apply, hless]
    · simp only [heat, Bool.false_eq_true, ↓reduceIte]

theorem goesDown_statement : GoesDown statementRound Cursor.left := by
  intro c f g h
  unfold statementRound
  split
  · rfl
  next t r hr =>
  have htail : f (c.goto r) = g (c.goto r) := h _ (Cursor.left_goto_lt hr)
  split
  · rfl
  · split
    · rfl
    · next hd =>
      split
      · rfl
      · exact h _ (takes_skipGroup _ _ _ hd)
  · rfl
  · exact htail

/-- Every turn reads a token. -/
theorem goesDown_items : GoesDown itemsRound fun s => s.2.left := by
  intro ⟨declared, c⟩ f g h
  unfold itemsRound
  simp only
  split
  · rfl
  next t r hr =>
  have hnext := h (declared || declares t.kind, (turn declared c).next)
    (turn_before declared hr).length_lt
  simp only [hnext]

/-! ### Types read their arguments as types -/

theorem commaSeparatedWithin_congr {α : Type} {p q : Parse α} (hq : Reads q) : ∀ (n : Nat) {c : Cursor},
    (∀ d : Cursor, d.left ≤ c.left → p d = q d) →
      commaSeparatedWithin p n c = commaSeparatedWithin q n c
  | 0, c, h => by
    simp only [commaSeparatedWithin, bind_apply, h c (Nat.le_refl _)]
  | n + 1, c, h => by
    simp only [commaSeparatedWithin, bind_apply, h c (Nat.le_refl _)]
    cases hc : q c with
    | failed e d => rfl
    | done a d =>
      obtain ⟨w, hw, -, -⟩ := hq.done hc
      have hd : d.left ≤ c.left := by
        rw [Cursor.left, Cursor.left, hw, List.length_append]
        exact Nat.le_add_left _ _
      rcases eat_eq .comma d with ⟨t, r, hr, -, heat⟩ | heat
      · have hlt := Cursor.left_goto_lt hr
        have hmore := commaSeparatedWithin_congr hq n (c := d.goto r) fun e he => h e (by omega)
        simp only [heat, ↓reduceIte, bind_apply, hmore]
      · simp only [heat, Bool.false_eq_true, ↓reduceIte]

theorem typeArguments_congr {p q : Parse TypeExpr} (hq : Reads q) {c : Cursor}
    (h : ∀ d : Cursor, d.left < c.left → p d = q d) : typeArguments p c = typeArguments q c := by
  simp only [typeArguments, here, bind_apply]
  rcases eat_eq .less c with ⟨t, r, hr, -, heat⟩ | heat
  · have hlt := Cursor.left_goto_lt hr
    have hargs : commaSeparated p (c.goto r) = commaSeparated q (c.goto r) :=
      commaSeparatedWithin_congr hq _ fun d hd => h d (Nat.lt_of_le_of_lt hd hlt)
    simp only [heat, ↓reduceIte, bind_apply, hargs]
  · simp only [heat, Bool.false_eq_true, ↓reduceIte]

theorem left_dropGlobal (c : Cursor) : (c.goto (dropGlobal c.rest)).left ≤ c.left := by
  rcases dropGlobal_eq c.rest with hd | ⟨t, colons, hd, -⟩
  · rw [hd]
    exact Nat.le_refl _
  · have hlen := congrArg List.length hd
    simp only [List.length_cons] at hlen
    simp only [Cursor.left, Cursor.goto]
    omega

/-- **The arguments of a type are read where less is left**: a name and a bracket stand in front. -/
theorem typeRound_congr {p q : Parse TypeExpr} (hq : Reads q) {c : Cursor}
    (h : ∀ d : Cursor, d.left < c.left → p d = q d) : typeRound p c = typeRound q c := by
  unfold typeRound
  split
  · simp only [typeParts, bind_apply]
    cases hname : dottedName (c.goto (dropGlobal c.rest)) with
    | failed e d => rfl
    | done path d =>
      have hlt : d.left < c.left :=
        Nat.lt_of_lt_of_le (takes_dottedName _ _ _ hname) (left_dropGlobal c)
      have hargs := typeArguments_congr hq fun e he => h e (Nat.lt_trans he hlt)
      simp only [hargs]
  · rfl

/-- Types nested deeper than there are tokens do not exist, by induction on the bound. -/
theorem typeExprWithin_eq : ∀ {n m : Nat} {c : Cursor}, c.left < n → c.left < m →
    typeExprWithin n c = typeExprWithin m c
  | 0, m, c, hn, hm => by omega
  | n + 1, 0, c, hn, hm => by omega
  | n + 1, m + 1, c, hn, hm =>
    typeRound_congr (reads_typeExprWithin m) fun d hd =>
      typeExprWithin_eq (by omega) (by omega)

/-! ### The bounded readers are the loops -/

theorem answers_group : Answers groupRound (fun s => s.2.2.length)
    fun s => closeGroup s.1 s.2.1 s.2.2 := by
  refine answers_of_eq goesDown_group ?_
  rintro ⟨pair, outer, _ | ⟨t, r⟩⟩
  · simp only [closeGroup, groupRound]
  · exact closeGroup.eq_def pair outer (t :: r)

theorem answers_until (stops : TokenKind → Bool) :
    Answers (untilRound stops) Cursor.left (skipUntil stops) :=
  answers_of_bound (skipUntilWithin stops) (goesDown_until stops) (fun _ => rfl) fun _ => rfl

theorem answers_attributes : Answers attributesRound Cursor.left skipAttributes := by
  refine answers_of_size skipAttributesWithin goesDown_attributes (fun _ => rfl) ?_
    fun _ => rfl
  intro c g hc
  have hnone : c.rest = [] := List.length_eq_zero_iff.mp hc
  simp [attributesRound, skipAttributesWithin, Cursor.isAt, Cursor.kind?, hnone]

theorem answers_resume : Answers resumeRound (fun s => s.2.length) fun s => resume s.1 s.2 := by
  refine answers_of_eq goesDown_resume ?_
  rintro ⟨depth, _ | ⟨t, r⟩⟩
  · simp only [resume, resumeRound]
  · exact resume.eq_def depth (t :: r)

theorem answers_words (test : TokenKind → Bool) : Answers (wordsRound test) List.length fun r =>
    ((r.takeWhile fun t => test t.kind).map (·.kind), r.dropWhile fun t => test t.kind) := by
  refine answers_of_eq (goesDown_words test) ?_
  rintro (_ | ⟨t, r⟩)
  · rfl
  · by_cases ht : test t.kind <;> simp [wordsRound, ht]

theorem answers_segments : Answers segmentsRound List.length moreSegments := by
  refine answers_of_eq goesDown_segments ?_
  rintro (_ | ⟨point, _ | ⟨t, r⟩⟩) <;> rfl

theorem answers_ahead : Answers aheadRound List.length closeRank? := by
  refine answers_of_eq goesDown_ahead ?_
  rintro (_ | ⟨t, r⟩) <;> rfl

theorem answers_suffixes :
    Answers suffixesRound List.length fun r => typeSuffixesWithin r.length r := by
  refine answers_of_size typeSuffixesWithin goesDown_suffixes ?_ ?_ fun _ => rfl
  · intro n
    funext r
    cases r <;> rfl
  · intro r g hr
    obtain rfl : r = [] := List.length_eq_zero_iff.mp hr
    rfl

theorem answers_list {α : Type} {item : Parse α} (hitem : Reads item) :
    Answers (listRound item) Cursor.left (commaSeparated item) := by
  refine answers_of_size (commaSeparatedWithin item) (goesDown_list hitem) (fun _ => rfl) ?_
    fun _ => rfl
  intro c (g : Parse (List α)) hc
  simp only [listRound, commaSeparatedWithin, bind_apply]
  cases hi : item c with
  | failed e d => rfl
  | done a d =>
    obtain ⟨w, hw, -, -⟩ := hitem.done hi
    have hd : d.rest = [] := by
      rw [Cursor.left, hw, List.length_append] at hc
      exact List.length_eq_zero_iff.mp (by omega)
    simp [eat, Cursor.isAt, Cursor.kind?, hd]

/-- **A type is read as the recursion reads it.** -/
theorem answers_type : Answers typeRound Cursor.left typeExpr := by
  intro c g hg
  refine (typeRound_congr reads_typeExpr hg).trans ?_
  refine typeRound_congr (reads_typeExprWithin c.left) fun d hd => ?_
  exact typeExprWithin_eq (Nat.lt_succ_self _) hd

theorem answers_statement :
    Answers statementRound Cursor.left fun c => statementEndWithin c.left c := by
  refine answers_of_size statementEndWithin goesDown_statement (fun _ => rfl) ?_ fun _ => rfl
  intro c g hc
  have hnone : c.rest = [] := List.length_eq_zero_iff.mp hc
  simp only [statementRound, statementEndWithin, hnone]

theorem answers_line (line : Nat) : Answers (lineRound line) List.length
    (List.dropWhile fun t => t.start.line == line) := by
  refine answers_of_eq (goesDown_line line) ?_
  rintro (_ | ⟨t, r⟩)
  · rfl
  · exact List.dropWhile_cons

theorem answers_items : Answers itemsRound (fun s => s.2.left) fun s => s.2.itemsFrom s.1 := by
  refine answers_of_size (fun n s => itemsWithin n s.1 s.2) goesDown_items (fun _ => rfl) ?_
    fun _ => rfl
  intro ⟨declared, c⟩ g hc
  have hnone : c.rest = [] := List.length_eq_zero_iff.mp hc
  simp only [itemsRound, itemsWithin, hnone]

/-! ### The end of a rank -/

/-- Behind a rank that the look ahead has found, the way to its closing bracket ends. -/
theorem endsWithin_rank : ∀ {r rest : List Token}, closeRank? r = some rest →
    EndsWithin rankRound r.length r rest
  | t :: r, rest, h => fun beyond => by
    rw [List.length_cons, Function.iterate_succ_apply', rankRound]
    unfold closeRank? at h
    split at h
    · next hcomma =>
      rw [hcomma, if_neg (by simp)]
      exact endsWithin_rank h beyond
    · split at h
      · next hclose =>
        rw [if_pos hclose]
        exact Option.some.inj h
      · cases h

/-- **Where no bracket closes, the way to the closing bracket never ends**: what the look ahead has
found is what ends it. -/
theorem not_endsWithin_rank {r result : List Token} (hr : ∀ t ∈ r, t.kind ≠ .closing .bracket)
    (n : Nat) : ¬ EndsWithin rankRound n r result := by
  have hstuck (beyond : List Token) : ∀ (n : Nat) (r : List Token),
      (∀ t ∈ r, t.kind ≠ .closing .bracket) → rankRound^[n] (fun _ => beyond) r = beyond := by
    intro n
    induction n with
    | zero => exact fun _ _ => rfl
    | succ n ih =>
      intro r hr
      rw [Function.iterate_succ_apply']
      cases r with
      | nil => exact ih [] hr
      | cons t r =>
        rw [rankRound, if_neg (hr t List.mem_cons_self)]
        exact ih r fun u hu => hr u (List.mem_cons_of_mem _ hu)
  intro h
  have hnil := (hstuck [] n r hr).symm.trans (h _)
  have hcons := (hstuck [default] n r hr).symm.trans (h _)
  cases hnil.trans hcons.symm

/-! ### Every loop ends -/

/-- What is read from a cursor ends: each loop and each recursion of the readers, entered there, gives
what its bounded reader gives, in no more rounds than there are tokens and the end. A list has ended
in so many rounds whatever its items are, and the rounds of a group, of a recovery and of the items
do not depend on what was read before. -/
structure Cursor.ReadingEnds (c : Cursor) : Prop where
  /-- The items of a script, one a turn at most. -/
  items (declared : Bool) :
    EndsWithin itemsRound (c.left + 1) (declared, c) (c.itemsFrom declared)
  /-- A turn reads a token at least, also one that goes back or recovers, and never goes beyond the
  end. -/
  progress (declared : Bool) : c.rest ≠ [] → c.Before (turn declared c).next
  group (pair : Delimiter) (outer : List Delimiter) :
    EndsWithin groupRound (c.left + 1) (pair, outer, c.rest) (closeGroup pair outer c.rest)
  upTo (stops : TokenKind → Bool) : EndsWithin (untilRound stops) (c.left + 1) c (skipUntil stops c)
  attributes : EndsWithin attributesRound (c.left + 1) c (skipAttributes c)
  recovery (depth : Nat) :
    EndsWithin resumeRound (c.left + 1) (depth, c.rest) (resume depth c.rest)
  words (test : TokenKind → Bool) :
    EndsWithin (wordsRound test) (c.left + 1) c.rest
      ((c.rest.takeWhile fun t => test t.kind).map (·.kind), c.rest.dropWhile fun t => test t.kind)
  segments : EndsWithin segmentsRound (c.left + 1) c.rest (moreSegments c.rest)
  ahead : EndsWithin aheadRound (c.left + 1) c.rest (closeRank? c.rest)
  /-- The way to the end of a rank, if the look ahead has found one. -/
  rank {rest : List Token} : closeRank? c.rest = some rest → EndsWithin rankRound c.left c.rest rest
  suffixes : EndsWithin suffixesRound (c.left + 1) c.rest (typeSuffixesWithin c.left c.rest)
  /-- The recursion of types, as deep as there are tokens at most. -/
  types : EndsWithin typeRound (c.left + 1) c (typeExpr c)
  arguments : EndsWithin (listRound typeExpr) (c.left + 1) c (commaSeparated typeExpr c)
  typeParameters :
    EndsWithin (listRound typeParameter) (c.left + 1) c (commaSeparated typeParameter c)
  parameters : EndsWithin (listRound parameter) (c.left + 1) c (commaSeparated parameter c)
  bases : EndsWithin (listRound baseType) (c.left + 1) c (commaSeparated baseType c)
  declarators : EndsWithin (listRound declarator) (c.left + 1) c (commaSeparated declarator c)
  statement : EndsWithin statementRound (c.left + 1) c (statementEndWithin c.left c)
  line (line : Nat) : EndsWithin (lineRound line) (c.left + 1) c.rest
    (c.rest.dropWhile fun t => t.start.line == line)

/-- **Reading ends**, from every cursor and however malformed its tokens are. -/
theorem readingEnds (c : Cursor) : c.ReadingEnds where
  items _ := answers_items.endsWithin (Nat.lt_succ_self _)
  progress declared h := by
    obtain ⟨t, r, hr⟩ := List.exists_cons_of_ne_nil h
    exact turn_before declared hr
  group _ _ := answers_group.endsWithin (Nat.lt_succ_self _)
  upTo stops := (answers_until stops).endsWithin (Nat.lt_succ_self _)
  attributes := answers_attributes.endsWithin (Nat.lt_succ_self _)
  recovery _ := answers_resume.endsWithin (Nat.lt_succ_self _)
  words test := (answers_words test).endsWithin (Nat.lt_succ_self _)
  segments := answers_segments.endsWithin (Nat.lt_succ_self _)
  ahead := answers_ahead.endsWithin (Nat.lt_succ_self _)
  rank h := endsWithin_rank h
  suffixes := answers_suffixes.endsWithin (Nat.lt_succ_self _)
  types := answers_type.endsWithin (Nat.lt_succ_self _)
  arguments := (answers_list reads_typeExpr).endsWithin (Nat.lt_succ_self _)
  typeParameters := (answers_list reads_typeParameter).endsWithin (Nat.lt_succ_self _)
  parameters := (answers_list reads_parameter).endsWithin (Nat.lt_succ_self _)
  bases := (answers_list reads_baseType).endsWithin (Nat.lt_succ_self _)
  declarators := (answers_list reads_declarator).endsWithin (Nat.lt_succ_self _)
  statement := answers_statement.endsWithin (Nat.lt_succ_self _)
  line line := (answers_line line).endsWithin (Nat.lt_succ_self _)

end ScriptHost
