/-
# Blanks behind trivia

Trivia end where a token starts, and in front of that token more blanks may be written: the
trivia take them along, and the token is where they end. Both hold because a blank starts
nothing but more trivia; it goes on with no word, no number and no operator either.

Key definitions: `opensComment`.
Key theorems: `mem_blankPoints`, `trivia_of_first`, `head_of_trivia`, `trivia_stay`.
-/
import Mathlib.Data.List.TakeWhile
import ScriptHost.Proofs.Token.Tiling

namespace ScriptHost

open Source

variable {c d e : Char} {a r s u w x y : List Char}

/-! ### Blanks -/

/-- The code points of the blanks. -/
def blankPoints : List Nat :=
  [9, 10, 11, 12, 13, 32, 0x85, 0xA0, 0x1680, 0x2000, 0x2001, 0x2002, 0x2003, 0x2004, 0x2005, 0x2006,
    0x2007, 0x2008, 0x2009, 0x200A, 0x2028, 0x2029, 0x202F, 0x205F, 0x3000]

theorem mem_blankPoints (h : isBlank c) : c.toNat ∈ blankPoints := by
  have hranges : ∀ r ∈ (9, 13) :: blankRanges, ∀ n ∈ List.range' r.1 (r.2 + 1 - r.1),
      n ∈ blankPoints := by decide
  have hmem {lo hi : Nat} (hr : (lo, hi) ∈ (9, 13) :: blankRanges) (hlo : lo ≤ c.toNat)
      (hhi : c.toNat ≤ hi) : c.toNat ∈ blankPoints :=
    hranges _ hr _ (List.mem_range'_1.mpr ⟨hlo, by omega⟩)
  unfold isBlank at h
  split at h
  · have hc : c = ' ' ∨ 9 ≤ c.toNat ∧ c.toNat ≤ 13 := by simpa using h
    rcases hc with rfl | ⟨hlo, hhi⟩
    · decide
    · exact hmem List.mem_cons_self hlo hhi
  · obtain ⟨⟨lo, hi⟩, hr, hc⟩ := List.any_eq_true.mp h
    obtain ⟨hlo, hhi⟩ : lo ≤ c.toNat ∧ c.toNat ≤ hi := by simpa using hc
    exact hmem (List.mem_cons_of_mem _ hr) hlo hhi

/-- A test that fails on the code points of the blanks fails on the blanks. -/
theorem eq_false_of_blank {p : Char → Bool} (hp : ∀ n ∈ blankPoints, p (Char.ofNat n) = false)
    (h : isBlank c) : p c = false := by
  have hc := hp _ (mem_blankPoints h)
  rwa [Char.ofNat_toNat] at hc

theorem ne_of_blank (hd : isBlank d = false) (h : isBlank c) : c ≠ d := by
  rintro rfl
  rw [hd] at h
  cases h

theorem isIdentContinue_of_blank (h : isBlank c) : isIdentContinue c = false :=
  eq_false_of_blank (by decide +kernel) h

theorem isMark_of_blank (h : isBlank c) : isMark c = false :=
  eq_false_of_blank (by decide +kernel) h

theorem isAlphanum_of_blank (h : isBlank c) : c.isAlphanum = false :=
  eq_false_of_blank (by decide +kernel) h

theorem isDigit_of_blank (h : isBlank c) : c.isDigit = false :=
  (Bool.or_eq_false_iff.mp (isAlphanum_of_blank h)).2

/-! ### Blanks and comments in front of other texts -/

/-- What passes a test is taken up to what does not. -/
theorem while_exact {α : Type} {test : α → Bool} {w r : List α} (hw : ∀ a ∈ w, test a)
    (hr : ∀ a ∈ r.head?, test a = false) :
    (w ++ r).takeWhile test = w ∧ (w ++ r).dropWhile test = r := by
  rw [List.takeWhile_append_of_pos hw, List.dropWhile_append_of_pos hw]
  cases r with
  | nil => exact ⟨List.append_nil w, rfl⟩
  | cons a r => simp [hr a rfl]

theorem splitBlanks_cons (c : Char) (r : List Char) :
    splitBlanks (c :: r) =
      if c = '\ufeff' then ('\ufeff' :: r.takeWhile isBlank, r.dropWhile isBlank)
      else ((c :: r).takeWhile isBlank, (c :: r).dropWhile isBlank) := by
  unfold splitBlanks
  split
  · next h => simp_all
  · next h =>
    split
    · next hc => exact absurd (by rw [hc]) (h r)
    · rfl

/-- A text that starts with a byte-order mark or a blank starts with trivia. -/
theorem splitBlanks_eq_nil_iff :
    splitBlanks (c :: r) = ([], c :: r) ↔ c ≠ '\ufeff' ∧ isBlank c = false := by
  rw [splitBlanks_cons]
  by_cases hc : c = '\ufeff'
  · simp [hc]
  · cases hb : isBlank c <;> simp [hc, hb]

/-- What is left behind the blanks does not start with one. -/
theorem head_of_splitBlanks (h : splitBlanks x = (a, c :: r)) : isBlank c = false := by
  have hdrop {l : List Char} (h : l.dropWhile isBlank = c :: r) : isBlank c = false := by
    have hhead := List.head?_dropWhile_not isBlank l
    rw [h] at hhead
    simpa using hhead
  unfold splitBlanks at h
  split at h
  · exact hdrop (Prod.mk.inj h).2
  · exact hdrop (Prod.mk.inj h).2

/-- A run of blanks ends in front of a text that starts with none. -/
theorem takeWhile_blanks (hw : ∀ c ∈ w, isBlank c) (hu : u.takeWhile isBlank = []) :
    (w ++ u).takeWhile isBlank = w ∧ (w ++ u).dropWhile isBlank = u := by
  have hall : (w ++ u).takeWhile isBlank = w := by
    rw [List.takeWhile_append_of_pos hw, hu, List.append_nil]
  refine ⟨hall, ?_⟩
  have hsplit := List.takeWhile_append_dropWhile (p := isBlank) (l := w ++ u)
  rw [hall] at hsplit
  exact List.append_cancel_left hsplit

theorem takeWhile_of_splitBlanks (hu : splitBlanks u = ([], u)) : u.takeWhile isBlank = [] := by
  cases u with
  | nil => rfl
  | cons d u =>
    have hd := (splitBlanks_eq_nil_iff.mp hu).2
    rw [List.takeWhile_cons_of_neg (by simp [hd])]

theorem splitBlanks_blanks (hw : ∀ c ∈ w, isBlank c) (hu : splitBlanks u = ([], u)) :
    splitBlanks (w ++ u) = (w, u) := by
  cases w with
  | nil => exact hu
  | cons d w =>
    have hd : d ≠ '\ufeff' := ne_of_blank (by decide) (hw d List.mem_cons_self)
    rw [List.cons_append, splitBlanks_cons, if_neg hd]
    exact Prod.ext_iff.mpr (takeWhile_blanks hw (takeWhile_of_splitBlanks hu))

/-- More blanks may stand behind blanks. -/
theorem splitBlanks_stay (h : splitBlanks (x ++ s) = (x, s)) (hw : ∀ c ∈ w, isBlank c)
    (hu : splitBlanks u = ([], u)) : splitBlanks (x ++ (w ++ u)) = (x ++ w, u) := by
  have htaken {l m : List Char} (h : (l ++ m).takeWhile isBlank = l) : ∀ c ∈ l ++ w, isBlank c := by
    intro c hc
    rcases List.mem_append.mp hc with hc | hc
    · rw [← h] at hc
      exact List.mem_takeWhile_imp hc
    · exact hw c hc
  cases x with
  | nil => exact splitBlanks_blanks hw hu
  | cons d x =>
    rw [List.cons_append, splitBlanks_cons] at h
    by_cases hd : d = '\ufeff'
    · rw [if_pos hd] at h
      have hx := htaken (List.cons.inj (Prod.mk.inj h).1).2
      obtain ⟨ht, hs⟩ := takeWhile_blanks hx (takeWhile_of_splitBlanks hu)
      rw [← List.append_assoc, List.cons_append, List.cons_append, splitBlanks_cons, if_pos hd, hd, ht,
        hs]
    · rw [if_neg hd] at h
      have hx := htaken (l := d :: x) (Prod.mk.inj h).1
      rw [← List.append_assoc]
      exact splitBlanks_blanks hx hu

theorem splitBlockComment_cons (hc : ¬ (c = '*' ∧ r.head? = some '/')) :
    splitBlockComment (c :: r) = (splitBlockComment r).map fun p => (c :: p.1, p.2) := by
  rw [splitBlockComment]
  rintro r' rfl rfl
  exact hc ⟨rfl, rfl⟩

/-- Whether a comment ends does not depend on what stands behind its end. -/
theorem splitBlockComment_closed (h : splitBlockComment r = some (a, s)) :
    a ≠ [] ∧ ∀ s', splitBlockComment (a ++ s') = some (a, s') := by
  fun_induction splitBlockComment r generalizing a with
  | case1 => cases h
  | case2 r =>
    obtain ⟨rfl, -⟩ := Prod.mk.inj (Option.some.inj h)
    exact ⟨by simp, fun s' => rfl⟩
  | case3 c r hc ih =>
    obtain ⟨⟨x, y⟩, hxy, he⟩ := Option.map_eq_some_iff.mp h
    obtain ⟨rfl, rfl⟩ := Prod.mk.inj he
    obtain ⟨hne, hmore⟩ := ih hxy
    refine ⟨by simp, fun s' => ?_⟩
    obtain ⟨d, x, rfl⟩ := List.exists_cons_of_ne_nil hne
    have hr := splitBlockComment_append hxy
    rw [List.cons_append, splitBlockComment_cons, hmore]
    · rfl
    · rintro ⟨hstar, hd⟩
      obtain rfl : d = '/' := Option.some.inj hd
      exact hc _ hstar hr.symm

/-- A comment stays what it is in front of another text; a line comment ends there only if a
newline does. -/
theorem splitComment_stay (h : splitComment (x ++ r) = some (x, r)) (hr : r ≠ [])
    (hs : r.head? = some '\n' → s.head? = some '\n') : splitComment (x ++ s) = some (x, s) := by
  generalize hcs : x ++ r = cs at h
  unfold splitComment at h
  split at h
  · next y =>
    obtain ⟨rfl, hrest⟩ := Prod.mk.inj (Option.some.inj h)
    have hline : r.head? = some '\n' := by
      have hhead := List.head?_dropWhile_not (· != '\n') y
      rw [hrest] at hhead
      obtain ⟨d, r, rfl⟩ := List.exists_cons_of_ne_nil hr
      simpa using hhead
    obtain ⟨s', rfl⟩ := List.head?_eq_some_iff.mp (hs hline)
    have hall : ∀ c ∈ y.takeWhile (· != '\n'), c != '\n' := fun c => List.mem_takeWhile_imp
    simp only [List.cons_append, splitComment, List.takeWhile_append_of_pos hall,
      List.dropWhile_append_of_pos hall]
    simp
  · next y =>
    obtain ⟨⟨z, r'⟩, hz, he⟩ := Option.map_eq_some_iff.mp h
    obtain ⟨rfl, rfl⟩ := Prod.mk.inj he
    simp only [List.cons_append, splitComment, (splitBlockComment_closed hz).2 s, Option.map_some]
  · cases h

/-- Whether the text starts with a block comment. -/
def opensComment (cs : List Char) : Bool := cs.head? == some '/' && cs.tail.head? == some '*'

theorem slash_of_splitComment (h : splitComment r = some (a, s)) : ∃ x, a = '/' :: x := by
  unfold splitComment at h
  split at h
  · obtain ⟨rfl, -⟩ := Prod.mk.inj (Option.some.inj h)
    exact ⟨_, rfl⟩
  · obtain ⟨p, -, he⟩ := Option.map_eq_some_iff.mp h
    obtain ⟨rfl, -⟩ := Prod.mk.inj he
    exact ⟨_, rfl⟩
  · cases h

theorem splitComment_of_ne {c : Char} (hc : c ≠ '/') (r : List Char) : splitComment (c :: r) = none := by
  cases h : splitComment (c :: r) with
  | none => rfl
  | some split =>
    obtain ⟨a, s⟩ := split
    obtain ⟨x, rfl⟩ := slash_of_splitComment h
    exact absurd (List.cons.inj (splitComment_append h)).1.symm hc

theorem splitComment_ne_nil (h : splitComment r = some (a, s)) : a ≠ [] := by
  obtain ⟨x, rfl⟩ := slash_of_splitComment h
  exact List.cons_ne_nil _ _

/-! ### Rounds of trivia -/

/-- The bound on the rounds of trivia never bites: a comment takes a character. -/
theorem triviaWithin_eq : ∀ {n m : Nat} {cs : List Char}, cs.length < n → cs.length < m →
    triviaWithin n cs = triviaWithin m cs
  | 0, m, cs, hn, hm => by omega
  | n + 1, 0, cs, hn, hm => by omega
  | n + 1, m + 1, cs, hn, hm => by
    simp only [triviaWithin]
    cases hc : splitComment (splitBlanks cs).2 with
    | none => rfl
    | some comment =>
      obtain ⟨comment, r⟩ := comment
      have hblanks := congrArg List.length (splitBlanks_append cs)
      have hcomment := congrArg List.length (splitComment_append hc)
      have hpos := List.length_pos_iff.mpr (splitComment_ne_nil hc)
      simp only [List.length_append] at hblanks hcomment
      simp only
      rw [triviaWithin_eq (n := n) (m := m) (by omega) (by omega)]

/-- Trivia that are blanks. -/
theorem trivia_of_blanks (h : splitBlanks x = (a, s)) (hs : splitComment s = none) :
    trivia x = (a, s) := by
  simp only [trivia, triviaWithin, h, hs]

/-- Trivia that are blanks, a comment and more trivia. -/
theorem trivia_of_comment {comment : List Char} (h : splitBlanks x = (a, y))
    (hy : splitComment y = some (comment, r)) :
    trivia x = (a ++ comment ++ (trivia r).1, (trivia r).2) := by
  have hblanks := congrArg List.length (splitBlanks_append x)
  have hcomment := congrArg List.length (splitComment_append hy)
  have hpos := List.length_pos_iff.mpr (splitComment_ne_nil hy)
  simp only [h, List.length_append] at hblanks hcomment
  simp only [trivia, triviaWithin, h, hy, triviaWithin_eq (n := x.length) (m := r.length + 1)
    (show r.length < x.length by omega) (Nat.lt_succ_self _)]

/-- Trivia are blanks, or blanks, a comment and more trivia. -/
theorem trivia_cases (h : trivia x = (a, s)) :
    (splitBlanks x = (a, s) ∧ splitComment s = none) ∨
    ∃ blanks comment more, a = blanks ++ comment ++ more ∧ comment ≠ [] ∧
      splitBlanks x = (blanks, comment ++ (more ++ s)) ∧
      splitComment (comment ++ (more ++ s)) = some (comment, more ++ s) ∧
      trivia (more ++ s) = (more, s) := by
  obtain ⟨blanks, y, hblanks⟩ : ∃ blanks y, splitBlanks x = (blanks, y) := ⟨_, _, rfl⟩
  cases hy : splitComment y with
  | none =>
    rw [trivia_of_blanks hblanks hy] at h
    obtain ⟨rfl, rfl⟩ := Prod.mk.inj h
    exact .inl ⟨hblanks, hy⟩
  | some comment =>
    obtain ⟨comment, r⟩ := comment
    rw [trivia_of_comment hblanks hy] at h
    obtain ⟨rfl, rfl⟩ := Prod.mk.inj h
    have hcomment := splitComment_append hy
    have hr := trivia_append r
    refine .inr ⟨blanks, comment, (trivia r).1, rfl, splitComment_ne_nil hy, ?_, ?_, ?_⟩
    · rw [hr, hcomment, hblanks]
    · rw [hr, hcomment, hy]
    · rw [hr]

/-- What starts behind trivia is no blank, and no comment. -/
theorem head_of_trivia {x a : List Char} (h : trivia x = (a, c :: r)) :
    isBlank c = false ∧ splitComment (c :: r) = none := by
  rcases trivia_cases h with ⟨hblanks, hnone⟩ | ⟨blanks, comment, more, rfl, hne, -, -, hmore⟩
  · exact ⟨head_of_splitBlanks hblanks, hnone⟩
  · -- the rounds behind the first end where all of them do
    have hpos := List.length_pos_iff.mpr hne
    have hshort : more.length < (blanks ++ comment ++ more).length := by
      simp only [List.length_append]
      omega
    exact head_of_trivia hmore
termination_by a.length

theorem trivia_eq_nil_iff :
    trivia u = ([], u) ↔ splitBlanks u = ([], u) ∧ splitComment u = none := by
  constructor
  · intro h
    rcases trivia_cases h with h | ⟨blanks, comment, more, hall, hne, -⟩
    · exact h
    · simp [hne] at hall
  · rintro ⟨hblanks, hcomment⟩
    exact trivia_of_blanks hblanks hcomment

/-- No trivia start with a character that is no blank, unless a comment does. -/
theorem trivia_of_first (hmark : c ≠ '\ufeff') (hblank : isBlank c = false)
    (hs : splitComment (c :: r) = none) : trivia (c :: r) = ([], c :: r) :=
  trivia_eq_nil_iff.mpr ⟨splitBlanks_eq_nil_iff.mpr ⟨hmark, hblank⟩, hs⟩

/-- Blanks in front of a text that starts with no trivia. -/
theorem trivia_blanks (hw : ∀ c ∈ w, isBlank c) (hu : trivia u = ([], u)) :
    trivia (w ++ u) = (w, u) := by
  obtain ⟨hblanks, hcomment⟩ := trivia_eq_nil_iff.mp hu
  exact trivia_of_blanks (splitBlanks_blanks hw hblanks) hcomment

/-- **More blanks may stand behind trivia**, in front of any text that starts with none. -/
theorem trivia_stay {a : List Char} (h : trivia (a ++ s) = (a, s)) (hs : s ≠ [])
    (hw : ∀ c ∈ w, isBlank c) (hu : trivia u = ([], u)) : trivia (a ++ (w ++ u)) = (a ++ w, u) := by
  rcases trivia_cases h with
    ⟨hblanks, -⟩ | ⟨blanks, comment, more, rfl, hne, hblanks, hround, hmore⟩
  · obtain ⟨hnone, hcomment⟩ := trivia_eq_nil_iff.mp hu
    exact trivia_of_blanks (splitBlanks_stay hblanks hw hnone) hcomment
  · have hpos := List.length_pos_iff.mpr hne
    have hshort : more.length < (blanks ++ comment ++ more).length := by
      simp only [List.length_append]
      omega
    have ih := trivia_stay hmore hs hw hu
    -- a line comment does not end at the new blanks: behind it the old text has a newline
    have hline : (more ++ s).head? = some '\n' → (more ++ (w ++ u)).head? = some '\n' := by
      cases more with
      | nil =>
        intro hhead
        obtain ⟨r, rfl⟩ := List.head?_eq_some_iff.mp hhead
        exact absurd (head_of_trivia hmore).1 (by decide)
      | cons d more => exact id
    have hround' := splitComment_stay hround (by simp [hs]) hline
    obtain ⟨x, rfl⟩ := slash_of_splitComment hround
    have hblanks' := splitBlanks_stay (x := blanks) (s := '/' :: x ++ (more ++ s)) (w := [])
      (u := '/' :: x ++ (more ++ (w ++ u))) (by simpa using hblanks) (by simp)
      (splitBlanks_eq_nil_iff.mpr ⟨by decide, by decide⟩)
    rw [List.nil_append, List.append_nil] at hblanks'
    have hall := trivia_of_comment hblanks' hround'
    rw [ih] at hall
    simpa using hall
termination_by a.length

end ScriptHost
