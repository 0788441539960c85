/-
# The line of a directive

A directive takes its `#` and the tokens behind it that start on the line of the `#`, whether it is a
reference, in its place or not, one that is ignored, or one that is reported. The literal of `#r` is
the exception: it is looked for behind the name and not on the line, so a string literal that starts
the next line is taken for it.

Key definitions: `behindLine`, `LiteralBelow`.
Key theorems: `next_directive`, `Turns.lines`, `turn_directive`.
-/
import ScriptHost.Proofs.Reading.MethodTurns
import ScriptHost.Proofs.Reading.PieceTurns
import ScriptHost.Proofs.Token.Tiling

namespace ScriptHost

open Parse

variable {declared : Bool} {c d : Cursor} {sharp name literal : Token} {r : List Token}

/-- The tokens behind those that start on the line of the `#`. -/
def behindLine (sharp : Token) (r : List Token) : List Token :=
  r.dropWhile fun u => u.start.line == sharp.start.line

/-- Behind the `#` stand an `r` on its line and a string literal on another one. -/
def LiteralBelow (sharp : Token) : List Token → Prop
  | name :: literal :: _ => (name.isWord "r" ∧ name.start.line = sharp.start.line) ∧
      literal.kind = .stringLiteral ∧ literal.start.line ≠ sharp.start.line
  | _ => False

instance : Decidable (LiteralBelow sharp r) :=
  match r with
  | [] | [_] => inferInstanceAs (Decidable False)
  | _ :: _ :: _ => inferInstanceAs (Decidable (_ ∧ _))

theorem behindLine_cons (h : name.start.line = sharp.start.line) :
    behindLine sharp (name :: r) = behindLine sharp r := by
  simp [behindLine, h]

/-- The reader of references takes the literal that stands next, and nothing if none does. -/
theorem next_reference (declared : Bool) (start c : Cursor) :
    (∃ literal r, c.rest = literal :: r ∧ literal.kind = .stringLiteral ∧
      (reference declared start c).next = c.goto r) ∨
    (∀ literal ∈ c.rest.head?, literal.kind ≠ .stringLiteral) ∧ (reference declared start c).next = c := by
  simp only [reference, bind_apply]
  rcases expect_eq .stringLiteral c with ⟨literal, r, hr, hk, hx⟩ | ⟨e, hx⟩
  · refine .inl ⟨literal, r, hr, hk, ?_⟩
    rw [hx]
    cases declared <;> rfl
  · refine .inr ⟨fun literal hl hk => ?_, by rw [hx]; rfl⟩
    obtain ⟨r, hr⟩ := List.head?_eq_some_iff.mp hl
    simp [expect, hr, hk] at hx

/-- A directive reads on behind the literal of a reference, or takes its line and nothing else. -/
theorem next_directive (declared : Bool) (c : Cursor) (sharp : Token) (r : List Token) :
    (∃ name literal r', r = name :: literal :: r' ∧
      (name.isWord "r" ∧ name.start.line = sharp.start.line) ∧ literal.kind = .stringLiteral ∧
      (directive declared c sharp r).next = c.goto (behindLine sharp r')) ∨
    ¬ LiteralBelow sharp r ∧ (directive declared c sharp r).next = c.goto (behindLine sharp r) := by
  cases r with
  | nil => exact .inr ⟨id, rfl⟩
  | cons name r' =>
    by_cases hname : name.isWord "r" ∧ name.start.line = sharp.start.line
    · obtain ⟨hkind, hr⟩ : name.kind = .identifier ∧ name.lexeme = "r" := by
        simpa [Token.isWord] using hname.1
      have hnext : (directive declared c sharp (name :: r')).next =
          (reference declared c (c.goto r')).next.goto
            (behindLine sharp (reference declared c (c.goto r')).next.rest) := by
        simp only [directive, hkind, hname.2, hr, and_self, ↓reduceIte]
        cases reference declared c (c.goto r') <;> rfl
      rcases next_reference declared c (c.goto r') with ⟨literal, r'', hr'', hl, href⟩ | ⟨hnone, href⟩
      · obtain rfl : r' = literal :: r'' := hr''
        exact .inl ⟨name, literal, r'', rfl, hname, hl, by rw [hnext, href]; rfl⟩
      · refine .inr ⟨fun hbelow => ?_, by rw [hnext, href, behindLine_cons hname.2]; rfl⟩
        cases r' with
        | nil => exact hbelow
        | cons literal r'' => exact hnone literal rfl hbelow.2.1
    · have hbelow : ¬ LiteralBelow sharp (name :: r') := by
        cases r' with
        | nil => exact id
        | cons literal r'' => exact fun h => hname h.1
      refine .inr ⟨hbelow, ?_⟩
      simp only [directive]
      split
      · next h =>
        have hr : name.lexeme ≠ "r" := fun hr => hname ⟨by simp [Token.isWord, h.1, hr], h.2⟩
        rw [if_neg hr]
        split <;> rfl
      · rfl

/-- **The lines go up along what is left of a source**, wherever a run of turns has come. -/
theorem Turns.lines {source : String} {items : List Item} {errors : List ParseError}
    (h : Turns false (.ofLexed (lex source)) declared c items errors) :
    c.rest.Pairwise fun t u => t.start.line ≤ u.start.line := by
  obtain ⟨w, hw⟩ := h.suffix
  have hlines := (tiles_lex source).lines.2
  have hsuffix : c.rest <:+ (lex source).tokens := ⟨w, hw.symm⟩
  exact hlines.sublist hsuffix.sublist

/-- **A directive takes exactly its line**, and what is left starts on later lines, unless a string
literal on a later line stands behind `#r`: then the literal is taken, too. -/
theorem turn_directive (declared : Bool) (hr : c.rest = sharp :: r) (hk : sharp.kind = .hash) :
    (¬ LiteralBelow sharp r →
      (turn declared c).next = c.goto (behindLine sharp r) ∧
      c.readUpTo (turn declared c).next =
        sharp :: r.takeWhile fun u => u.start.line == sharp.start.line) ∧
    (LiteralBelow sharp r → (turn declared c).next = c.goto (behindLine sharp (r.drop 2))) ∧
    ((c.rest.Pairwise fun t u => t.start.line ≤ u.start.line) →
      ∀ u ∈ (turn declared c).next.rest, sharp.start.line < u.start.line) := by
  rw [turn_of_hash hr hk]
  refine ⟨fun hbelow => ?_, fun hbelow => ?_, fun hlines u hu => ?_⟩
  · have hnext : (directive declared c sharp r).next = c.goto (behindLine sharp r) := by
      rcases next_directive declared c sharp r with ⟨name, literal, r', rfl, hname, hl, hnext⟩ | ⟨-, hnext⟩
      · have hline : literal.start.line = sharp.start.line :=
          not_not.mp fun hline => hbelow ⟨hname, hl, hline⟩
        rw [hnext, behindLine_cons hname.2, behindLine_cons hline]
      · exact hnext
    refine ⟨hnext, readUpTo_eq ?_⟩
    rw [hnext, hr, List.cons_append]
    exact congrArg (sharp :: ·) List.takeWhile_append_dropWhile.symm
  · rcases next_directive declared c sharp r with ⟨name, literal, r', rfl, -, -, hnext⟩ | ⟨hnone, -⟩
    · exact hnext
    · exact absurd hbelow hnone
  · have hne := line_of_directive hr hlines u hu
    rw [hr, List.pairwise_cons] at hlines
    obtain ⟨w, hw, hleft, -⟩ := directive_before declared hr
    obtain ⟨v, w, rfl⟩ := List.exists_cons_of_ne_nil hw
    have hmem : u ∈ r := by
      rw [(List.cons.inj (hr.symm.trans hleft)).2]
      exact List.mem_append_right _ hu
    have hle := hlines.1 u hmem
    omega

/-- A region that is named on its line. -/
def sampleRegion : Cursor := .ofLexed (lex "#region Helpers\nint x;")

theorem sampleRegion_owned : ∃ sharp r, sampleRegion.rest = sharp :: r ∧ sharp.kind = .hash ∧
    (turn false sampleRegion).next = sampleRegion.goto (behindLine sharp r) ∧
    ∀ u ∈ (turn false sampleRegion).next.rest, sharp.start.line < u.start.line := by
  have hr : sampleRegion.rest = ⟨.hash, "#", ⟨0, 1, 1⟩, 1⟩ :: sampleRegion.rest.tail := by
    decide +kernel
  obtain ⟨howned, -, hbehind⟩ := turn_directive false hr rfl
  exact ⟨_, _, hr, rfl, (howned (by decide +kernel)).1, hbehind (Turns.stay _ _).lines⟩

/-- A reference whose literal starts the next line. -/
def sampleBelow : Cursor := .ofLexed (lex "#r\n\"Lib\";")

/-- The literal on the second line is taken for the one of `#r`. -/
theorem sampleBelow_takesLiteral : ∃ sharp r, sampleBelow.rest = sharp :: r ∧ sharp.kind = .hash ∧
    ∃ literal ∈ sampleBelow.readUpTo (turn false sampleBelow).next,
      literal.start.line ≠ sharp.start.line := by
  refine ⟨⟨.hash, "#", ⟨0, 1, 1⟩, 1⟩, sampleBelow.rest.tail, by decide +kernel, rfl,
    ⟨.stringLiteral, "\"Lib\"", ⟨3, 2, 1⟩, 5⟩, by decide +kernel, by decide⟩

end ScriptHost
