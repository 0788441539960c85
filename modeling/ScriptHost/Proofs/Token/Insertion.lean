/-
# Blanks in front of a token

Where a token ends is decided by the characters it takes and by one more, and a blank decides as
any other character that does not go on with it. So blanks that are written in front of a token
leave all tokens what they are: those in front of the blanks stay where they are, and those behind
them move. If there is no newline among the blanks, the tokens stay on their lines as well.

Key definitions: `Token.lined`, `Inserted`.
Key theorems: `exists_inserted`, `Inserted.map_lined`.
-/
import ScriptHost.Proofs.Token.Exchange

namespace ScriptHost

open Source

/-- Of a place the line only. -/
def Source.Position.lined (p : Position) : Position := ⟨0, p.line, 0⟩

/-- A token without its columns: what it is, and the line it starts on. -/
def Token.lined (t : Token) : Token := ⟨t.kind, t.lexeme, t.start.lined, 0⟩

/-- The `blanks` are written between `x` and `y`, in front of a token: the text is read without
errors as before, the tokens `v` in front of them stay, and the tokens `r` from there on become the
tokens `r'`. -/
structure Inserted (x blanks y : List Char) (v r r' : List Token) : Prop where
  errors : (lexFrom .start (x ++ (blanks ++ y))).errors = []
  before : (lexFrom .start (x ++ y)).tokens = v ++ r
  after : (lexFrom .start (x ++ (blanks ++ y))).tokens = v ++ r'
  moved : List.Forall₂ (Token.Moved (Position.start.advance x) (Position.start.advance (x ++ blanks)))
    r r'
  front : ∀ t ∈ v, t.stop ≤ byteLength x

variable {x blanks y : List Char} {v r r' : List Token} {t u : Token}

/-- **Blanks in front of a token leave all tokens what they are.** -/
theorem exists_inserted (herrors : (lexFrom .start (x ++ y)).errors = [])
    (ht : t ∈ (lexFrom .start (x ++ y)).tokens) (hstart : t.start.offset = byteLength x)
    (hne : blanks ≠ []) (hw : ∀ c ∈ blanks, isBlank c) : ∃ v r r', Inserted x blanks y v r r' := by
  obtain ⟨v, w, htokens⟩ := List.append_of_mem ht
  have hplace : t.start.offset = Position.start.offset + byteLength x := by
    rw [hstart]
    exact (Nat.zero_add _).symm
  obtain ⟨hy, hsplit⟩ := lexFrom_split herrors htokens hplace
  have hmore : (lexFrom (Position.start.advance x) y).tokens = t :: w := by
    rw [hsplit, Lexed.tokens_behind] at htokens
    exact List.append_cancel_left htokens
  obtain ⟨e, blanks, rfl⟩ := List.exists_cons_of_ne_nil hne
  obtain ⟨c, z, rfl⟩ : ∃ c z, y = c :: z := by
    cases y with
    | nil =>
      rw [lexFrom_nil hy] at hmore
      cases hmore
    | cons c z => exact ⟨c, z, rfl⟩
  have hmeets : Meets (c :: z) (e :: blanks ++ c :: z) := .blank (hw e List.mem_cons_self) c z _
  obtain ⟨hmoved, hnone⟩ := lexFrom_moved (Position.start.advance x)
    (Position.start.advance (x ++ e :: blanks)) (c :: z)
  have hnew : lexFrom .start (x ++ (e :: blanks ++ c :: z)) =
      (lexFrom (Position.start.advance (x ++ e :: blanks)) (c :: z)).behind v := by
    rw [lexFrom_behind hw hy hmeets herrors htokens hplace, lexFrom_trivia (trivia_blanks hw hy) hy,
      Position.advance_append]
  rw [hsplit, Lexed.errors_behind] at herrors
  refine ⟨v, t :: w, _, ?_, htokens, ?_, hmore ▸ hmoved, ?_⟩
  · rw [hnew, Lexed.errors_behind]
    exact hnone herrors
  · rw [hnew, Lexed.tokens_behind]
  · intro u hu
    have hstops := (tiles_lexFrom .start (x ++ c :: z)).stops
    rw [htokens] at hstops
    rw [← hstart]
    exact (List.pairwise_append.mp hstops).2.2 u hu t List.mem_cons_self

namespace Inserted

/-- Without a newline among the blanks, what stands behind them stays on its line. -/
theorem line_advance (hline : '\n' ∉ blanks) (cs : List Char) :
    ((Position.start.advance (x ++ blanks)).advance cs).line =
      ((Position.start.advance x).advance cs).line := by
  simp only [Position.advance_append, advance_line, List.count_eq_zero.mpr hline, Nat.add_zero]

/-- **The tokens stay what they are, on the same lines.** -/
theorem map_lined (h : Inserted x blanks y v r r') (hline : '\n' ∉ blanks) :
    (lexFrom .start (x ++ (blanks ++ y))).tokens.map Token.lined =
      (lexFrom .start (x ++ y)).tokens.map Token.lined := by
  have hmoved : r'.map Token.lined = r.map Token.lined := by
    rw [eq_comm, ← List.forall₂_eq_eq_eq, List.forall₂_map_left_iff, List.forall₂_map_right_iff]
    refine h.moved.imp fun t u htu => ?_
    obtain ⟨a, ha, ha'⟩ := htu.start
    rw [Token.lined, Token.lined, htu.kind, htu.lexeme, ha, ha', Position.lined, Position.lined,
      line_advance hline]
  rw [h.before, h.after, List.map_append, List.map_append, hmoved]

/-- The text still ends on the same line. -/
theorem lined_finish (hline : '\n' ∉ blanks) :
    (lexFrom .start (x ++ (blanks ++ y))).finish.lined = (lexFrom .start (x ++ y)).finish.lined := by
  have hfinish (cs : List Char) : (lexFrom .start cs).finish = Position.start.advance cs :=
    finish_lexWithin _ _ _
  rw [hfinish, hfinish, ← List.append_assoc, Position.lined, Position.lined, Position.advance_append,
    line_advance hline, ← Position.advance_append]

end Inserted

end ScriptHost
