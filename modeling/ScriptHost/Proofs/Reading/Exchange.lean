/-
# The pieces of a text with a block exchanged

A text with a block exchanged for another consists of the same pieces: the tokens in front of
the block, the block, and the tokens behind it, whose lines all move alike.

Key definitions: `Edit.exchange`, `Exchanged`.
Key theorems: `same_front`, `same_behind`, `exists_exchanged`.
-/
import ScriptHost.Proofs.Reading.PieceTurns
import ScriptHost.Proofs.Token.Exchange

namespace ScriptHost

open Parse Source

/-- One of two values for each version. -/
def Side.pick {α : Type} (a b : α) : Side → α
  | .before => a
  | .after => b

/-- The edit that puts `y'` in the place of `y`, between `x` and `z`. -/
def Edit.exchange (x y y' z : List Char) : Edit where
  same i j := (i = j ∧ i ≤ byteLength x) ∨
    ∃ k, i = byteLength (x ++ y) + k ∧ j = byteLength (x ++ y') + k
  same_max := by
    simp only [byteLength_append]
    rintro i i' j j' (⟨rfl, hi⟩ | ⟨k, rfl, rfl⟩) (⟨rfl, hj⟩ | ⟨l, rfl, rfl⟩)
    · exact .inl ⟨rfl, by omega⟩
    · exact .inr ⟨l, by omega, by omega⟩
    · exact .inr ⟨k, by omega, by omega⟩
    · exact .inr ⟨max k l, by omega, by omega⟩
  finish s := Position.start.advance (x ++ s.pick y y' ++ z)
  ends := by
    refine .inr ⟨byteLength z, ?_, ?_⟩
    · rw [offset_advance_start, byteLength_append _ z]
      rfl
    · rw [offset_advance_start, byteLength_append _ z]
      rfl

variable {x y y' z : List Char}

/-- A place in front of the exchanged block is the same byte of both versions. -/
theorem same_front {i j : Nat} (h : (Edit.exchange x y y' z).same i j) (hy : 0 < byteLength y)
    (hi : i ≤ byteLength x) : j = i := by
  rcases h with ⟨hij, -⟩ | ⟨k, hk, -⟩
  · exact hij.symm
  · rw [byteLength_append] at hk
    omega

/-- A place behind it is as many bytes behind the block of either version. -/
theorem same_behind {i j : Nat} (h : (Edit.exchange x y y' z).same i j) (hy : 0 < byteLength y)
    (hi : byteLength (x ++ y) ≤ i) :
    ∃ k, i = byteLength (x ++ y) + k ∧ j = byteLength (x ++ y') + k := by
  rcases h with ⟨-, hle⟩ | h
  · rw [byteLength_append] at hi
    omega
  · exact h

/-- Tokens that are twins, two by two, are pieces. -/
theorem exists_pieces {e : Edit} {Q : Token → Token → Prop} : ∀ {ts us : List Token},
    List.Forall₂ (fun t u => e.Twins (Side.pick t u) ∧ Q t u) ts us →
      ∃ ps : List (Piece e), ps.flatMap (Piece.tokens .before) = ts ∧
        ps.flatMap (Piece.tokens .after) = us ∧
        ∀ p ∈ ps, ∃ t ht, p = .token t ht ∧ Q (t .before) (t .after) := by
  intro ts us hall
  induction hall with
  | nil => exact ⟨[], rfl, rfl, by simp⟩
  | @cons t u ts us hfirst _ ih =>
    obtain ⟨ht, hq⟩ := hfirst
    obtain ⟨ps, h1, h2, h⟩ := ih
    refine ⟨.token (Side.pick t u) ht :: ps, by rw [← h1]; rfl, by rw [← h2]; rfl, fun p hp => ?_⟩
    rcases List.mem_cons.mp hp with rfl | hp
    · exact ⟨_, _, rfl, hq⟩
    · exact h p hp

/-- Tokens of the same kinds open and close the same brackets. -/
theorem nest_of_kinds {p q : Position} : ∀ {ts us : List Token} (st : List Delimiter),
    List.Forall₂ (Token.Moved p q) ts us → nest st us = nest st ts := by
  intro ts us st hall
  induction hall generalizing st with
  | nil => rfl
  | cons h _ ih =>
    simp only [nest, ← h.kind]
    split
    · exact ih _
    · split
      · rfl
      · split
        · exact ih _
        · rfl
    · exact ih _

/-- The braces of the old and of the new block are at the same place. -/
theorem braces_exchange {v inner g r r' : List Token} {opener o closer k : Token}
    (h : BlockLexed .start x y z v opener inner closer r) (hi : Neutral inner)
    (h' : BlockLexed .start x y' z v o g k r') (hg : Neutral g) :
    (Edit.exchange x y y' z).Braces (Side.pick opener o) (Side.pick closer k)
      (Side.pick inner g) := by
  have hopener := h.opener_eq.2
  have ho := h'.opener_eq.2
  have hstop {y : List Char} {u : Token}
      (h : u.stop = (Position.start.advance x).offset + byteLength y) : u.stop = byteLength (x ++ y) := by
    rw [h, offset_advance_start, byteLength_append]
  refine ⟨fun s => ?_, fun s => ?_, fun s => ?_, fun s => ?_, .inl ⟨?_, ?_⟩, .inr ⟨0, ?_, ?_⟩⟩
  · cases s
    · exact h.bounds.opens
    · exact h'.bounds.opens
  · cases s
    · exact h.bounds.closes
    · exact h'.bounds.closes
  · cases s
    · rfl
    · exact congrArg Token.lexeme (ho.trans hopener.symm)
  · cases s
    · exact hi
    · exact hg
  · exact congrArg (·.start.offset) (hopener.trans ho.symm)
  · exact Nat.le_of_eq (h.bounds.start.trans (offset_advance_start x))
  · exact hstop h.bounds.stop
  · exact hstop h'.bounds.stop

/-- A token that ends in front of the exchanged text is the same in both versions. -/
theorem twins_of_stop_le {t : Token} (h : t.stop ≤ byteLength x) :
    (Edit.exchange x y y' z).Twins (Side.pick t t) := by
  refine ⟨?_, ?_, .inl ⟨rfl, ?_⟩, .inl ⟨rfl, h⟩⟩
  · rintro (_ | _) <;> rfl
  · rintro (_ | _) <;> rfl
  · exact Nat.le_trans (Nat.le_add_right _ _) h

/-- The tokens in front of the block are the same in both versions, and end in front of it. -/
theorem twins_front {v inner r : List Token} {opener closer : Token}
    (h : BlockLexed .start x y z v opener inner closer r) :
    ∀ t ∈ v, (Edit.exchange x y y' z).Twins (Side.pick t t) := by
  intro t ht
  have htiles := h.tiles
  rw [List.append_assoc v] at htiles
  have hstop := (List.pairwise_append.mp htiles.stops).2.2 t ht opener (by simp)
  rw [h.bounds.start, offset_advance_start] at hstop
  exact twins_of_stop_le hstop

/-- The tokens behind it are at the same distance from its end. -/
theorem twins_behind {t u : Token}
    (h : t.Moved (Position.start.advance (x ++ y)) (Position.start.advance (x ++ y')) u) :
    (Edit.exchange x y y' z).Twins (Side.pick t u) := by
  obtain ⟨a, ha, ha'⟩ := h.start
  have hlength := h.length
  have hstart : t.start.offset = byteLength (x ++ y) + byteLength a := by
    rw [ha, advance_offset, offset_advance_start]
  have hstart' : u.start.offset = byteLength (x ++ y') + byteLength a := by
    rw [ha', advance_offset, offset_advance_start]
  refine ⟨?_, ?_, .inr ⟨byteLength a, hstart, hstart'⟩, .inr ⟨byteLength a + t.length, ?_, ?_⟩⟩
  · rintro (_ | _)
    · rfl
    · exact h.kind.symm
  · rintro (_ | _)
    · rfl
    · exact h.lexeme.symm
  · show t.start.offset + t.length = _
    omega
  · show u.start.offset + u.length = _
    omega

/-- The pieces of a text with a block exchanged: tokens in front that are the same, the block,
and tokens behind it that are where the same text behind either block leads. -/
structure Exchanged (front : List (Piece (Edit.exchange x y y' z)))
    (block : Piece (Edit.exchange x y y' z)) (behind : List (Piece (Edit.exchange x y y' z))) :
    Prop where
  cursor : ∀ s, Cursor.ofLexed (lexFrom .start (x ++ s.pick y y' ++ z)) =
    (Edit.exchange x y y' z).cursor (front ++ block :: behind) s
  alike : ∀ p ∈ front, ∃ t ht, p = .token t ht ∧ t .before = t .after
  place : ∀ s, (block.first s).start = Position.start.advance x
  moved : ∀ p ∈ behind, ∃ t ht, p = .token t ht ∧ ∃ a, ∀ s,
    (t s).start = (Position.start.advance (x ++ s.pick y y')).advance a

/-- **A text with a block exchanged** for another is read without errors too, and consists of
the same pieces. -/
theorem exists_exchanged {v inner inner' r : List Token} {opener opener' closer closer' : Token}
    (h : BlockLexed .start x y z v opener inner closer r) (hi : Balanced inner)
    (h' : BlockLexed .start [] y' [] [] opener' inner' closer' []) (hi' : Balanced inner') :
    (lexFrom .start (x ++ y' ++ z)).errors = [] ∧
      ∃ (front behind : List (Piece (Edit.exchange x y y' z))) (block : _),
        Exchanged front block behind ∧ block.first .before = opener ∧
          behind.flatMap (Piece.tokens .before) = r := by
  obtain ⟨o, g, k, r', hnew, hg, hr⟩ := h.exchange h'
  have hbraces := braces_exchange h (neutral_of_balanced hi) hnew
    ((nest_of_kinds [] hg).trans (neutral_of_balanced hi'))
  have hfront : List.Forall₂ (fun t u => (Edit.exchange x y y' z).Twins (Side.pick t u) ∧ t = u)
      v v := List.forall₂_same.mpr fun t ht => ⟨twins_front h t ht, rfl⟩
  have hbehind : List.Forall₂ (fun t u => (Edit.exchange x y y' z).Twins (Side.pick t u) ∧
      ∃ a, t.start = (Position.start.advance (x ++ y)).advance a ∧
        u.start = (Position.start.advance (x ++ y')).advance a) r r' :=
    hr.imp fun t u h => ⟨twins_behind h, h.start⟩
  obtain ⟨front, hfront1, hfront2, hfront⟩ := exists_pieces hfront
  obtain ⟨behind, hbehind1, hbehind2, hbehind⟩ := exists_pieces hbehind
  refine ⟨hnew.errors, front, behind, .block _ _ _ hbraces, ⟨?_, hfront, ?_, ?_⟩, rfl, hbehind1⟩
  · intro s
    have hfinish (cs : List Char) : (lexFrom .start cs).finish = Position.start.advance cs :=
      finish_lexWithin _ _ _
    have hcursor : (Edit.exchange x y y' z).cursor
        (front ++ .block _ _ _ hbraces :: behind) s =
          ⟨front.flatMap (Piece.tokens s) ++ (Piece.block _ _ _ hbraces).tokens s
            ++ behind.flatMap (Piece.tokens s), Position.start.advance (x ++ s.pick y y' ++ z)⟩ := by
      rw [Edit.cursor, List.flatMap_append, List.flatMap_cons, List.append_assoc]
      rfl
    rw [hcursor, Cursor.ofLexed, hfinish]
    cases s with
    | before =>
      rw [hfront1, hbehind1]
      exact congrArg (Cursor.mk · _) h.tokens
    | after =>
      rw [hfront2, hbehind2]
      exact congrArg (Cursor.mk · _) hnew.tokens
  · rintro (_ | _)
    · exact congrArg Token.start h.opener_eq.2
    · exact congrArg Token.start hnew.opener_eq.2
  · intro p hp
    obtain ⟨t, ht, rfl, a, ha, ha'⟩ := hbehind p hp
    refine ⟨t, ht, rfl, a, ?_⟩
    rintro (_ | _)
    · exact ha
    · exact ha'

/-! ### Lines -/

namespace Exchanged

variable {front behind w qs : List (Piece (Edit.exchange x y y' z))}
  {block : Piece (Edit.exchange x y y' z)} {sharp : Side → Token}
  {hs : (Edit.exchange x y y' z).Twins sharp}

/-- A line in front of the block breaks at the same pieces. -/
theorem level_of_front (h : Exchanged front block behind) (hfront : front = w ++ .token sharp hs :: qs)
    (hlt : (sharp .before).start.line < (Position.start.advance x).line) :
    ∀ p ∈ qs ++ block :: behind, p.Level sharp := by
  have hsharp (s : Side) : (sharp s).start.line = (sharp .before).start.line := by
    obtain ⟨t, ht, heq, hsame⟩ := h.alike (.token sharp hs) (by rw [hfront]; simp)
    obtain rfl : sharp = t := by injection heq
    cases s
    · rfl
    · rw [hsame]
  intro p hp
  rcases List.mem_append.mp hp with hp | hp
  · obtain ⟨t, ht, rfl, hsame⟩ := h.alike p (by rw [hfront]; simp [hp])
    have hline (s : Side) : (t s).start.line = (t .before).start.line := by
      cases s
      · rfl
      · rw [hsame]
    by_cases heq : (t .before).start.line = (sharp .before).start.line
    · exact .inl ⟨t, ht, rfl, fun s => by rw [hline, hsharp, heq]⟩
    · exact .inr fun s => by rw [Piece.first, hline, hsharp]; exact heq
  -- the block starts on a later line than `#`, and what is behind it too
  have hle (s : Side) : (Position.start.advance x).line ≤ (p.first s).start.line := by
    rcases List.mem_cons.mp hp with rfl | hp
    · rw [h.place]
    · obtain ⟨t, ht, rfl, a, ha⟩ := h.moved p hp
      rw [Piece.first, ha, Position.advance_append]
      exact Nat.le_trans (line_le_advance _ _) (line_le_advance _ _)
  refine .inr fun s heq => ?_
  have hmore := hle s
  rw [heq, hsharp] at hmore
  omega

/-- Behind the block all lines move alike, so that they break at the same pieces. -/
theorem level_of_behind (h : Exchanged front block behind)
    (hbehind : behind = w ++ .token sharp hs :: qs) : ∀ p ∈ qs, p.Level sharp := by
  obtain ⟨a, ha⟩ : ∃ a, ∀ s,
      (sharp s).start = (Position.start.advance (x ++ s.pick y y')).advance a := by
    obtain ⟨t, ht, heq, hplace⟩ := h.moved (.token sharp hs) (by rw [hbehind]; simp)
    obtain rfl : sharp = t := by injection heq
    exact hplace
  intro p hp
  obtain ⟨t, ht, rfl, b, hb⟩ := h.moved p (by rw [hbehind]; simp [hp])
  have hiff (s : Side) : (t s).start.line = (sharp s).start.line ↔ b.count '\n' = a.count '\n' := by
    rw [ha, hb, advance_line _ (Position.advance _ _), advance_line _ (Position.advance _ _)]
    exact Nat.add_left_cancel_iff
  by_cases heq : b.count '\n' = a.count '\n'
  · exact .inl ⟨t, ht, rfl, fun s => (hiff s).mpr heq⟩
  · exact .inr fun s hline => heq ((hiff s).mp hline)

end Exchanged

end ScriptHost
