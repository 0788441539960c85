/-
# Exchanging a block

A block is a text in braces that is one token at each end. Exchanged for another block inside
a longer text, it changes only its own tokens: those in front of it are the same, and those
behind it are the same at other places.

Key definitions: `Bounds`, `BlockLexed`.
Key theorems: `Tiles.inside`, `BlockLexed.front`, `BlockLexed.through`, `BlockLexed.exchange`.
-/
import ScriptHost.Proofs.Token.Boundary

namespace ScriptHost

open Source

variable {p : Position} {cs x y z : List Char} {v w r ts : List Token} {t u : Token}

/-- Every token ends in front of those behind it. -/
theorem Tiles.stops (h : Tiles p cs ts) : ts.Pairwise fun t u => t.stop ≤ u.start.offset := by
  induction h with
  | nil => exact .nil
  | @cons p gap text rest t r start length spelled more ih =>
    refine .cons (fun u hu => ?_) ih
    have hu := more.offset_le u hu
    rw [advance_offset] at hu
    rwa [Token.stop, length]

/-- A token of a kind with a fixed spelling is as long as that. -/
theorem Tiles.length_eq (h : Tiles p cs ts) (ht : t ∈ ts) {text : List Char}
    (hk : t.kind.spelling? = some text) : t.length = byteLength text := by
  induction h with
  | nil => cases ht
  | @cons p gap text' rest t' r start length spelled more ih =>
    rcases List.mem_cons.mp ht with rfl | ht
    · rw [length, spelled text hk]
    · exact ih ht

/-- Tokens that start and end where a piece of the text does are that piece. -/
theorem Tiles.inside (h : Tiles p (x ++ y ++ z) (v ++ w ++ r)) (ht : w.head? = some t)
    (hu : w.getLast? = some u) (hstart : t.start.offset = p.offset + byteLength x)
    (hstop : u.stop = p.offset + byteLength x + byteLength y) :
    t.start = p.advance x ∧ (∀ s, t.kind.spelling? = some s → s <+: y) ∧
      ∀ s, u.kind.spelling? = some s → s <:+ y := by
  rw [List.append_assoc v] at h
  obtain ⟨a, rest, hcs, hrest⟩ := h.drop
  obtain ⟨gap, text, behind, rfl, hts, hus, -, -, hfirst, hlast⟩ := hrest.slice ht hu
  rw [← Position.advance_append] at hts
  have hfront : byteLength (a ++ gap) = byteLength x := by
    rw [hts, advance_offset] at hstart
    omega
  have hall : x ++ (y ++ z) = (a ++ gap) ++ (text ++ behind) := by
    rw [← List.append_assoc, hcs]
    simp only [List.append_assoc]
  obtain ⟨rfl, hbehind⟩ := append_inj_of_byteLength hall hfront.symm
  obtain ⟨rfl, -⟩ := append_inj_of_byteLength hbehind (by omega)
  exact ⟨hts, hfirst, hlast⟩

/-- The tokens are a pair of braces at the ends of a text that starts at `p`, with others
between them. -/
structure Bounds (p : Position) (text : List Char) (opener closer : Token) : Prop where
  opens : opener.kind = .opening .brace
  closes : closer.kind = .closing .brace
  start : opener.start.offset = p.offset
  stop : closer.stop = p.offset + byteLength text

/-- A block has its bounds wherever it stands. -/
theorem Bounds.moved {q : Position} {opener closer opener' closer' : Token}
    (h : Bounds p y opener closer) (ho : opener.Moved p q opener') (hc : closer.Moved p q closer') :
    Bounds q y opener' closer' where
  opens := ho.kind ▸ h.opens
  closes := hc.kind ▸ h.closes
  start := by
    obtain ⟨a, ha, ha'⟩ := ho.start
    have hstart := h.start
    rw [ha, advance_offset] at hstart
    rw [ha', advance_offset]
    omega
  stop := by
    obtain ⟨a, ha, ha'⟩ := hc.start
    have hstop := h.stop
    rw [Token.stop, ha, advance_offset] at hstop
    rw [Token.stop, ha', advance_offset, ← hc.length]
    omega

/-- The text `x ++ y ++ z` at `p` is read without errors, and `y` in it is a block. -/
structure BlockLexed (p : Position) (x y z : List Char) (v : List Token) (opener : Token)
    (inner : List Token) (closer : Token) (r : List Token) : Prop where
  errors : (lexFrom p (x ++ y ++ z)).errors = []
  tokens : (lexFrom p (x ++ y ++ z)).tokens = v ++ (opener :: inner ++ [closer]) ++ r
  bounds : Bounds (p.advance x) y opener closer

/-- Lists that match end with elements that do. -/
theorem forall₂_concat {α β : Type} {R : α → β → Prop} {a : α} : ∀ {l : List α} {m : List β},
    List.Forall₂ R (l ++ [a]) m → ∃ m' b, m = m' ++ [b] ∧ List.Forall₂ R l m' ∧ R a b
  | [], _, .cons h .nil => ⟨[], _, rfl, .nil, h⟩
  | _ :: _, _, .cons h more => by
    obtain ⟨m', b, rfl, hm, hb⟩ := forall₂_concat more
    exact ⟨_ :: m', b, rfl, .cons h hm, hb⟩

namespace BlockLexed

variable {inner : List Token} {opener closer : Token}

theorem tiles (h : BlockLexed p x y z v opener inner closer r) :
    Tiles p (x ++ y ++ z) (v ++ (opener :: inner ++ [closer]) ++ r) := by
  rw [← h.tokens]
  exact tiles_lexFrom _ _

/-- The block begins with a brace, and this is its first token. -/
theorem opener_eq (h : BlockLexed p x y z v opener inner closer r) :
    (∃ y0, y = '{' :: y0) ∧ opener = ⟨.opening .brace, "\x7b", p.advance x, 1⟩ := by
  have hstart := h.bounds.start
  have hstop := h.bounds.stop
  rw [advance_offset] at hstart hstop
  obtain ⟨-, hfirst, -⟩ := h.tiles.inside rfl List.getLast?_concat hstart hstop
  obtain ⟨y0, rfl⟩ := hfirst ['{'] (by rw [h.bounds.opens]; rfl)
  have herrors := h.errors
  have htokens := h.tokens
  have hsplit : x ++ (['{'] ++ y0) ++ z = x ++ '{' :: (y0 ++ z) := by simp
  rw [hsplit] at herrors htokens
  rw [List.append_assoc v] at htokens
  exact ⟨⟨y0, rfl⟩, eq_of_brace rfl herrors htokens hstart⟩

/-- It ends with a brace, and this is its last token. -/
theorem exists_concat (h : BlockLexed p x y z v opener inner closer r) :
    ∃ y1, y = y1 ++ ['}'] ∧ closer.start.offset = p.offset + byteLength (x ++ y1) := by
  have hstart := h.bounds.start
  have hstop := h.bounds.stop
  rw [advance_offset] at hstart hstop
  obtain ⟨-, -, hend⟩ := h.tiles.inside rfl List.getLast?_concat hstart hstop
  obtain ⟨y1, rfl⟩ := hend ['}'] (by rw [h.bounds.closes]; rfl)
  have hlength : closer.length = 1 :=
    h.tiles.length_eq (by simp) (show closer.kind.spelling? = some ['}'] by rw [h.bounds.closes]; rfl)
  have hone : byteLength ['}'] = 1 := rfl
  refine ⟨y1, rfl, ?_⟩
  rw [Token.stop, hlength, byteLength_append, hone] at hstop
  rw [byteLength_append]
  omega

/-- The tokens in front of a block are the same whatever stands in its place, if that begins with
a brace as well. -/
theorem front (h : BlockLexed p x y z v opener inner closer r) (y0 : List Char) :
    lexFrom p (x ++ '{' :: y0) = (lexFrom (p.advance x) ('{' :: y0)).behind v := by
  obtain ⟨⟨y1, rfl⟩, hopener⟩ := h.opener_eq
  have herrors := h.errors
  have htokens := h.tokens
  have hsplit : x ++ '{' :: y1 ++ z = x ++ '{' :: (y1 ++ z) := by simp
  rw [hsplit] at herrors htokens
  rw [List.append_assoc v] at htokens
  exact lexFrom_brace_behind rfl herrors htokens (by rw [hopener, advance_offset]) y0

/-- The tokens up to the end of a block are the same whatever stands behind it. -/
theorem through (h : BlockLexed p x y z v opener inner closer r) (s : List Char) :
    lexFrom p (x ++ y ++ s) =
      (lexFrom (p.advance (x ++ y)) s).behind (v ++ (opener :: inner ++ [closer])) := by
  obtain ⟨y1, rfl, hcloser⟩ := h.exists_concat
  have herrors := h.errors
  have htokens := h.tokens
  have hsplit (s : List Char) : x ++ (y1 ++ ['}']) ++ s = (x ++ y1) ++ '}' :: s := by simp
  have hgroup : v ++ (opener :: inner ++ [closer]) ++ r = (v ++ opener :: inner) ++ closer :: r := by
    simp
  rw [hsplit] at herrors htokens
  rw [hgroup] at htokens
  have hthrough := lexFrom_through rfl herrors htokens hcloser s
  rw [hsplit, hthrough]
  simp only [List.append_assoc, List.cons_append]

/-- **Exchanging a block changes only its own tokens**: those in front of it are the same, and
those of the new block and behind it are those of these texts at other places. -/
theorem exchange (h : BlockLexed p x y z v opener inner closer r) {y' : List Char}
    {inner' : List Token} {opener' closer' : Token}
    (h' : BlockLexed .start [] y' [] [] opener' inner' closer' []) :
    ∃ o g k r', BlockLexed p x y' z v o g k r' ∧
      List.Forall₂ (Token.Moved .start (p.advance x)) inner' g ∧
      List.Forall₂ (Token.Moved (p.advance (x ++ y)) (p.advance (x ++ y'))) r r' := by
  -- the new block at its place
  obtain ⟨hmoved, hnone⟩ := lexFrom_moved .start (p.advance x) ([] ++ y' ++ [])
  rw [h'.tokens] at hmoved
  obtain ⟨o, g, k, hall, ho, hg, hk⟩ : ∃ o g k,
      (lexFrom (p.advance x) ([] ++ y' ++ [])).tokens = [] ++ (o :: g ++ [k]) ++ [] ∧
        opener'.Moved .start (p.advance x) o ∧
        List.Forall₂ (Token.Moved .start (p.advance x)) inner' g ∧
        closer'.Moved .start (p.advance x) k := by
    rw [List.append_nil, List.nil_append] at hmoved
    obtain ⟨g0, k, hall, hg0, hk⟩ := forall₂_concat hmoved
    cases hg0 with
    | cons ho hg => exact ⟨_, _, k, by rw [hall]; simp, ho, hg, hk⟩
  have hblock : BlockLexed (p.advance x) [] y' [] [] o g k [] :=
    ⟨hnone h'.errors, hall, h'.bounds.moved ho hk⟩
  obtain ⟨hmore, hnoneMore⟩ := lexFrom_moved (p.advance (x ++ y)) (p.advance (x ++ y')) z
  -- the old text is read up to the end of its block, the new one in front of its block and in it
  have hold := h.through z
  have hnew : lexFrom p (x ++ y' ++ z) =
      (lexFrom (p.advance (x ++ y')) z).behind (v ++ (o :: g ++ [k])) := by
    have hthrough := hblock.through z
    rw [List.nil_append, List.nil_append, ← Position.advance_append] at hthrough
    obtain ⟨y0, rfl⟩ := hblock.opener_eq.1
    rw [List.append_assoc, List.cons_append, h.front, ← List.cons_append, hthrough,
      ← Lexed.behind_append]
  have hr : (lexFrom (p.advance (x ++ y)) z).tokens = r := by
    have htokens := h.tokens
    rw [hold, Lexed.tokens_behind] at htokens
    exact List.append_cancel_left htokens
  refine ⟨o, g, k, (lexFrom (p.advance (x ++ y')) z).tokens, ⟨?_, ?_, hblock.bounds⟩, hg, hr ▸ hmore⟩
  · rw [hnew, Lexed.errors_behind]
    refine hnoneMore ?_
    rw [← h.errors, hold, Lexed.errors_behind]
  · rw [hnew, Lexed.tokens_behind]

end BlockLexed

end ScriptHost
