/-
# Turns, taken in step

A turn at the items of a text takes the same pieces of both versions and gives the same item
up to places, or a problem of the same kind, and recovers from it at the same piece. Only a
directive looks at lines: it is in step where the lines of both versions break at the same
pieces. So are runs of turns, one turn after the other.

Key definitions: `TurnInStep`, `Piece.Level`.
Key theorems: `resume_cursor`, `turnInStep_statement`, `turnInStep_directive`,
`turnInStep_declaration`, `turnInStep_turn`, `Turns.inStep`.
-/
import ScriptHost.Proofs.Reading.PieceItems

namespace ScriptHost

open Parse Source

variable {e : Edit} {ps qs w : List (Piece e)}

/-- On both versions the turn takes the same pieces, and gives the same item up to places or
none, and a problem of the same kind or none. -/
structure TurnInStep (ps : List (Piece e)) (now : Side → Turn) : Prop where
  next : ∃ w qs, ps = w ++ qs ∧ ∀ s, (now s).next = e.cursor qs s
  item : e.MayItem fun s => (now s).item?
  error : Keeps (Option.map ParseError.kind) fun s => (now s).error?

theorem TurnInStep.of_eq {now n : Side → Turn} (h : TurnInStep ps n) (heq : ∀ s, now s = n s) :
    TurnInStep ps now := by
  obtain rfl : now = n := funext heq
  exact h

/-- Inside open brackets, tokens that leave these open are passed over by a recovery. -/
theorem resume_nest {depth : Nat} (r : List Token) : ∀ {w : List Token} {st st' : List Delimiter},
    nest st w = some st' → resume (depth + 1 + st.length) (w ++ r) = resume (depth + 1 + st'.length) r
  | [], st, st', h => by
    obtain rfl : st = st' := by simpa using h
    rfl
  | t :: w, st, st', h => by
    cases hk : t.kind with
    | opening pair =>
      rw [nest_opening hk] at h
      simp only [List.cons_append, resume, hk]
      exact resume_nest r h
    | closing pair =>
      obtain ⟨outer, rfl, ho⟩ := nest_closing_inv hk h
      have hlen : depth + 1 + (pair :: outer).length = depth + 1 + outer.length + 1 := by
        rw [List.length_cons]
        omega
      have hne : depth + 1 + outer.length ≠ 0 := by omega
      rw [← resume_nest r ho, hlen, List.cons_append, resume, hk]
      obtain ⟨n, hn⟩ := Nat.exists_eq_add_one_of_ne_zero hne
      simp only [hn]
    | _ =>
      rw [nest_plain (by rw [hk]; rfl)] at h
      rw [← resume_nest r h, List.cons_append, resume, hk]
      simp

/-- Reading resumes at the same piece: behind a whole block, or not inside one. -/
theorem resume_cursor : ∀ (ps : List (Piece e)) (depth : Nat), ∃ w qs, ps = w ++ qs ∧
    ∀ s, resume depth (e.cursor ps s).rest = (e.cursor qs s).rest := by
  intro ps
  induction ps with
  | nil => exact fun depth => ⟨[], [], rfl, fun _ => by simp [Edit.cursor, resume]⟩
  | cons p qs ih =>
    intro depth
    have hcons (n : Nat) (heq : ∀ s, resume depth (e.cursor (p :: qs) s).rest =
        resume n (e.cursor qs s).rest) : ∃ w rs, p :: qs = w ++ rs ∧
          ∀ s, resume depth (e.cursor (p :: qs) s).rest = (e.cursor rs s).rest := by
      obtain ⟨w, rs, hrs, h⟩ := ih n
      exact ⟨p :: w, rs, by rw [hrs]; rfl, fun s => (heq s).trans (h s)⟩
    have hbehind (heq : ∀ s, resume depth (e.cursor (p :: qs) s).rest = (e.cursor qs s).rest) :
        ∃ w rs, p :: qs = w ++ rs ∧
          ∀ s, resume depth (e.cursor (p :: qs) s).rest = (e.cursor rs s).rest :=
      ⟨[p], qs, rfl, heq⟩
    cases p with
    | block opener closer inner h =>
      have hinside (s : Side) : resume depth (e.cursor (.block opener closer inner h :: qs) s).rest =
          resume (depth + 1) (closer s :: (e.cursor qs s).rest) := by
        rw [Edit.rest_block, resume, h.opens s]
        exact resume_nest _ (h.neutral s)
      cases depth with
      | zero => exact hbehind fun s => by rw [hinside s, resume, h.closes s]; rfl
      | succ depth => exact hcons (depth + 1) fun s => by rw [hinside s, resume, h.closes s]; rfl
    | token t h =>
      have hkind (s : Side) : (t s).kind = (t .before).kind := h.kind s
      have hrest (s : Side) := e.rest_token qs s t h
      cases hk : (t .before).kind with
      | opening pair => exact hcons (depth + 1) fun s => by rw [hrest, resume, hkind, hk]
      | closing pair =>
        rcases depth with _ | _ | depth
        · exact hbehind fun s => by rw [hrest, resume, hkind, hk]
        · by_cases hp : pair = .brace
          · exact hbehind fun s => by rw [hrest, resume, hkind, hk]; simp only [hp, ↓reduceIte]
          · exact hcons 0 fun s => by rw [hrest, resume, hkind, hk]; simp only [hp, ↓reduceIte]
        · exact hcons (depth + 1) fun s => by rw [hrest, resume, hkind, hk]; rfl
      | semicolon =>
        by_cases hd : depth = 0
        · exact hbehind fun s => by rw [hrest, resume, hkind, hk]; simp only [hd, ↓reduceIte]
        · exact hcons depth fun s => by rw [hrest, resume, hkind, hk]; simp only [hd, ↓reduceIte]
      | _ =>
        by_cases hd : depth = 0 ∧ startsItem (t .before).kind
        · refine ⟨[], _, rfl, fun s => ?_⟩
          rw [hk] at hd
          rw [hrest, resume, hkind, hk]
          simp only [hd, and_self, ↓reduceIte]
        · refine hcons depth fun s => ?_
          rw [hk] at hd
          rw [hrest, resume, hkind, hk]
          simp only [hd, ↓reduceIte]

/-- A turn that fails behind the same pieces recovers at the same piece. -/
theorem turnInStep_recover {t : Side → Token} {ht : e.Twins t} {f : Side → ParseError}
    (hf : Keeps ParseError.kind f) (hps : .token t ht :: ps = w ++ qs) :
    TurnInStep (.token t ht :: ps) fun s =>
      Turn.recover (e.cursor (.token t ht :: ps) s) (f s) (e.cursor qs s) := by
  refine ⟨?_, .inl fun _ => rfl, fun s => congrArg some (hf s)⟩
  simp only [Turn.recover, Edit.length_eq_iff hps]
  cases w with
  | nil =>
    obtain rfl : .token t ht :: ps = qs := hps
    obtain ⟨w, rs, hrs, h⟩ := resume_cursor ps 0
    refine ⟨.token t ht :: w, rs, by rw [hrs]; rfl, fun s => ?_⟩
    have htail : (e.cursor (.token t ht :: ps) s).tail = e.cursor ps s := rfl
    rw [if_pos rfl, htail, h s]
    rfl
  | cons p w =>
    obtain ⟨v, rs, hrs, h⟩ := resume_cursor qs 0
    refine ⟨p :: w ++ v, rs, by rw [hps, hrs]; simp, fun s => ?_⟩
    rw [if_neg (by simp), h s]
    rfl

theorem turnInStep_ofReply {t : Side → Token} {ht : e.Twins t} {p : Side → Parse Item}
    (h : InStep e.Items p (.token t ht :: ps)) :
    TurnInStep (.token t ht :: ps) fun s =>
      .ofReply (e.cursor (.token t ht :: ps) s) (p s (e.cursor (.token t ht :: ps) s)) := by
  cases h with
  | @done a w qs hps ha h =>
    refine TurnInStep.of_eq ⟨⟨w, qs, hps, fun _ => rfl⟩, .inr ⟨a, ha, fun _ => rfl⟩, fun _ => rfl⟩
      (n := fun s => ⟨some (a s), none, e.cursor qs s⟩) fun s => by rw [h s]; rfl
  | failed hps hf h =>
    exact (turnInStep_recover hf hps).of_eq fun s => by rw [h s]; rfl

/-! ### Statements -/

/-- A statement ends behind the same piece, whatever bound each version sets. -/
theorem statementEndWithin_cursor : ∀ (m : Nat) {n : Side → Nat} {ps : List (Piece e)},
    ps.length ≤ m → (∀ s, ps.length ≤ n s) →
      ∃ (f : Side → Option ParseError) (w qs : List (Piece e)), ps = w ++ qs ∧
        Keeps (Option.map ParseError.kind) f ∧
        ∀ s, statementEndWithin (n s) (e.cursor ps s) = (f s, e.cursor qs s)
  | m, n, [], hm, hn =>
    ⟨fun _ => none, [], [], rfl, fun _ => rfl, fun s => by cases n s <;> rfl⟩
  | 0, n, p :: qs, hm, hn => by simp at hm
  | m + 1, n, p :: qs, hm, hn => by
    obtain ⟨k, rfl⟩ := exists_succ fun s => Nat.lt_of_lt_of_le (Nat.succ_pos _) (hn s)
    simp only [List.length_cons] at hm hn
    have hk (s : Side) : qs.length ≤ k s := by have := hn s; omega
    have hcons (s : Side) := e.rest_cons qs s p
    cases hp : p.kind with
    | opening pair =>
      have hopens (s : Side) : (p.first s).kind = .opening pair := (p.kind_first s).trans hp
      cases inStep_skipGroup (p :: qs) with
      | @failed f w rs hps hf h =>
        refine ⟨fun s => some (f s), w, rs, hps, fun s => congrArg some (hf s), fun s => ?_⟩
        obtain ⟨r, hr⟩ := hcons s
        simp only [statementEndWithin, hr, hopens s, h s]
      | @done a w rs hps _ h =>
        have hlt := length_lt_of_skipGroup hps (h .before)
        rw [List.length_cons] at hlt
        have hends (s : Side) : statementEndWithin (k s + 1) (e.cursor (p :: qs) s) =
            if pair = .brace ∧ continuationWords.all (fun word =>
                !(rs.head?.any fun p => p.kind == .identifier && p.lexeme == word)) then
              (none, e.cursor rs s)
            else statementEndWithin (k s) (e.cursor rs s) := by
          obtain ⟨r, hr⟩ := hcons s
          simp only [statementEndWithin, hr, hopens s, h s, Edit.isAtWord_cursor]
        by_cases hend : pair = .brace ∧ continuationWords.all fun word =>
            !(rs.head?.any fun p => p.kind == .identifier && p.lexeme == word)
        · exact ⟨fun _ => none, w, rs, hps, fun _ => rfl, fun s => by rw [hends s, if_pos hend]⟩
        · obtain ⟨f, v, ts, hts, hf, hmore⟩ := statementEndWithin_cursor m (n := k)
            (show rs.length ≤ m by omega) fun s => by have := hk s; omega
          exact ⟨f, w ++ v, ts, by rw [hps, hts, List.append_assoc], hf,
            fun s => by rw [hends s, if_neg hend, hmore s]⟩
    | closing pair =>
      obtain ⟨t, ht, rfl⟩ := Piece.eq_token (p := p) (by rw [hp]; simp)
      refine ⟨fun s => some ⟨.unexpectedCloser pair, (t s).span⟩, [_], qs, rfl, fun _ => rfl,
        fun s => ?_⟩
      have hkind := (Piece.kind_token t ht s).trans hp
      simp only [statementEndWithin, Edit.rest_token, hkind]
      rfl
    | semicolon =>
      obtain ⟨t, ht, rfl⟩ := Piece.eq_token (p := p) (by rw [hp]; simp)
      refine ⟨fun _ => none, [_], qs, rfl, fun _ => rfl, fun s => ?_⟩
      have hkind := (Piece.kind_token t ht s).trans hp
      simp only [statementEndWithin, Edit.rest_token, hkind]
      rfl
    | _ =>
      obtain ⟨t, ht, rfl⟩ := Piece.eq_token (p := p) (by rw [hp]; simp)
      obtain ⟨f, w, rs, hrs, hf, h⟩ := statementEndWithin_cursor m (n := k)
        (show qs.length ≤ m by omega) hk
      refine ⟨f, _ :: w, rs, by rw [hrs]; rfl, hf, fun s => ?_⟩
      have hkind := (Piece.kind_token t ht s).trans hp
      simp only [statementEndWithin, Edit.rest_token, hkind]
      exact h s

theorem Edit.items_of_statement {b : Side → Body} (h : e.BodyTwins b) :
    e.Items fun s => .statement (b s) where
  bare s := congrArg Item.statement (h.1 s)
  code b' hb := by
    obtain rfl : b = b' := funext fun s => Option.some.inj (hb s)
    exact h.2

/-- **Statements** are at the same place in both versions. -/
theorem turnInStep_statement (ps : List (Piece e)) :
    TurnInStep ps fun s => statement (e.cursor ps s) := by
  obtain ⟨f, w, qs, hps, hf, h⟩ := statementEndWithin_cursor ps.length
    (n := fun s => (e.cursor ps s).rest.length) (Nat.le_refl _) fun s => e.length_le ps s
  have hbody : e.BodyTwins fun s => (e.cursor ps s).bodySince .statement (e.cursor qs s) :=
    ⟨fun _ => rfl, e.bodies_bodySince .statement hps⟩
  refine TurnInStep.of_eq ⟨⟨w, qs, hps, fun _ => rfl⟩,
    .inr ⟨_, Edit.items_of_statement hbody, fun _ => rfl⟩, hf⟩
    (n := fun s => ⟨some (.statement ((e.cursor ps s).bodySince .statement (e.cursor qs s))), f s,
      e.cursor qs s⟩) fun s => by simp only [statement, h s]

/-! ### Directives -/

/-- The piece is a token on the line of `sharp` in both versions, or behind that line in both. -/
def Piece.Level (sharp : Side → Token) (p : Piece e) : Prop :=
  (∃ t ht, p = .token t ht ∧ ∀ s, (t s).start.line = (sharp s).start.line) ∨
    ∀ s, (p.first s).start.line ≠ (sharp s).start.line

/-- The rest of a line is the same pieces. -/
theorem dropWhile_line {sharp : Side → Token} : ∀ {ps : List (Piece e)}, (∀ p ∈ ps, p.Level sharp) →
    ∃ w qs, ps = w ++ qs ∧ ∀ s, (e.cursor ps s).goto
      ((e.cursor ps s).rest.dropWhile fun t => t.start.line == (sharp s).start.line) = e.cursor qs s
  | [], _ => ⟨[], [], rfl, fun _ => rfl⟩
  | p :: ps, h => by
    rcases h p List.mem_cons_self with ⟨t, ht, rfl, hline⟩ | hline
    · obtain ⟨w, qs, hqs, hmore⟩ := dropWhile_line fun p hp => h p (List.mem_cons_of_mem _ hp)
      refine ⟨.token t ht :: w, qs, by rw [hqs]; rfl, fun s => ?_⟩
      rw [Edit.rest_token, List.dropWhile_cons, hline s, if_pos (beq_self_eq_true _)]
      exact hmore s
    · refine ⟨[], p :: ps, rfl, fun s => ?_⟩
      obtain ⟨r, hr⟩ := e.rest_cons ps s p
      rw [hr, List.dropWhile_cons, if_neg (by simpa using hline s), ← hr]
      rfl

theorem inStep_reference (declared : Bool) (start : Side → Cursor) (ps : List (Piece e)) :
    InStep e.Items (fun s => reference declared (start s)) ps := by
  refine (inStep_expect (by simp) ps).bind fun literal _ qs _ hliteral _ => .here_bind ?_
  refine .ite (fun _ => ?_) fun _ => ?_
  · exact .failed (f := fun s => ⟨.misplacedReference, (start s).spanSince (e.cursor qs s)⟩)
      (List.nil_append qs).symm (fun _ => rfl) fun _ => rfl
  · refine .pure (Edit.items_of_bare (fun s => ?_) rfl)
    simp only [Item.bare, hliteral s]

/-- A turn that ends with the line of a `#`. -/
theorem turnInStep_line {sharp : Side → Token} {hsharp : e.Twins sharp}
    (hline : ∀ p ∈ ps, p.Level sharp) (hqs : ps = w ++ qs) {a : Side → Option Item}
    (hitem : e.MayItem a) {f : Side → Option ParseError}
    (herror : Keeps (Option.map ParseError.kind) f) {now : Side → Turn}
    (hnow : ∀ s, now s = ⟨a s, f s, (e.cursor qs s).goto
      ((e.cursor qs s).rest.dropWhile fun t => t.start.line == (sharp s).start.line)⟩) :
    TurnInStep (.token sharp hsharp :: ps) now := by
  obtain ⟨v, rs, hrs, h⟩ : ∃ v rs, qs = v ++ rs ∧ ∀ s, (e.cursor qs s).goto
      ((e.cursor qs s).rest.dropWhile fun t => t.start.line == (sharp s).start.line) =
        e.cursor rs s :=
    dropWhile_line fun p hp => hline p (by rw [hqs]; exact List.mem_append_right _ hp)
  refine TurnInStep.of_eq ⟨⟨.token sharp hsharp :: w ++ v, rs, by rw [hqs, hrs]; simp,
    fun _ => rfl⟩, hitem, herror⟩ (n := fun s => ⟨a s, f s, e.cursor rs s⟩) fun s => ?_
  rw [hnow s, h s]

/-- The turn of what a directive with the hash `sharp` was read as; it takes the rest of its line. -/
def turnOfLine (sharp : Token) (reply : Reply Item) : Turn :=
  match reply with
  | .done item d =>
    ⟨some item, none, d.goto (d.rest.dropWhile fun t => t.start.line == sharp.start.line)⟩
  | .failed error d =>
    ⟨none, some error, d.goto (d.rest.dropWhile fun t => t.start.line == sharp.start.line)⟩

/-- **Directives** are in step where the lines of both versions break at the same pieces. -/
theorem turnInStep_directive (declared : Bool) {sharp : Side → Token} {hsharp : e.Twins sharp}
    (hline : ∀ p ∈ ps, p.Level sharp) :
    TurnInStep (.token sharp hsharp :: ps) fun s =>
      directive declared (e.cursor (.token sharp hsharp :: ps) s) (sharp s) (e.cursor ps s).rest := by
  have hnone : e.MayItem fun _ => none := .inl fun _ => rfl
  cases ps with
  | nil =>
    exact ⟨⟨[_], [], rfl, fun _ => rfl⟩, hnone, fun _ => rfl⟩
  | cons p qs =>
    have hlevel := hline p List.mem_cons_self
    have hcons (s : Side) := e.rest_cons qs s p
    have hname : (∀ s, ¬ (p.kind = .identifier ∧ (p.first s).start.line = (sharp s).start.line)) ∨
        ∃ t ht, p = .token t ht ∧ (t .before).kind = .identifier ∧
          ∀ s, (t s).start.line = (sharp s).start.line := by
      rcases hlevel with ⟨t, ht, rfl, hl⟩ | hl
      · by_cases hk : (t .before).kind = .identifier
        · exact .inr ⟨t, ht, rfl, hk, hl⟩
        · exact .inl fun s h => hk h.1
      · exact .inl fun s h => hl s h.2
    rcases hname with hno | ⟨t, ht, rfl, hk, hl⟩
    · refine turnInStep_line (w := []) hline rfl hnone
        (f := fun s => some ⟨.directiveWithoutName, (sharp s).span⟩) (fun _ => rfl) fun s => ?_
      obtain ⟨r, hr⟩ := hcons s
      have hno := hno s
      rw [← p.kind_first s] at hno
      simp only [directive, hr, hno, ↓reduceIte]
      rw [← hr]
      rfl
    have hkind (s : Side) : (t s).kind = .identifier := (ht.kind s).trans hk
    have hlexeme (s : Side) : (t s).lexeme = (t .before).lexeme := ht.lexeme s
    by_cases hr : (t .before).lexeme = "r"
    · have hreference (s : Side) : directive declared
          (e.cursor (.token sharp hsharp :: .token t ht :: qs) s) (sharp s)
          (e.cursor (.token t ht :: qs) s).rest =
            turnOfLine (sharp s) (reference declared
              (e.cursor (.token sharp hsharp :: .token t ht :: qs) s) (e.cursor qs s)) := by
        simp only [directive, Edit.rest_token, hkind, hl, hlexeme, hr, and_self, ↓reduceIte]
        rfl
      cases inStep_reference declared
          (e.cursor (.token sharp hsharp :: .token t ht :: qs)) qs with
      | @done a w rs hrs ha h =>
        have hall : .token t ht :: qs = (.token t ht :: w) ++ rs := by rw [hrs]; rfl
        exact turnInStep_line hline hall (a := fun s => some (a s)) (.inr ⟨a, ha, fun _ => rfl⟩)
          (f := fun _ => none) (fun _ => rfl) fun s => by rw [hreference s, h s, turnOfLine]
      | @failed f w rs hrs hf h =>
        have hall : .token t ht :: qs = (.token t ht :: w) ++ rs := by rw [hrs]; rfl
        exact turnInStep_line hline hall hnone
          (f := fun s => some (f s)) (fun s => congrArg some (hf s))
          fun s => by rw [hreference s, h s, turnOfLine]
    · by_cases hi : ignoredDirectives.contains (t .before).lexeme
      · refine turnInStep_line (w := []) hline rfl hnone (f := fun _ => none) (fun _ => rfl) fun s => ?_
        simp only [directive, Edit.rest_token, hkind, hl, hlexeme, hr, hi, and_self, ↓reduceIte]
        rfl
      · refine turnInStep_line (w := []) hline rfl hnone
          (f := fun s => some ⟨.unsupportedDirective (t .before).lexeme, (t s).span⟩)
          (fun _ => rfl) fun s => ?_
        simp only [directive, Edit.rest_token, hkind, hl, hlexeme, hr, hi, and_self, ↓reduceIte]
        rfl

/-! ### Declarations -/

theorem inStep_modifiers (ps : List (Piece e)) :
    InStep (fun a => ∃ m, a = fun _ => m) (fun _ => Parse.modifiers) ps :=
  (inStep_takeKinds rfl ps).bind fun kinds _ _ _ hkinds _ => by
    obtain ⟨kinds, rfl⟩ := hkinds
    exact .pure (a := fun _ => Modifiers.ofKinds kinds) ⟨_, rfl⟩

/-- **Declarations**, or the statements that stand there instead. -/
theorem turnInStep_declaration {t : Side → Token} {ht : e.Twins t} (ps : List (Piece e)) :
    TurnInStep (.token t ht :: ps) fun s =>
      declaration (t s) (e.cursor (.token t ht :: ps) s) := by
  unfold declaration
  cases inStep_skipAttributes (.token t ht :: ps) with
  | failed hps hf h => exact (turnInStep_recover hf hps).of_eq fun s => by rw [h s]
  | @done u w qs hps _ hattributes =>
    simp only [hattributes]
    cases inStep_modifiers qs with
    | @failed f v rs hqs hf h =>
      have hall : .token t ht :: ps = (w ++ v) ++ rs := by rw [hps, hqs, List.append_assoc]
      exact (turnInStep_recover hf hall).of_eq fun s => by rw [h s]
    | @done m v rs hqs hm hmodifiers =>
      obtain ⟨m, rfl⟩ := hm
      have hall : .token t ht :: ps = (w ++ v) ++ rs := by rw [hps, hqs, List.append_assoc]
      simp only [hmodifiers, Edit.kind?_cursor]
      by_cases hword : (rs.head?.map Piece.kind).any TokenKind.isTypeWord
      · have hdecl : InStep e.Items (fun s => .typeDecl <$> Parse.typeDecl (e.cursor qs s) m) rs :=
          (inStep_typeDecl (e.cursor qs) m hword).map fun d hd =>
            Edit.items_of_bare (fun s => congrArg Item.typeDecl (hd s)) rfl
        have hturn := turnInStep_ofReply (p := fun s _ => (Item.typeDecl <$>
          Parse.typeDecl (e.cursor qs s) m) (e.cursor rs s)) (hdecl.behind hall fun _ => rfl)
        exact hturn.of_eq fun s => by rw [if_pos hword]
      simp only [hword, Bool.false_eq_true, ↓reduceIte]
      cases inStep_member? (e.cursor qs) m rs with
      | @failed f x ts hts hf h =>
        have hend : .token t ht :: ps = (w ++ v ++ x) ++ ts := by rw [hall, hts, List.append_assoc _ x]
        exact (turnInStep_recover hf hend).of_eq fun s => by rw [h s]
      | @done item? x ts hts hitem h =>
        simp only [h]
        rcases hitem with hnone | ⟨item, hitem, hsome⟩
        · simp only [hnone, Edit.length_eq_iff hps, Edit.length_eq_iff hall, ht.lexeme]
          by_cases hst : w = [] ∧ (w ++ v = [] ∨ (t .before).lexeme = "new")
          · exact (turnInStep_statement _).of_eq fun s => by rw [if_pos hst]
          · have hrecover := turnInStep_recover (f := fun s =>
              ⟨.expectedDeclaration (rs.head?.map Piece.kind), (e.cursor rs s).span⟩)
              (fun _ => rfl) hall
            exact hrecover.of_eq fun s => by rw [if_neg hst]
        · simp only [hsome]
          exact ⟨⟨w ++ v ++ x, ts, by rw [hall, hts, List.append_assoc _ x], fun _ => rfl⟩,
            .inr ⟨item, hitem, fun _ => rfl⟩, fun _ => rfl⟩

/-! ### Any turn -/

/-- Whether a word in front of these pieces is the one of a directive, and not of a statement. -/
def Piece.opensUsing (p : Piece e) (qs : List (Piece e)) : Bool :=
  match p.kind with
  | .staticWord => true
  | .identifier => p.lexeme != "var" && (qs.head?.map Piece.kind) != some .identifier
  | _ => false

/-- What the first tokens say about a `using` is the same in both versions. -/
theorem isUsingDirective_cursor {t : Side → Token} (ht : e.Twins t) (ps : List (Piece e)) (s : Side) :
    isUsingDirective (e.cursor (.token t ht :: ps) s) =
      isUsingDirective (e.cursor (.token t ht :: ps) .before) := by
  cases ps with
  | nil => rfl
  | cons p qs =>
    have heq (s : Side) :
        isUsingDirective (e.cursor (.token t ht :: p :: qs) s) = p.opensUsing qs := by
      obtain ⟨r, hr⟩ := e.rest_cons qs s p
      simp only [isUsingDirective, Piece.opensUsing, Edit.rest_token, hr, p.kind_first,
        p.lexeme_first]
      cases hk : p.kind with
      | identifier =>
        obtain ⟨u, hu, rfl⟩ := Piece.eq_token (p := p) (by rw [hk]; simp)
        obtain ⟨-, rfl⟩ := List.cons.inj ((e.rest_token qs s u hu).symm.trans hr)
        have hnext := e.kind?_cursor qs s
        rw [Cursor.kind?] at hnext
        simp only [hnext]
      | _ => rfl
    rw [heq s, heq .before]

/-- **A turn is in step**: on both versions it takes the same pieces and gives the same item up
to places, if the lines break at the same pieces behind a `#`. -/
theorem turnInStep_turn (declared : Bool)
    (hline : ∀ sharp h qs, ps = .token sharp h :: qs → (sharp .before).kind = .hash →
      ∀ p ∈ qs, p.Level sharp) :
    TurnInStep ps fun s => turn declared (e.cursor ps s) := by
  cases ps with
  | nil => exact ⟨⟨[], [], rfl, fun _ => rfl⟩, .inl fun _ => rfl, fun _ => rfl⟩
  | cons p qs =>
    cases p with
    | block opener closer inner h =>
      refine (turnInStep_statement _).of_eq fun s => ?_
      have hno : mayDeclare (opener s) = false := by
        simp [mayDeclare, h.opens s, TokenKind.isModifier, TokenKind.isTypeWord]
      simp only [turn, Edit.rest_block, h.opens s, hno, Bool.false_eq_true, ↓reduceIte]
    | token t ht =>
      have hkind (s : Side) : (t s).kind = (t .before).kind := ht.kind s
      have hmay (s : Side) : mayDeclare (t s) = mayDeclare (t .before) := by
        rw [mayDeclare, hkind s, ht.lexeme s, mayDeclare]
      have hrest (s : Side) := e.rest_token qs s t ht
      by_cases hsemicolon : (t .before).kind = .semicolon
      · refine TurnInStep.of_eq ⟨⟨[_], qs, rfl, fun _ => rfl⟩, .inl fun _ => rfl, fun _ => rfl⟩
          (n := fun s => ⟨none, none, e.cursor qs s⟩) fun s => ?_
        simp only [turn, hrest, hkind, hsemicolon]
        rfl
      by_cases hhash : (t .before).kind = .hash
      · refine (turnInStep_directive declared (hline t ht qs rfl hhash)).of_eq fun s => ?_
        simp only [turn, hrest, hkind, hhash]
      by_cases hword : (t .before).kind = .usingWord
      · have hturn (s : Side) : turn declared (e.cursor (.token t ht :: qs) s) =
            if isUsingDirective (e.cursor (.token t ht :: qs) .before) then
              .ofReply (e.cursor (.token t ht :: qs) s)
                ((.usingDirective <$> Parse.usingDirective) (e.cursor (.token t ht :: qs) s))
            else statement (e.cursor (.token t ht :: qs) s) := by
          simp only [turn, hrest, hkind, hword, isUsingDirective_cursor ht qs s]
        have hdecl : InStep e.Items (fun _ => .usingDirective <$> Parse.usingDirective)
            (.token t ht :: qs) :=
          (inStep_usingDirective _).map fun d hd =>
            Edit.items_of_bare (fun s => congrArg Item.usingDirective (hd s)) rfl
        by_cases hd : isUsingDirective (e.cursor (.token t ht :: qs) .before)
        · exact (turnInStep_ofReply hdecl).of_eq fun s => by rw [hturn s, if_pos hd]
        · exact (turnInStep_statement _).of_eq fun s => by rw [hturn s, if_neg hd]
      · have hturn (s : Side) : turn declared (e.cursor (.token t ht :: qs) s) =
            if mayDeclare (t .before) then declaration (t s) (e.cursor (.token t ht :: qs) s)
            else statement (e.cursor (.token t ht :: qs) s) := by
          simp only [turn, hrest, hkind, hmay]
        by_cases hd : mayDeclare (t .before)
        · exact (turnInStep_declaration qs).of_eq fun s => by rw [hturn s, if_pos hd]
        · exact (turnInStep_statement _).of_eq fun s => by rw [hturn s, if_neg hd]

/-! ### Runs of turns -/

/-- A run of turns ends at some of the tokens it was given. -/
theorem Turns.suffix {declared after : Bool} {c d : Cursor} {items : List Item}
    {errors : List ParseError} (h : Turns declared c after d items errors) :
    ∃ w, c.rest = w ++ d.rest := by
  induction h with
  | stay declared c => exact ⟨[], rfl⟩
  | @turn declared after c d t r items errors hr more ih =>
    obtain ⟨v, -, hv, -⟩ := turn_before declared hr
    obtain ⟨w, hw⟩ := ih
    exact ⟨v ++ w, by rw [hv, hw, List.append_assoc]⟩

/-- The items of a turn in step, on each side. -/
theorem Edit.MayItem.toList {a : Side → Option Item} (h : e.MayItem a) :
    ∃ items : List (Side → Item), (∀ item ∈ items, e.Items item) ∧
      ∀ s, (a s).toList = items.map (· s) := by
  rcases h with h | ⟨item, hitem, h⟩
  · exact ⟨[], by simp, fun s => by rw [h s]; rfl⟩
  · exact ⟨[item], by simpa using hitem, fun s => by rw [h s]; rfl⟩

/-- The problem of a turn in step, on each side. -/
theorem Keeps.toList {f : Side → Option ParseError} (h : Keeps (Option.map ParseError.kind) f) :
    ∃ errors : List (Side → ParseError), (∀ g ∈ errors, Keeps ParseError.kind g) ∧
      ∀ s, (f s).toList = errors.map (· s) := by
  cases hf : f .before with
  | none =>
    refine ⟨[], by simp, fun s => ?_⟩
    have hs := h s
    rw [hf, Option.map_none, Option.map_eq_none_iff] at hs
    rw [hs]
    rfl
  | some g =>
    have hsome (s : Side) : ∃ g, f s = some g := by
      have hs := h s
      rw [hf, Option.map_some] at hs
      obtain ⟨g, hg, -⟩ := Option.map_eq_some_iff.mp hs
      exact ⟨g, hg⟩
    refine ⟨[fun s => (f s).getD g], ?_, fun s => ?_⟩
    · intro g' hg'
      obtain rfl := List.mem_singleton.mp hg'
      intro s
      obtain ⟨g1, h1⟩ := hsome s
      have hs := h s
      simpa [h1, hf] using hs
    · obtain ⟨g1, h1⟩ := hsome s
      simp only [List.map_cons, List.map_nil, h1]
      rfl

/-- **Runs of turns are in step**, by induction on the run of the first version, if behind each
`#` in front of the end of the run the lines of both versions break at the same pieces. -/
theorem Turns.inStep {declared after : Bool} {c d : Cursor} {its : List Item}
    {errs : List ParseError} (h : Turns declared c after d its errs) :
    ∀ {ps : List (Piece e)}, c = e.cursor ps .before →
      (∀ declared' w sharp hs qs v, ps = w ++ .token sharp hs :: qs → (sharp .before).kind = .hash →
        (ScriptHost.turn declared' (e.cursor (.token sharp hs :: qs) .before)).next.rest = v ++ d.rest →
          ∀ p ∈ qs, p.Level sharp) →
        ∃ (items : List (Side → Item)) (errors : List (Side → ParseError)) (w es : List (Piece e)),
          ps = w ++ es ∧ d = e.cursor es .before ∧ (∀ a ∈ items, e.Items a) ∧
          (∀ f ∈ errors, Keeps ParseError.kind f) ∧ its = items.map (· .before) ∧
          errs = errors.map (· .before) ∧
          Turns declared (e.cursor ps .after) after (e.cursor es .after) (items.map (· .after))
            (errors.map (· .after)) := by
  induction h with
  | stay declared c =>
    rintro ps rfl -
    exact ⟨[], [], [], ps, rfl, rfl, by simp, by simp, rfl, rfl, .stay _ _⟩
  | @turn declared after c d t r its errs hr more ih =>
    rintro ps rfl hline
    have hturn : TurnInStep ps fun s => ScriptHost.turn declared (e.cursor ps s) := by
      refine turnInStep_turn declared fun sharp hs qs hps hk => ?_
      obtain ⟨v, hv⟩ := more.suffix
      subst hps
      exact hline declared [] sharp hs qs v rfl hk hv
    obtain ⟨⟨w, qs, hps, hnext⟩, hitem, herror⟩ := hturn
    obtain ⟨now, hnow, hnowlist⟩ := hitem.toList
    obtain ⟨nowErrors, hnowErrors, herrorlist⟩ := herror.toList
    obtain ⟨items, errors, v, es, hqs, hd, hitems, herrors, hits, herrs, hmore⟩ :=
      ih (hnext .before) fun declared' v sharp hs ts x hts => by
        refine hline declared' (w ++ v) sharp hs ts x ?_
        rw [hps, hts, List.append_assoc]
    refine ⟨now ++ items, nowErrors ++ errors, w ++ v, es, by rw [hps, hqs, List.append_assoc], hd,
      ?_, ?_, ?_, ?_, ?_⟩
    · exact fun a ha => (List.mem_append.mp ha).elim (hnow a) (hitems a)
    · exact fun f hf => (List.mem_append.mp hf).elim (hnowErrors f) (herrors f)
    · rw [List.map_append, ← hits, hnowlist .before]
    · rw [List.map_append, ← herrs, herrorlist .before]
    · obtain ⟨u, r', hr', hkind⟩ := e.exists_cons ps .before hr .after
      rw [List.map_append, List.map_append, ← hnowlist .after, ← herrorlist .after]
      refine .turn hr' ?_
      rw [hkind, show (ScriptHost.turn declared (e.cursor ps .after)).next = _ from hnext .after]
      exact hmore

end ScriptHost
