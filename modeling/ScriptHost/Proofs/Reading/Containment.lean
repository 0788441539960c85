/-
# A `;` outside all brackets contains what goes wrong

Whatever is wrong in front of a `;` outside all brackets, reading comes to stand just behind
it: a turn that starts in front of it is the same as if the source ended there. For a problem
this needs that the search for the next item counts at most as many open brackets as there
are, and for a directive that the tokens behind the `;` start on later lines. So a source is
read in two parts, one after the other.

Key definitions: `Continued.ontoTurn`, `Continued.BreaksLine`.
Key theorems: `resume_append`, `turn_whole`, `turns_whole`,
`Script.parseLenient_contained`.
-/
import ScriptHost.Proofs.Reading.LocalItems
import ScriptHost.Proofs.Token.Tiling

namespace ScriptHost

open Parse Source

variable {k : Continued} {st : List Delimiter} {s w d r : List Token} {t : Token}

/-- A turn where the source goes on. -/
def Continued.ontoTurn (k : Continued) (turn : Turn) : Turn :=
  ⟨turn.item?, turn.error?, k.whole turn.next.rest⟩

@[simp] theorem Continued.rest_part (k : Continued) (s : List Token) : (k.part s).rest = s := rfl

theorem Continued.onto_done {α : Type} (k : Continued) (a : α) (s : List Token) :
    k.onto (.done a (k.part s)) = .done a (k.whole s) := rfl

/-- What is left at two places is as long, wherever the source ends. -/
theorem Continued.length_eq_whole (k : Continued) (s r : List Token) :
    (k.whole s).rest.length = (k.whole r).rest.length ↔
      (k.part s).rest.length = (k.part r).rest.length := by
  simp only [Continued.whole, Continued.part, List.length_append]
  omega

/-! ### Recovery -/

/-- **The search for the next item does not pass the last `;`**, by induction on the tokens:
it counts at most as many open brackets as there are. -/
theorem resume_append (more : List Token) : ∀ {s : List Token} {st : List Delimiter} {depth : Nat},
    Inside st s → depth ≤ st.length → resume depth (s ++ more) = resume depth s ++ more
  | [], st, depth, hs, hd => absurd rfl hs.ne_nil
  | t :: r, st, depth, hs, hd => by
    have hplain (hb : t.kind.isBracket = false) (hk : t.kind ≠ .semicolon ∨ depth ≠ 0) :
        resume depth (r ++ more) = resume depth r ++ more := by
      have hr : r ≠ [] := hs.tail_ne_nil <| hk.imp id fun h0 hst => by
        rw [hst, List.length_nil] at hd
        omega
      exact resume_append more (hs.plain hb hr) hd
    cases hk : t.kind with
    | opening pair =>
      have hr := hs.opening hk
      have hdepth : depth + 1 ≤ (pair :: st).length := Nat.succ_le_succ hd
      have ih := resume_append more hr hdepth
      simpa only [List.cons_append, resume, hk] using ih
    | closing pair =>
      obtain ⟨outer, rfl, hr⟩ := hs.closing hk
      rw [List.length_cons] at hd
      match depth, hd with
      | 0, _ => simp only [List.cons_append, resume, hk]
      | 1, _ =>
        simp only [List.cons_append, resume, hk]
        split
        · rfl
        · exact resume_append more hr (Nat.zero_le _)
      | n + 2, hd =>
        simp only [List.cons_append, resume, hk]
        exact resume_append more hr (by omega)
    | semicolon =>
      simp only [List.cons_append, resume, hk]
      split
      · rfl
      · next h0 => exact hplain (by rw [hk]; rfl) (.inr h0)
    | _ =>
      simp only [List.cons_append, resume, hk]
      split
      · rfl
      · exact hplain (by rw [hk]; rfl) (.inl (by rw [hk]; simp))

/-- Recovery after a problem in front of the last `;`. -/
theorem recover_whole {d : Cursor} (e : ParseError) (hs : Inside st (t :: r))
    (ht : t.kind ≠ .semicolon) (hw : t :: r = w ++ d.rest) (hd : d.rest ≠ []) :
    Turn.recover (k.whole (t :: r)) e (k.whole d.rest) =
      k.ontoTurn (Turn.recover (k.part (t :: r)) e d) := by
  have hsearch {q v : List Token} (hq : t :: r = v ++ q) (hne : q ≠ []) :
      resume 0 (q ++ k.more) = resume 0 q ++ k.more := by
    rw [hq] at hs
    obtain ⟨st', hi⟩ := hs.of_append hne
    exact resume_append k.more hi (Nat.zero_le _)
  have hlen : (k.whole d.rest).rest.length = (k.whole (t :: r)).rest.length ↔
      d.rest.length = (k.part (t :: r)).rest.length := k.length_eq_whole d.rest (t :: r)
  unfold Turn.recover
  by_cases h : d.rest.length = (k.part (t :: r)).rest.length
  · have hnil : w = [] := by
      have hl := congrArg List.length hw
      rw [List.length_append] at hl
      rw [Continued.rest_part] at h
      exact List.length_eq_zero_iff.mp (by omega)
    have hdr : d.rest = t :: r := by rw [hw, hnil, List.nil_append]
    have hr : r ≠ [] := hs.tail_ne_nil (.inl ht)
    have hq := hsearch (v := [t]) rfl hr
    rw [if_pos h, if_pos (hlen.mpr h)]
    simp only [Cursor.tail, Cursor.goto, Continued.whole, Continued.ontoTurn, List.cons_append,
      List.tail_cons, hq, hdr]
  · have hq := hsearch hw hd
    rw [if_neg h, if_neg (mt hlen.mp h)]
    simp only [Cursor.goto, Continued.whole, Continued.ontoTurn, hq]

/-- The turn of a reader that ends with the last `;` at the latest. -/
theorem ofReply_whole {p q : Parse Item} (hs : Inside st (t :: r)) (ht : t.kind ≠ .semicolon)
    (hw : t :: r = w ++ d) (h : Ends k d p q) (hr : Leaves (k.part d) (q (k.part d))) :
    Turn.ofReply (k.whole (t :: r)) (p (k.whole d)) =
      k.ontoTurn (Turn.ofReply (k.part (t :: r)) (q (k.part d))) := by
  rw [h.same]
  obtain ⟨v, hv, -, -⟩ := hr
  cases hq : q (k.part d) with
  | done item e => rfl
  | failed err e =>
    rw [hq] at hv
    have hve : t :: r = (w ++ v) ++ e.rest := by
      rw [hw, List.append_assoc]
      exact congrArg _ hv
    exact recover_whole err hs ht hve (h.inside _ _ hq)

/-! ### Statements -/

theorem statementEndWithin_whole : ∀ {n m : Nat} {s : List Token} {st : List Delimiter},
    Inside st s → s.length ≤ n → s.length ≤ m →
      statementEndWithin n (k.whole s) =
        ((statementEndWithin m (k.part s)).1, k.whole (statementEndWithin m (k.part s)).2.rest)
  | 0, m, s, st, hs, hn, hm => absurd (List.length_eq_zero_iff.mp (by omega)) hs.ne_nil
  | n + 1, 0, s, st, hs, hn, hm => absurd (List.length_eq_zero_iff.mp (by omega)) hs.ne_nil
  | n + 1, m + 1, s, st, hs, hn, hm => by
    obtain ⟨t, r, rfl⟩ := hs.cons_eq
    rw [List.length_cons] at hn hm
    have hplain (hb : t.kind.isBracket = false) (hk : t.kind ≠ .semicolon) :
        statementEndWithin n (k.whole r) =
          ((statementEndWithin m (k.part r)).1, k.whole (statementEndWithin m (k.part r)).2.rest) :=
      statementEndWithin_whole (hs.tail rfl hb hk) (by omega) (by omega)
    have hgoto (c : Cursor) (q : List Token) : c.goto q = ⟨q, c.finish⟩ := rfl
    cases hk : t.kind with
    | semicolon =>
      simp only [statementEndWithin, Continued.whole, Continued.part, List.cons_append, hk, hgoto]
    | closing pair =>
      simp only [statementEndWithin, Continued.whole, Continued.part, List.cons_append, hk, hgoto]
    | opening pair =>
      have hgroup := stays_skipGroup (k := k) hs
      have hsame := hgroup.same
      simp only [statementEndWithin, Continued.whole, Continued.part, List.cons_append, hk] at hsame ⊢
      cases hg : skipGroup (k.part (t :: r)) with
      | failed e q =>
        simp only [Continued.part] at hg
        rw [hg] at hsame ⊢
        rw [hsame]
        rfl
      | done a q =>
        obtain ⟨v, hv, hq, hi⟩ := hgroup.inside_done reads_skipGroup hs hg
        have hlt : q.rest.length < (t :: r).length := takes_skipGroup _ _ _ hg
        rw [List.length_cons] at hlt
        have hmore := statementEndWithin_whole (n := n) (m := m) hi (by omega) (by omega)
        simp only [Continued.part] at hg
        rw [hg] at hsame ⊢
        rw [hsame]
        simp only [Continued.onto, k.isAtWord_whole hi.ne_nil]
        rw [← hq]
        split
        · rfl
        · rw [hmore, ← hq]
          rfl
    | _ =>
      have hrest := hplain (by rw [hk]; rfl) (by rw [hk]; simp)
      simpa only [statementEndWithin, Continued.whole, Continued.part, List.cons_append, hk, hgoto]
        using hrest

/-- A statement ends with the last `;` at the latest. -/
theorem statement_whole (hs : Inside st s) :
    statement (k.whole s) = k.ontoTurn (statement (k.part s)) := by
  have hend := statementEndWithin_whole (k := k) (n := (k.whole s).rest.length)
    (m := (k.part s).rest.length) hs (by simp [Continued.whole]) (Nat.le_refl _)
  obtain ⟨v, -, hf⟩ := suffix_statementEndWithin (k.part s).rest.length (k.part s)
  unfold statement
  rw [hend]
  generalize statementEndWithin (k.part s).rest.length (k.part s) = out at hf
  obtain ⟨error?, rest, finish⟩ := out
  obtain rfl : finish = k.stop := hf
  simp only [Continued.ontoTurn, k.bodySince_whole hs.ne_nil]
  rfl

/-! ### Directives -/

/-- The tokens behind the last `;` start on later lines. -/
def Continued.BreaksLine (k : Continued) (s : List Token) : Prop :=
  ∀ t ∈ s, ∀ u ∈ k.more, t.start.line < u.start.line

theorem Continued.BreaksLine.of_append (h : k.BreaksLine (w ++ s)) : k.BreaksLine s :=
  fun t ht => h t (List.mem_append_right w ht)

/-- The rest of a line does not reach the tokens behind the last `;`. -/
theorem skipLine_append (more : List Token) {line : Nat}
    (h : ∀ u ∈ more, line < u.start.line) (s : List Token) :
    (s ++ more).dropWhile (fun t => t.start.line == line) =
      s.dropWhile (fun t => t.start.line == line) ++ more := by
  have hmore : more.dropWhile (fun t => t.start.line == line) = more := by
    cases more with
    | nil => rfl
    | cons u more =>
      have hu : line < u.start.line := h u (by simp)
      rw [List.dropWhile_cons_of_neg]
      simp only [beq_iff_eq]
      omega
  rw [List.dropWhile_append]
  split
  · next hs => rw [hmore, List.isEmpty_iff.mp hs, List.nil_append]
  · rfl

theorem ends_reference (hs : Inside st d) (hs0 : s ≠ []) (declared : Bool) :
    Ends k d (reference declared (k.whole s)) (reference declared (k.part s)) := by
  have hliteral := stays_expect (k := k) hs (show TokenKind.stringLiteral ≠ .semicolon by simp)
  refine hliteral.bind_ends (reads_expect rfl) hs fun literal r hr _ => ?_
  refine .here_bind ?_
  rw [k.spanSince_whole hs0]
  refine .ite (fun _ => ⟨rfl, fun e q hq => ?_⟩) fun _ => .pure _
  cases hq
  exact hr.ne_nil

/-- A directive owns at most the lines up to the last `;`. -/
theorem directive_whole (declared : Bool) (hs : Inside st (t :: r)) (ht : t.kind = .hash)
    (hl : k.BreaksLine (t :: r)) :
    directive declared (k.whole (t :: r)) t (r ++ k.more) =
      k.ontoTurn (directive declared (k.part (t :: r)) t r) := by
  have hline (q : List Token) := skipLine_append k.more (hl t (by simp)) q
  have hskip (q : List Token) :
      (k.whole q).goto ((k.whole q).rest.dropWhile fun u => u.start.line == t.start.line) =
        k.whole (((k.part q).goto
          ((k.part q).rest.dropWhile fun u => u.start.line == t.start.line)).rest) := by
    simp only [Continued.whole, Continued.part, Cursor.goto, hline]
  have hin : Inside st r := hs.tail ht rfl (by simp)
  obtain ⟨name, r', rfl⟩ := hin.cons_eq
  have hhash : (k.whole (t :: name :: r')).goto (name :: r' ++ k.more) = k.whole (name :: r') := rfl
  unfold directive
  simp only [List.cons_append] at hhash ⊢
  by_cases hname : name.kind = .identifier ∧ name.start.line = t.start.line
  · rw [if_pos hname, if_pos hname]
    by_cases hword : name.lexeme = "r"
    · rw [if_pos hword, if_pos hword]
      have hin' : Inside st r' := hin.tail hname.1 rfl (by simp)
      have hread := ends_reference (k := k) hin' hs.ne_nil declared
      have hsame := hread.same
      have hgoto : (k.whole (t :: name :: r')).goto (r' ++ k.more) = k.whole r' := rfl
      have hgoto' : (k.part (t :: name :: r')).goto r' = k.part r' := rfl
      have hreads := reads_reference declared (k.part (t :: name :: r')) (k.part r')
      rw [hgoto, hgoto', hsame]
      obtain ⟨v, -, hf, -⟩ := hreads
      cases hq : reference declared (k.part (t :: name :: r')) (k.part r') with
      | done item q =>
        rw [hq] at hf
        simp only [Continued.onto, Continued.ontoTurn, hskip]
        rfl
      | failed e q =>
        rw [hq] at hf
        simp only [Continued.onto, Continued.ontoTurn, hskip]
        rfl
    · rw [if_neg hword, if_neg hword, hhash]
      split
      · simp only [Continued.ontoTurn, hskip]
        rfl
      · simp only [Continued.ontoTurn, hskip]
        rfl
  · rw [if_neg hname, if_neg hname, hhash]
    simp only [Continued.ontoTurn, hskip]
    rfl

/-! ### Declarations -/

theorem isUsingDirective_whole (hs : Inside st (t :: r)) (ht : t.kind = .usingWord) :
    isUsingDirective (k.whole (t :: r)) = isUsingDirective (k.part (t :: r)) := by
  have hin : Inside st r := hs.tail ht rfl (by simp)
  obtain ⟨second, r', rfl⟩ := hin.cons_eq
  by_cases hk : second.kind = .identifier
  · obtain ⟨third, q, rfl⟩ := (hin.tail hk rfl (by simp)).cons_eq
    rfl
  · have hsecond (q : List Token) : isUsingDirective ⟨t :: second :: q, k.stop⟩ =
        (second.kind == .staticWord) := by
      unfold isUsingDirective
      simp only
      cases h : second.kind <;> simp_all
    have hmore : isUsingDirective (k.whole (t :: second :: r')) =
        isUsingDirective ⟨t :: second :: (r' ++ k.more), k.stop⟩ := rfl
    rw [hmore, hsecond]
    exact (hsecond r').symm

theorem stays_modifiers (hs : Inside st s) : Stays k s modifiers modifiers := by
  have hkinds : Reads (takeKinds TokenKind.isModifier) := reads_takeKinds fun kind hk => by
    cases kind <;> simp_all [TokenKind.isModifier, TokenKind.isBracket]
  exact (stays_takeKinds rfl hs).bind hkinds hs fun kinds r hr _ => .pure hr.ne_nil _

/-- **Declarations**, or the statements that stand there instead. -/
theorem declaration_whole (hs : Inside st (t :: r)) (ht : t.kind ≠ .semicolon) :
    declaration t (k.whole (t :: r)) = k.ontoTurn (declaration t (k.part (t :: r))) := by
  have hattributes := stays_skipAttributes (k := k) hs
  have hsame := hattributes.same
  unfold declaration
  cases hq : skipAttributes (k.part (t :: r)) with
  | failed e q =>
    rw [hq] at hsame
    rw [hsame]
    obtain ⟨v, hv, -⟩ := reads_skipAttributes.failed hq
    exact recover_whole e hs ht hv (hattributes.ends.inside e q hq)
  | done u start =>
    obtain ⟨w1, hw1, hstart, hin1⟩ := hattributes.inside_done reads_skipAttributes hs hq
    generalize start.rest = s1 at hw1 hstart hin1
    subst hstart
    rw [hq, Continued.onto_done] at hsame
    rw [hsame]
    have hmodifiers := stays_modifiers (k := k) hin1
    have hmsame : modifiers (k.whole s1) = _ := hmodifiers.same
    cases hm : modifiers (k.part s1) with
    | failed e q => cases hm
    | done words q =>
      obtain ⟨w2, hw2, hq2, hin2⟩ := hmodifiers.inside_done reads_modifiers hin1 hm
      generalize q.rest = s2 at hw2 hq2 hin2
      subst hq2
      rw [hm, Continued.onto_done] at hmsame
      have hw : t :: r = (w1 ++ w2) ++ s2 := by rw [hw1, hw2, List.append_assoc]
      simp only [hmsame, hm, k.kind?_whole hin2.ne_nil]
      by_cases hword : (k.part s2).kind?.any TokenKind.isTypeWord
      · rw [if_pos hword, if_pos hword]
        obtain ⟨t2, r2, rfl⟩ := hin2.cons_eq
        have hword2 : t2.kind.isTypeWord := by
          simpa [Continued.part, Cursor.kind?] using hword
        have hread := ends_typeDecl (k := k) hin2 hin1.ne_nil hword2 words
        have hleaves := leaves_typeDecl (c := k.part (t2 :: r2)) (k.part s1) words rfl hword2
        exact ofReply_whole hs ht hw (hread.map _) hleaves.map
      · rw [if_neg hword, if_neg hword]
        have hread := ends_member? (k := k) hin2 hin1.ne_nil words
        have hmember := hread.same
        rw [hmember]
        cases hd : member? (k.part s1) words (k.part s2) with
        | failed e d' =>
          obtain ⟨v, hv, -⟩ := (reads_member? _ _).failed hd
          have hve : t :: r = (w1 ++ w2 ++ v) ++ d'.rest := by
            rw [hw, List.append_assoc _ v]
            exact congrArg _ hv
          exact recover_whole e hs ht hve (hread.inside e d' hd)
        | done item? d' =>
          cases item? with
          | some item => rfl
          | none =>
            have hcond := and_congr (k.length_eq_whole s1 (t :: r))
              (or_congr_left (c := t.lexeme = "new") (k.length_eq_whole s2 (t :: r)))
            simp only [Continued.onto]
            by_cases h : (k.part s1).rest.length = (k.part (t :: r)).rest.length ∧
                ((k.part s2).rest.length = (k.part (t :: r)).rest.length ∨ t.lexeme = "new")
            · rw [if_pos h, if_pos (hcond.mpr h)]
              exact statement_whole hs
            · rw [if_neg h, if_neg (mt hcond.mp h), k.span_whole hin2.ne_nil]
              exact recover_whole (d := k.part s2) _ hs ht hw hin2.ne_nil

/-! ### Turns -/

/-- **A turn in front of the last `;` is the same wherever the source goes on.** -/
theorem turn_whole (declared : Bool) (hs : Inside st s) (hl : k.BreaksLine s) :
    turn declared (k.whole s) = k.ontoTurn (turn declared (k.part s)) := by
  obtain ⟨t, r, rfl⟩ := hs.cons_eq
  have hother (hk : t.kind ≠ .semicolon) :
      (if mayDeclare t then declaration t (k.whole (t :: r)) else statement (k.whole (t :: r))) =
        k.ontoTurn
          (if mayDeclare t then declaration t (k.part (t :: r)) else statement (k.part (t :: r))) := by
    split
    · exact declaration_whole hs hk
    · exact statement_whole hs
  have hwhole : (k.whole (t :: r)).rest = t :: (r ++ k.more) := rfl
  unfold turn
  simp only [hwhole, Continued.rest_part]
  cases hk : t.kind with
  | semicolon => rfl
  | hash => exact directive_whole declared hs hk hl
  | usingWord =>
    simp only [isUsingDirective_whole hs hk]
    split
    · have hread := (ends_usingDirective (k := k) hs).map Item.usingDirective
      exact ofReply_whole (w := []) hs (by rw [hk]; simp) rfl hread
        (reads_usingDirective.map _ _)
    · exact statement_whole hs
  | _ => exact hother (by rw [hk]; simp)

/-- **Turns come to stand just behind the last `;`**, by induction on the number of tokens in
front of it. -/
theorem turns_whole : ∀ (n : Nat) {s : List Token} {st : List Delimiter} (declared : Bool),
    s.length ≤ n → s = [] ∨ Inside st s → k.BreaksLine s →
      ∃ after items errors, Turns declared (k.whole s) after (k.whole []) items errors ∧
        Turns declared (k.part s) after (k.part []) items errors
  | n, [], st, declared, hn, hs, hl =>
    ⟨declared, [], [], .stay declared _, .stay declared _⟩
  | 0, t :: r, st, declared, hn, hs, hl => by simp at hn
  | n + 1, t :: r, st, declared, hn, hs, hl => by
    have hin : Inside st (t :: r) := hs.resolve_left (by simp)
    have hturn := turn_whole declared hin hl
    have hbefore := turn_before declared (c := k.part (t :: r)) rfl
    have hlt := hbefore.length_lt
    obtain ⟨w, -, hw, hf⟩ := hbefore
    have hnext : (turn declared (k.part (t :: r))).next =
        k.part (turn declared (k.part (t :: r))).next.rest := k.eq_part hf
    generalize hq : (turn declared (k.part (t :: r))).next.rest = q at hw hlt hnext
    rw [Continued.rest_part] at hw hlt
    have hinside : ∃ st', q = [] ∨ Inside st' q := by
      by_cases h : q = []
      · exact ⟨[], .inl h⟩
      · rw [hw] at hin
        obtain ⟨st', hi⟩ := hin.of_append h
        exact ⟨st', .inr hi⟩
    obtain ⟨st', hinside⟩ := hinside
    rw [hw] at hl
    rw [List.length_cons] at hlt hn
    obtain ⟨after, items, errors, hwhole, hpart⟩ :=
      turns_whole n (declared || declares t.kind) (by omega) hinside hl.of_append
    rw [← hnext] at hpart
    have hwnext : (turn declared (k.whole (t :: r))).next = k.whole q := by
      rw [hturn, Continued.ontoTurn, hq]
    rw [← hwnext] at hwhole
    have hrun := Turns.turn (c := k.whole (t :: r)) rfl hwhole
    rw [hturn] at hrun
    exact ⟨after, _, _, hrun, .turn rfl hpart⟩

/-! ### Sources in two parts -/

/-- Balanced tokens with a `;` at their end are inside no brackets. -/
theorem inside_of_balanced {g : List Token} {semi : Token} (hg : Balanced g)
    (hlast : g.getLast? = some semi) (hsemi : semi.kind = .semicolon) : Inside [] g :=
  ⟨neutral_of_balanced hg, semi, hlast, hsemi⟩

/-- If the tokens behind a `;` start on later lines than it, they start on later lines than
all in front of it. -/
theorem breaksLine_of_last {g : List Token} {semi : Token} (hlast : g.getLast? = some semi)
    (hlines : g.Pairwise fun t u => t.start.line ≤ u.start.line)
    (hk : ∀ u ∈ k.more, semi.start.line < u.start.line) : k.BreaksLine g := by
  intro t ht u hu
  obtain ⟨front, rfl⟩ := List.getLast?_eq_some_iff.mp hlast
  have hle : t.start.line ≤ semi.start.line := by
    rcases List.mem_append.mp ht with hf | hs
    · exact (List.pairwise_append.mp hlines).2.2 t hf semi (by simp)
    · rw [List.mem_singleton.mp hs]
  exact Nat.lt_of_le_of_lt hle (hk u hu)

/-- **Problems are contained by a `;` outside all brackets.** Take a source whose tokens are
`g` and then `r`, where `g` is balanced and ends with a `;`, and `r` starts on a later line.
The turns at the source come to stand just behind `g`, with the items and problems of `g`
alone, wherever a source of just `g` ends, and in the same state. So the items of the source
are those of `g` and then those of `r`, read in that state, and so are its problems, behind
the lexical ones. -/
theorem Script.parseLenient_contained {source : String} {g r : List Token} {semi : Token}
    (htokens : (lex source).tokens = g ++ r) (hg : Balanced g) (hlast : g.getLast? = some semi)
    (hsemi : semi.kind = .semicolon) (hlines : ∀ t ∈ r, semi.start.line < t.start.line)
    (stop : Position) :
    ∃ after,
      Turns false (.ofLexed (lex source)) after ⟨r, (lex source).finish⟩
        (Cursor.mk g stop).items.1 (Cursor.mk g stop).items.2 ∧
      Turns false ⟨g, stop⟩ after ⟨[], stop⟩
        (Cursor.mk g stop).items.1 (Cursor.mk g stop).items.2 ∧
      (parseLenient source).1.items =
        (Cursor.mk g stop).items.1 ++ ((Cursor.mk r (lex source).finish).itemsFrom after).1 ∧
      (parseLenient source).2 =
        (lex source).errors.map .ofLexError ++ ((Cursor.mk g stop).items.2
          ++ ((Cursor.mk r (lex source).finish).itemsFrom after).2) := by
  let k : Continued := ⟨r, (lex source).finish, stop⟩
  have hup : g.Pairwise fun t u => t.start.line ≤ u.start.line := by
    have hall := (tiles_lex source).lines.2
    rw [htokens] at hall
    exact (List.pairwise_append.mp hall).1
  have hbreaks : k.BreaksLine g := breaksLine_of_last hlast hup hlines
  have hinside : Inside [] g := inside_of_balanced hg hlast hsemi
  obtain ⟨after, items, errors, hwhole, hpart⟩ :=
    turns_whole (k := k) g.length false (Nat.le_refl _) (.inr hinside) hbreaks
  have hstart : Cursor.ofLexed (lex source) = k.whole g := by
    rw [Cursor.ofLexed, htokens]
    rfl
  have hitems : (Cursor.mk g stop).items = (items, errors) := by
    have hend : (k.part []).itemsFrom after = ([], []) := rfl
    calc (Cursor.mk g stop).items
        = (k.part g).itemsFrom false := rfl
      _ = (items, errors) := by rw [hpart.itemsFrom_eq, hend, List.append_nil, List.append_nil]
  have hall : (Cursor.ofLexed (lex source)).items =
      (items ++ ((k.whole []).itemsFrom after).1, errors ++ ((k.whole []).itemsFrom after).2) := by
    calc (Cursor.ofLexed (lex source)).items
        = (k.whole g).itemsFrom false := by rw [hstart]; rfl
      _ = _ := hwhole.itemsFrom_eq
  rw [hitems]
  refine ⟨after, ?_, hpart, ?_, ?_⟩
  · rw [hstart]
    exact hwhole
  · simp only [parseLenient, hall]
    rfl
  · simp only [parseLenient, hall]
    rfl

/-- A method with a parameter that cannot be read, and a field on the next line. -/
def sampleScript : String := "void M(=) { };\nint x;"

theorem sampleScript_contained :
    ∃ after,
      Turns false (.ofLexed (lex sampleScript)) after
        ⟨(lex sampleScript).tokens.drop 8, (lex sampleScript).finish⟩
        (Cursor.mk ((lex sampleScript).tokens.take 8) .start).items.1
        (Cursor.mk ((lex sampleScript).tokens.take 8) .start).items.2 ∧
      (Cursor.mk ((lex sampleScript).tokens.take 8) .start).items.2.map ParseError.kind =
        [.expectedType] := by
  have hbalanced : Balanced ((lex sampleScript).tokens.take 8) := by decide
  have hlast : ((lex sampleScript).tokens.take 8).getLast? =
      some ⟨.semicolon, ";", ⟨13, 1, 14⟩, 1⟩ := by decide
  have hlines : ∀ t ∈ (lex sampleScript).tokens.drop 8, 1 < t.start.line := by decide
  have herrors : (Cursor.mk ((lex sampleScript).tokens.take 8) .start).items.2.map ParseError.kind =
      [.expectedType] := by decide +kernel
  obtain ⟨after, hrun, -⟩ := Script.parseLenient_contained
    (List.take_append_drop 8 (lex sampleScript).tokens).symm hbalanced hlast rfl hlines .start
  exact ⟨after, hrun, herrors⟩

end ScriptHost
