/-
# Reading a source one lexeme at a time

A lexer holds its place, the text that is left and the faults it has recorded, and every call
gives the next lexeme until the text ends. What the calls give are the lexemes of the source, and
then its end for ever. Each call takes text: what was skipped in front of a lexeme, the marks,
blanks and comments, and what the lexeme was read from, which together make up the source. The
place of a lexeme is that of its first character, counted from the start of the source.

Key definitions: `Lexer`, `Lexer.next`, `placeBehind`, `Skipped`, `Lexeme.ReadFrom`, `Laid`,
`Lexed.Faithful`.
Key theorems: `advance_start`, `skipped_trivia`, `shows_scan`, `laid_lexWithin`, `Lexer.calls_eq`,
`faithful_lex`.
-/
import Mathlib.Data.List.Induction
import ScriptHost.Proofs.Token.Names
import ScriptHost.Proofs.Token.Tiling

namespace ScriptHost

open Source

/-! ### Places -/

/-- The place behind a text that starts the source: as many bytes as it has, a line for each
newline, and a column for each byte behind the last of them. -/
def placeBehind (before : List Char) : Position :=
  ⟨byteLength before, 1 + before.count '\n',
    1 + byteLength (before.reverse.takeWhile (· != '\n'))⟩

/-- **Places are counted from the start of the source**, by induction on what was read last. -/
theorem advance_start (before : List Char) : Position.start.advance before = placeBehind before := by
  induction before using List.reverseRecOn with
  | nil => rfl
  | append_singleton before c ih =>
    rw [Position.advance_append, ih, Position.advance_cons, Position.advance_nil]
    by_cases hc : c = '\n'
    · subst hc
      have hsize : '\n'.utf8Size = 1 := rfl
      simp [placeBehind, Position.step, Nat.add_assoc, hsize]
    · have hne : (c != '\n') = true := bne_iff_ne.mpr hc
      simp [placeBehind, Position.step, hc, hne, List.count_append, Nat.add_comm]
      omega

theorem advance_placeBehind (before text : List Char) :
    (placeBehind before).advance text = placeBehind (before ++ text) := by
  rw [← advance_start, ← advance_start, Position.advance_append]

theorem byteLength_takeWhile_le (p : Char → Bool) : ∀ cs : List Char,
    byteLength (cs.takeWhile p) ≤ byteLength cs
  | [] => Nat.le_refl _
  | c :: cs => by
    rw [List.takeWhile_cons]
    split
    · exact Nat.add_le_add_left (byteLength_takeWhile_le p cs) _
    · exact Nat.zero_le _

theorem byteLength_reverse : ∀ cs : List Char, byteLength cs.reverse = byteLength cs
  | [] => rfl
  | c :: cs => by
    rw [List.reverse_cons, byteLength_append, byteLength_reverse cs, byteLength_cons,
      byteLength_cons, byteLength_nil]
    omega

theorem count_le_byteLength (d : Char) : ∀ cs : List Char, cs.count d ≤ byteLength cs
  | [] => Nat.le_refl _
  | c :: cs => by
    have hpos := c.utf8Size_pos
    have hmore := count_le_byteLength d cs
    rw [List.count_cons, byteLength_cons]
    split <;> omega

/-- The numbers of a place in a text of `n` bytes, lines and columns being counted from one. -/
structure Source.Position.Within (p : Position) (n : Nat) : Prop where
  offset : p.offset ≤ n
  line : p.line ≤ 1 + n
  column : p.column ≤ 1 + n

theorem within_placeBehind (before rest : List Char) :
    (placeBehind before).Within (byteLength (before ++ rest)) := by
  have hcolumn := byteLength_takeWhile_le (· != '\n') before.reverse
  rw [byteLength_reverse] at hcolumn
  have hline := count_le_byteLength '\n' before
  rw [byteLength_append]
  exact ⟨Nat.le_add_right _ _, by simp only [placeBehind]; omega, by simp only [placeBehind]; omega⟩

/-! ### What is skipped -/

/-- Text that is skipped in front of `rest`: byte-order marks, blanks, line comments that end
before a newline or with the text, and block comments up to their first closing mark. -/
inductive Skipped (rest : List Char) : List Char → Prop
  | nil : Skipped rest []
  | mark {gap : List Char} (more : Skipped rest gap) : Skipped rest ('\ufeff' :: gap)
  | blank {c : Char} {gap : List Char} (hc : isBlank c) (more : Skipped rest gap) :
    Skipped rest (c :: gap)
  | line {text gap : List Char} (htext : '\n' ∉ text) (hend : ∀ c ∈ (gap ++ rest).head?, c = '\n')
    (more : Skipped rest gap) : Skipped rest ('/' :: '/' :: (text ++ gap))
  | block {text gap : List Char} (htext : ¬ ['*', '/'] <:+: text) (more : Skipped rest gap) :
    Skipped rest ('/' :: '*' :: (text ++ '*' :: '/' :: gap))

theorem Skipped.blanks {rest gap : List Char} (h : Skipped rest gap) : ∀ {blanks : List Char},
    (∀ c ∈ blanks, isBlank c = true) → Skipped rest (blanks ++ gap)
  | [], _ => h
  | c :: blanks, hall => by
    obtain ⟨hc, hmore⟩ := List.forall_mem_cons.mp hall
    exact .blank hc (Skipped.blanks h hmore)

theorem Skipped.splitBlanks {rest gap : List Char} (h : Skipped rest gap) (cs : List Char) :
    Skipped rest ((splitBlanks cs).1 ++ gap) := by
  have hall (r : List Char) : ∀ c ∈ r.takeWhile isBlank, isBlank c = true :=
    List.all_eq_true.mp List.all_takeWhile
  unfold ScriptHost.splitBlanks
  split
  · exact .mark (h.blanks (hall _))
  · exact h.blanks (hall _)

/-- A block comment is closed by the first mark that closes one. -/
theorem splitBlockComment_first {r x y : List Char} (h : splitBlockComment r = some (x, y)) :
    ∃ text, x = text ++ ['*', '/'] ∧ ¬ ['*', '/'] <:+: text := by
  fun_induction splitBlockComment r generalizing x with
  | case1 => cases h
  | case2 r =>
    obtain ⟨rfl, -⟩ := Prod.mk.inj (Option.some.inj h)
    exact ⟨[], rfl, fun hinfix => absurd hinfix (by decide)⟩
  | case3 c r hc ih =>
    obtain ⟨⟨x', y'⟩, hxy, he⟩ := Option.map_eq_some_iff.mp h
    obtain ⟨rfl, rfl⟩ := Prod.mk.inj he
    obtain ⟨text, rfl, hfirst⟩ := ih hxy
    refine ⟨c :: text, rfl, fun hinfix => ?_⟩
    rcases List.infix_cons_iff.mp hinfix with hprefix | hinfix
    · obtain ⟨hstar, hslash⟩ := List.cons_prefix_cons.mp hprefix
      obtain ⟨z, rfl⟩ := hslash
      have hr := splitBlockComment_append hxy
      exact hc _ hstar.symm hr.symm
    · exact hfirst hinfix

theorem Skipped.splitComment {rest gap cs comment : List Char} (h : Skipped rest gap)
    (hc : splitComment cs = some (comment, gap ++ rest)) : Skipped rest (comment ++ gap) := by
  unfold ScriptHost.splitComment at hc
  split at hc
  next r =>
    obtain ⟨rfl, hgap⟩ := Prod.mk.inj (Option.some.inj hc)
    have hall : ∀ c ∈ r.takeWhile (· != '\n'), (c != '\n') = true :=
      List.all_eq_true.mp List.all_takeWhile
    refine .line (fun hmem => absurd (hall _ hmem) (by decide)) ?_ h
    intro c hhead
    rw [← hgap] at hhead
    have hnot := List.head?_dropWhile_not (· != '\n') r
    rw [Option.mem_def.mp hhead] at hnot
    simpa using hnot
  next r =>
    obtain ⟨⟨x, y⟩, hxy, he⟩ := Option.map_eq_some_iff.mp hc
    obtain ⟨rfl, rfl⟩ := Prod.mk.inj he
    obtain ⟨text, rfl, hfirst⟩ := splitBlockComment_first hxy
    have hblock := Skipped.block hfirst h
    simpa only [List.cons_append, List.append_assoc, List.nil_append] using hblock
  · cases hc

/-- **Trivia is what may be skipped**, by induction on its rounds. -/
theorem skipped_triviaWithin : ∀ (n : Nat) (cs : List Char),
    Skipped (triviaWithin n cs).2 (triviaWithin n cs).1
  | 0, cs => .nil
  | n + 1, cs => by
    simp only [triviaWithin]
    cases hc : splitComment (splitBlanks cs).2 with
    | none =>
      have hnone : Skipped (splitBlanks cs).2 [] := .nil
      have hblanks := hnone.splitBlanks cs
      rwa [List.append_nil] at hblanks
    | some comment =>
      obtain ⟨comment, r⟩ := comment
      have hmore := skipped_triviaWithin n r
      rw [← triviaWithin_append n r] at hc
      have hboth := (hmore.splitComment hc).splitBlanks cs
      simpa only [List.append_assoc] using hboth

theorem skipped_trivia (cs : List Char) : Skipped (trivia cs).2 (trivia cs).1 :=
  skipped_triviaWithin _ cs

/-! ### What lexemes are read from -/

/-- What a token of the kind shows of the text it was read from: the whole text, or for an
identifier behind marks what is behind them. -/
structure Shows (kind : TokenKind) (lexeme text : List Char) : Prop where
  plain : kind ≠ .identifier ∨ (∀ c ∈ text.head?, isMark c = false) → lexeme = text
  verbatim : kind = .identifier → (∃ c ∈ text.head?, isMark c = true) →
    lexeme = text.dropWhile isMark

/-- Where there is no identifier behind marks, the lexeme is the text. -/
theorem Shows.of_eq {kind : TokenKind} {lexeme text : List Char} (h : lexeme = text)
    (hplain : kind ≠ .identifier ∨ (∀ c ∈ text.head?, isMark c = false)) :
    Shows kind lexeme text where
  plain _ := h
  verbatim hkind hmark := by
    obtain ⟨c, hc, hmark⟩ := hmark
    rcases hplain with hne | hunmarked
    · exact absurd hkind hne
    · exact absurd (hmark.symm.trans (hunmarked c hc)) Bool.noConfusion

theorem lexeme_of_scanQuoted {quote c : Char} {kind kind' : TokenKind} {seen r lexeme : List Char}
    (h : (scanQuoted quote kind (c :: seen) seen r).verdict = .token kind' lexeme) :
    kind' = kind ∧ lexeme = c :: (scanQuoted quote kind (c :: seen) seen r).taken := by
  unfold scanQuoted at h ⊢
  split at h
  · obtain ⟨rfl, rfl⟩ := Verdict.token.inj h
    exact ⟨rfl, rfl⟩
  · cases h

theorem lexeme_of_scanVerbatim {c : Char} {kind : TokenKind} {seen r lexeme : List Char}
    (h : (scanVerbatim (c :: seen) seen r).verdict = .token kind lexeme) :
    kind = .stringLiteral ∧ lexeme = c :: (scanVerbatim (c :: seen) seen r).taken := by
  unfold scanVerbatim at h ⊢
  split at h
  · obtain ⟨rfl, rfl⟩ := Verdict.token.inj h
    exact ⟨rfl, rfl⟩
  · cases h

theorem isMark_of_isIdentStart {d : Char} (h : isIdentStart d = true) : isMark d = false := by
  by_contra hmark
  simp only [isMark, Bool.not_eq_false, Bool.or_eq_true, beq_iff_eq] at hmark
  rcases hmark with rfl | rfl
  · exact absurd h (by decide)
  · exact absurd h (by decide)

theorem shows_scanMarked {c : Char} {r lexeme : List Char} {kind : TokenKind} (hc : isMark c = true)
    (h : (scanMarked c r).verdict = .token kind lexeme) :
    Shows kind lexeme (c :: (scanMarked c r).taken) := by
  unfold scanMarked at h ⊢
  simp only at h ⊢
  split
  next hafter =>
    simp only [hafter] at h
    cases h
  next inner hafter =>
    simp only [hafter] at h
    split
    next hverbatim =>
      rw [if_pos hverbatim] at h
      obtain ⟨rfl, hlexeme⟩ := lexeme_of_scanVerbatim h
      exact .of_eq hlexeme (.inl (by decide))
    next hverbatim =>
      rw [if_neg hverbatim] at h
      obtain ⟨rfl, hlexeme⟩ := lexeme_of_scanQuoted h
      exact .of_eq hlexeme (.inl (by decide))
  next d after hquote hafter =>
    split at h
    next inner hinner => exact absurd (hafter.symm.trans hinner) (by simp)
    next inner hinner => exact absurd (List.cons.inj (hafter.symm.trans hinner)).1 hquote
    next d' after' _ hafter' =>
    obtain ⟨rfl, rfl⟩ := List.cons.inj (hafter.symm.trans hafter')
    split at h
    next hname =>
      rw [if_pos hname]
      obtain ⟨rfl, rfl⟩ := Verdict.token.inj h
      have hstart := (Bool.and_eq_true_iff.mp hname).2
      have hmarks : ∀ m ∈ r.takeWhile isMark, isMark m = true :=
        List.all_eq_true.mp List.all_takeWhile
      refine ⟨fun hplain => ?_, fun _ _ => ?_⟩
      · rcases hplain with hne | hunmarked
        · exact absurd rfl hne
        · exact absurd (hc.symm.trans (hunmarked c rfl)) Bool.noConfusion
      · have hunmarked : ¬ isMark d = true := by
          rw [isMark_of_isIdentStart hstart]
          exact Bool.false_ne_true
        rw [List.dropWhile_cons_of_pos hc, List.dropWhile_append_of_pos hmarks, hafter,
          List.takeWhile_cons_of_pos (isIdentContinue_of_start hstart),
          List.dropWhile_cons_of_neg hunmarked]
    · cases h

theorem lexeme_of_scanPunctuation {c : Char} {r lexeme : List Char} {kind : TokenKind}
    (h : (scanPunctuation c r).verdict = .token kind lexeme) :
    lexeme = c :: (scanPunctuation c r).taken := by
  unfold scanPunctuation at h ⊢
  cases r with
  | nil =>
    simp only at h ⊢
    split at h
    · exact (Verdict.token.inj h).2.symm
    · cases h
  | cons d r =>
    simp only at h ⊢
    cases hpair : pair? c d with
    | some pair =>
      rw [hpair] at h
      exact (Verdict.token.inj h).2.symm
    | none =>
      rw [hpair] at h
      simp only at h ⊢
      split at h
      · exact (Verdict.token.inj h).2.symm
      · cases h

/-- The scanners that a first character calls for. -/
theorem scan_cases {motive : Scan → Prop} (c : Char) (r : List Char)
    (comment : motive ⟨.fault .unterminatedComment 2, r, []⟩)
    (string : c = '"' → motive (scanQuoted '"' .stringLiteral ['"'] [] r))
    (char : c = '\'' → motive (scanQuoted '\'' .charLiteral ['\''] [] r))
    (marked : isMark c = true → motive (scanMarked c r))
    (number : isMark c = false → motive (scanNumber c r))
    (word : isMark c = false → motive (scanWord c r))
    (punctuation : isMark c = false → motive (scanPunctuation c r)) : motive (scan c r) := by
  unfold scan
  split
  · exact comment
  split
  next hquote => exact string hquote
  split
  next hquote => exact char hquote
  split
  next hmark => exact marked hmark
  next hmark =>
  have hunmarked := Bool.eq_false_iff.mpr hmark
  split
  · exact number hunmarked
  split
  · exact word hunmarked
  · exact punctuation hunmarked

/-- **A token shows the text that was scanned.** -/
theorem shows_scan (c : Char) (r : List Char) : ∀ kind lexeme,
    (scan c r).verdict = .token kind lexeme → Shows kind lexeme (c :: (scan c r).taken) := by
  have hplain (hmark : isMark c = false) (text : List Char) :
      ∀ d ∈ (c :: text).head?, isMark d = false := by
    intro d hd
    obtain rfl := Option.some.inj hd
    exact hmark
  refine scan_cases (motive := fun s => ∀ kind lexeme,
    s.verdict = .token kind lexeme → Shows kind lexeme (c :: s.taken)) c r
    ?comment ?string ?char ?marked ?number ?word ?punctuation
  case comment => exact fun kind lexeme h => nomatch h
  case string =>
    rintro rfl kind lexeme h
    obtain ⟨rfl, hlexeme⟩ := lexeme_of_scanQuoted h
    exact .of_eq hlexeme (.inl (by decide))
  case char =>
    rintro rfl kind lexeme h
    obtain ⟨rfl, hlexeme⟩ := lexeme_of_scanQuoted h
    exact .of_eq hlexeme (.inl (by decide))
  case marked => exact fun hmark kind lexeme h => shows_scanMarked hmark h
  case number =>
    exact fun hmark kind lexeme h => .of_eq (Verdict.token.inj h).2.symm (.inr (hplain hmark _))
  case word =>
    exact fun hmark kind lexeme h => .of_eq (Verdict.token.inj h).2.symm (.inr (hplain hmark _))
  case punctuation =>
    exact fun hmark kind lexeme h => .of_eq (lexeme_of_scanPunctuation h) (.inr (hplain hmark _))

/-! ### Lexemes behind one another -/

/-- The lexeme is read from the text behind `before`: it stands at the place behind `before`, a
token has the length of the text and shows it, and a fault is reported from that place on. -/
inductive Lexeme.ReadFrom (before text : List Char) : Lexeme → Prop
  | token {t : Token} (place : t.start = placeBehind before) (length : t.length = byteLength text)
      (shows : Shows t.kind t.lexeme.toList text) : ReadFrom before text (.token t)
  | invalid {p : Position} {e : LexError} (place : p = placeBehind before)
      (line : e.span.line = p.line) (column : e.span.column = p.column) :
    ReadFrom before text (.invalid p e)

/-- The lexemes lie in the text `cs` behind `before`, one behind the other, and nothing but what is
skipped lies between them and behind the last, up to the place `finish`. -/
inductive Laid (finish : Position) : List Char → List Char → List Lexeme → Prop
  | nil {before gap : List Char} (skipped : Skipped [] gap)
      (place : finish = placeBehind (before ++ gap)) : Laid finish before gap []
  | cons {before gap text rest : List Char} {x : Lexeme} {xs : List Lexeme}
      (skipped : Skipped (text ++ rest) gap) (nonempty : text ≠ [])
      (read : x.ReadFrom (before ++ gap) text)
      (more : Laid finish (before ++ gap ++ text) rest xs) :
    Laid finish before (gap ++ text ++ rest) (x :: xs)

theorem readFrom_lexeme {before : List Char} {c : Char} {r : List Char} :
    ((scan c r).lexeme (placeBehind before) (c :: (scan c r).taken)).ReadFrom before
      (c :: (scan c r).taken) := by
  unfold Scan.lexeme
  cases hv : (scan c r).verdict with
  | token kind lexeme =>
    refine .token rfl rfl ?_
    rw [String.toList_ofList]
    exact shows_scan c r kind lexeme hv
  | fault fault length => exact .invalid rfl rfl rfl

/-- **The lexemes of a text lie in it one behind the other**, by induction on the rounds. -/
theorem laid_lexWithin : ∀ (n : Nat) (before cs : List Char), cs.length < n →
    Laid (lexWithin n (placeBehind before) cs).finish before cs
      (lexWithin n (placeBehind before) cs).lexemes
  | 0, before, cs, hn => by omega
  | n + 1, before, cs, hn => by
    have hskipped := skipped_trivia cs
    have htrivia := trivia_append cs
    unfold lexWithin
    split
    next gap after hta =>
    rw [hta] at hskipped htrivia
    split
    · rw [List.append_nil] at htrivia
      subst htrivia
      exact .nil hskipped (advance_placeBehind before gap)
    next c r =>
      have hscan := scan_taken_rest c r
      have hcs : cs = gap ++ (c :: (scan c r).taken) ++ (scan c r).rest := by
        rw [List.append_assoc, List.cons_append, hscan, htrivia]
      have hlength := congrArg List.length hcs
      simp only [List.length_append, List.length_cons] at hlength
      simp only [advance_placeBehind]
      have hmore := laid_lexWithin n (before ++ gap ++ (c :: (scan c r).taken)) (scan c r).rest
        (by omega)
      rw [← hscan, ← List.cons_append] at hskipped
      have hlaid := Laid.cons hskipped (List.cons_ne_nil _ _) readFrom_lexeme hmore
      rwa [← hcs] at hlaid

/-- The bytes that a token says it covers are the text it shows. -/
theorem Laid.slice {finish : Position} {source before cs : List Char} {xs : List Lexeme}
    (h : Laid finish before cs xs) (hsource : source = before ++ cs) :
    ∀ t, Lexeme.token t ∈ xs → ∃ text,
      sliceBytes t.start.offset (t.start.offset + t.length) source = some text ∧
        Shows t.kind t.lexeme.toList text := by
  induction h with
  | nil => exact fun t ht => absurd ht List.not_mem_nil
  | @cons before gap text rest x xs skipped nonempty read more ih =>
    intro t ht
    rcases List.mem_cons.mp ht with rfl | ht
    · cases read with
      | token place length shows =>
        have hslice := sliceBytes_append (before ++ gap) text rest
        refine ⟨text, ?_, shows⟩
        rw [length, place, hsource]
        simpa only [placeBehind, List.append_assoc] using hslice
    · exact ih (by rw [hsource]; simp only [List.append_assoc]) t ht

/-- The place where a lexeme starts. -/
def Lexeme.place : Lexeme → Position
  | .token t => t.start
  | .invalid p _ => p

theorem Laid.within {finish : Position} {source before cs : List Char} {xs : List Lexeme}
    (h : Laid finish before cs xs) (hsource : source = before ++ cs) :
    (∀ x ∈ xs, x.place.Within (byteLength source)) ∧ finish.Within (byteLength source) := by
  induction h with
  | @nil before gap skipped place =>
    have hwithin := within_placeBehind (before ++ gap) []
    rw [List.append_nil, ← place, ← hsource] at hwithin
    exact ⟨fun x hx => absurd hx List.not_mem_nil, hwithin⟩
  | @cons before gap text rest x xs skipped nonempty read more ih =>
    have hall : source = before ++ gap ++ text ++ rest := by
      rw [hsource]
      simp only [List.append_assoc]
    obtain ⟨hmore, hfinish⟩ := ih hall
    have hplace : x.place = placeBehind (before ++ gap) := by
      cases read with
      | token place => exact place
      | invalid place => exact place
    have hwithin := within_placeBehind (before ++ gap) (text ++ rest)
    rw [← hplace, ← List.append_assoc, ← hall] at hwithin
    exact ⟨List.forall_mem_cons.mpr ⟨hwithin, hmore⟩, hfinish⟩

/-! ### Calls -/

/-- A fault, if the lexeme is one. -/
def Lexeme.error? : Lexeme → Option LexError
  | .token _ => none
  | .invalid _ e => some e

/-- A lexer between two calls: its place, the text that is left, and the faults so far. -/
structure Lexer where
  place : Position
  rest : List Char
  errors : List LexError

/-- What a call gives: the next lexeme, or the end of the text and its place. -/
inductive Outcome where
  | lexeme (x : Lexeme)
  | finish (p : Position)
deriving DecidableEq, Repr

namespace Lexer

/-- The lexer at the start of a source. -/
def ofSource (source : String) : Lexer := ⟨.start, source.toList, []⟩

/-- A call of the lexer: trivia are skipped, one lexeme is read, and its fault is recorded if it
has one. -/
def next (l : Lexer) : Outcome × Lexer :=
  let (gap, after) := trivia l.rest
  let start := l.place.advance gap
  match after with
  | [] => (.finish start, ⟨start, [], l.errors⟩)
  | c :: r =>
    let s := scan c r
    let text := c :: s.taken
    let x := s.lexeme start text
    (.lexeme x, ⟨start.advance text, s.rest, l.errors ++ x.error?.toList⟩)

/-- The lexer after so many calls. -/
def after (l : Lexer) : Nat → Lexer
  | 0 => l
  | i + 1 => l.next.2.after i

/-- What the call behind so many others gives. -/
def call (l : Lexer) (i : Nat) : Outcome := (l.after i).next.1

/-- What is left of the text after a call that gives a lexeme is shorter, and the place is further
on. -/
theorem next_of_lexeme {l : Lexer} {x : Lexeme} (h : l.next.1 = .lexeme x) :
    l.next.2.rest.length < l.rest.length ∧ l.place.offset < l.next.2.place.offset := by
  have htrivia := trivia_append l.rest
  unfold next at h ⊢
  split at h
  next gap after hta =>
  rw [hta] at htrivia
  split at h
  · cases h
  next c r =>
    have hlength := congrArg List.length htrivia
    have hscan := congrArg List.length (scan_taken_rest c r)
    have hpos := c.utf8Size_pos
    simp only [List.length_append, List.length_cons] at hlength hscan
    simp only [advance_offset, byteLength_cons]
    omega

/-- After the end the lexer stays where it is. -/
theorem next_of_nil {l : Lexer} (h : l.rest = []) : l.next = (.finish l.place, l) := by
  obtain ⟨place, rest, errors⟩ := l
  obtain rfl : rest = [] := h
  rfl

end Lexer

/-- What the call behind `i` others gives: the lexeme at `i`, or the end. -/
def Lexed.outcome (l : Lexed) (i : Nat) : Outcome :=
  match l.lexemes[i]? with
  | some x => .lexeme x
  | none => .finish l.finish

namespace Lexer

theorem after_of_nil {l : Lexer} (h : l.rest = []) : ∀ i, l.after i = l
  | 0 => rfl
  | i + 1 => by
    rw [after, next_of_nil h]
    exact after_of_nil h i

/-- **The calls give the lexemes of the text in turn**, by induction on the rounds: after `i` calls
the faults of the first `i` lexemes are recorded. -/
theorem calls_eq : ∀ (n : Nat) (p : Position) (cs : List Char) (es : List LexError) (i : Nat),
    cs.length < n →
      call ⟨p, cs, es⟩ i = (lexWithin n p cs).outcome i ∧
        (after ⟨p, cs, es⟩ i).errors =
          es ++ ((lexWithin n p cs).lexemes.take i).filterMap Lexeme.error? ∧
        (i < (lexWithin n p cs).lexemes.length →
          (after ⟨p, cs, es⟩ i).place.offset < (after ⟨p, cs, es⟩ (i + 1)).place.offset)
  | 0, p, cs, es, i, hn => by omega
  | n + 1, p, cs, es, i, hn => by
    cases hta : trivia cs with
    | mk gap behind =>
    cases behind with
    | nil =>
      have hlex : lexWithin (n + 1) p cs = ⟨[], p.advance gap⟩ := by
        simp only [lexWithin, hta]
      have hnext : next ⟨p, cs, es⟩ = (.finish (p.advance gap), ⟨p.advance gap, [], es⟩) := by
        simp only [next, hta]
      rw [hlex]
      refine ⟨?_, ?_, fun hi => absurd hi (Nat.not_lt_zero i)⟩
      · cases i with
        | zero => rw [call, after, hnext]; rfl
        | succ i => rw [call, after, hnext, after_of_nil rfl, next_of_nil rfl]; rfl
      · cases i with
        | zero => exact (List.append_nil _).symm
        | succ i =>
          rw [after, hnext, after_of_nil rfl]
          exact (List.append_nil _).symm
    | cons c r =>
      let text := c :: (scan c r).taken
      let x := (scan c r).lexeme (p.advance gap) text
      let q := (p.advance gap).advance text
      have hlex : lexWithin (n + 1) p cs = ⟨x :: (lexWithin n q (scan c r).rest).lexemes,
          (lexWithin n q (scan c r).rest).finish⟩ := by
        simp only [lexWithin, hta]
        rfl
      have hnext : next ⟨p, cs, es⟩ = (.lexeme x, ⟨q, (scan c r).rest, es ++ x.error?.toList⟩) := by
        simp only [next, hta]
        rfl
      have hstep := next_of_lexeme (congrArg Prod.fst hnext)
      have hafter (j : Nat) : after ⟨p, cs, es⟩ (j + 1) =
          after ⟨q, (scan c r).rest, es ++ x.error?.toList⟩ j := by rw [after, hnext]
      rw [hnext] at hstep
      rw [hlex]
      cases i with
      | zero =>
        refine ⟨by rw [call, after, hnext]; rfl, (List.append_nil _).symm, fun _ => ?_⟩
        rw [hafter]
        exact hstep.2
      | succ i =>
        obtain ⟨hcall, herrors, hplaces⟩ := calls_eq n q (scan c r).rest (es ++ x.error?.toList) i
          (by have hshorter := hstep.1; simp only at hshorter; omega)
        refine ⟨?_, ?_, fun hi => ?_⟩
        · rw [call, hafter]
          exact hcall
        · rw [hafter, herrors, List.take_succ_cons, List.filterMap_cons, List.append_assoc]
          cases x.error? <;> rfl
        · rw [hafter, hafter]
          exact hplaces (Nat.lt_of_succ_lt_succ hi)

end Lexer

/-- Every lexeme takes a character. -/
theorem Laid.length_le {finish : Position} {before cs : List Char} {xs : List Lexeme}
    (h : Laid finish before cs xs) : xs.length ≤ cs.length := by
  induction h with
  | nil => exact Nat.zero_le _
  | @cons before gap text rest x xs skipped nonempty read more ih =>
    have hpos := List.length_pos_iff.mpr nonempty
    simp only [List.length_append, List.length_cons]
    omega

/-- The lexemes and the end of a source are what a lexer gives, call by call. -/
structure Lexed.Faithful (source : String) (l : Lexed) : Prop where
  /-- The calls give the lexemes, and then the end for ever. -/
  calls : ∀ i, (Lexer.ofSource source).call i = l.outcome i
  finite : l.lexemes.length ≤ source.toList.length
  /-- Every call that gives a lexeme leads further on. -/
  advances : ∀ i < l.lexemes.length, ((Lexer.ofSource source).after i).place.offset <
    ((Lexer.ofSource source).after (i + 1)).place.offset
  /-- What is skipped and what the lexemes are read from make up the source, in order. -/
  laid : Laid l.finish [] source.toList l.lexemes
  /-- The tokens show the bytes that they say they cover. -/
  slices : ∀ t ∈ l.tokens, ∃ text,
    sliceBytes t.start.offset (t.start.offset + t.length) source.toList = some text ∧
      Shows t.kind t.lexeme.toList text
  /-- A fault is recorded for each lexeme that is none, in order, by the call that gives it. -/
  errors : ∀ i, ((Lexer.ofSource source).after i).errors =
    (l.lexemes.take i).filterMap Lexeme.error?
  within : (∀ x ∈ l.lexemes, x.place.Within (byteLength source.toList)) ∧
    l.finish.Within (byteLength source.toList)

/-- **The lexer reads every source faithfully.** -/
theorem faithful_lex (source : String) : (lex source).Faithful source := by
  have hlt := Nat.lt_succ_self source.toList.length
  have hlaid : Laid (lex source).finish [] source.toList (lex source).lexemes :=
    laid_lexWithin _ [] source.toList hlt
  have hcalls (i : Nat) := Lexer.calls_eq _ .start source.toList [] i hlt
  refine ⟨fun i => (hcalls i).1, hlaid.length_le, fun i => (hcalls i).2.2, hlaid, fun t ht => ?_,
    fun i => (hcalls i).2.1, hlaid.within rfl⟩
  obtain ⟨x, hx, htoken⟩ := List.mem_filterMap.mp ht
  cases x with
  | token u =>
    obtain rfl := Option.some.inj htoken
    exact hlaid.slice rfl u hx
  | invalid p e => cases htoken

end ScriptHost
