/-
# Boundaries of tokens

Outside literals and comments a brace is a token by itself, and a blank is part of none. So what
stands behind a brace, or in front of a token behind some blanks, does not matter to the tokens in
front of it: lexing a text up to there gives these tokens whatever follows, and then goes on as if
the text began there. Where a text begins only moves the places of its tokens.

Key definitions: `Meets`, `lexFrom`, `Lexed.behind`, `Token.Moved`.
Key theorems: `scan_meets`, `lexFrom_behind`, `lexFrom_split`, `lexFrom_through`, `lexFrom_moved`.
-/
import Mathlib.Data.List.Forall2
import ScriptHost.Proofs.Token.Trivia

namespace ScriptHost

open Source

/-- The braces. -/
def isBrace (c : Char) : Bool := c == '{' || c == '}'

/-- The second text is the first up to a place where tokens end: at a brace of both, or at a blank
of its own. -/
inductive Meets : List Char → List Char → Prop
  | brace {b : Char} (hb : isBrace b) (y y' : List Char) : Meets (b :: y) (b :: y')
  | blank {e : Char} (he : isBlank e) (c : Char) (y y' : List Char) : Meets (c :: y) (e :: y')
  | cons (c : Char) {s s' : List Char} (h : Meets s s') : Meets (c :: s) (c :: s')

variable {b c d : Char} {a s s' x y r : List Char} {p q : Position} {t u : Token} {v w : List Token}

theorem Meets.behind (h : Meets s s') : ∀ a : List Char, Meets (a ++ s) (a ++ s')
  | [] => h
  | c :: a => .cons c (h.behind a)

/-- The second text begins with a blank, or as the first does; then they go on alike behind a
character that is no brace. -/
theorem Meets.cases_head (h : Meets s s') : ∃ c r, s = c :: r ∧
    ((∃ e r', s' = e :: r' ∧ isBlank e) ∨ ∃ r', s' = c :: r' ∧ (isBrace c = false → Meets r r')) := by
  cases h with
  | @brace b hb y y' => exact ⟨b, y, rfl, .inr ⟨y', rfl, fun h => by rw [hb] at h; cases h⟩⟩
  | blank he c y y' => exact ⟨c, y, rfl, .inl ⟨_, y', rfl, he⟩⟩
  | cons c h => exact ⟨c, _, rfl, .inr ⟨_, rfl, fun _ => h⟩⟩

/-- What the second text begins with is no blank only if the first begins with it. -/
theorem Meets.head?_eq (h : Meets s s') (hc : isBlank c = false) (hs' : s'.head? = some c) :
    s.head? = some c := by
  obtain ⟨d, r, rfl, ⟨e, r', rfl, he⟩ | ⟨r', rfl, -⟩⟩ := h.cases_head
  · exact absurd (Option.some.inj hs') (ne_of_blank hc he)
  · exact hs'

/-- Where no comment starts, none starts in the second text either. -/
theorem splitComment_none_meets (hm : Meets s s') (hs : opensComment s = false)
    (h : splitComment s = none) : splitComment s' = none := by
  obtain ⟨c, r, rfl, ⟨e, r', rfl, he⟩ | ⟨r', rfl, hr⟩⟩ := hm.cases_head
  · exact splitComment_of_ne (ne_of_blank (by decide) he) r'
  by_cases hc : c = '/'
  · subst hc
    have hslash : r'.head? ≠ some '/' := by
      intro hhead
      obtain ⟨x, rfl⟩ := List.head?_eq_some_iff.mp ((hr rfl).head?_eq (by decide) hhead)
      simp [splitComment] at h
    have hstar : r'.head? ≠ some '*' := by
      intro hhead
      obtain ⟨x, rfl⟩ := List.head?_eq_some_iff.mp ((hr rfl).head?_eq (by decide) hhead)
      simp [opensComment] at hs
    unfold splitComment
    split
    · next heq => exact absurd (by rw [(List.cons.inj heq).2]; rfl) hslash
    · next heq => exact absurd (by rw [(List.cons.inj heq).2]; rfl) hstar
    · rfl
  · exact splitComment_of_ne hc r'

/-! ### Tokens in front of a boundary -/

/-- What a test that no blank passes takes in front of a text does not change with it. -/
theorem takeWhile_meets {p : Char → Bool} (hp : ∀ e, isBlank e → p e = false) (hm : Meets s s')
    (h : (a ++ s).takeWhile p = a) : (a ++ s').takeWhile p = a ∧ (a ++ s').dropWhile p = s' := by
  induction a with
  | nil =>
    obtain ⟨c, r, rfl, ⟨e, r', rfl, he⟩ | ⟨r', rfl, -⟩⟩ := hm.cases_head
    · simp [hp e he]
    · have hc : p c = false := by
        cases hp : p c with
        | true => simp [hp] at h
        | false => rfl
      simp [hc]
  | cons d a ih =>
    cases hp : p d with
    | true =>
      simp only [List.cons_append, List.takeWhile_cons, hp, ↓reduceIte, List.cons_inj_right] at h
      simp [hp, ih h]
    | false => simp [hp] at h

theorem splitQuoted_plain {quote : Char} (hc : c ≠ '\\') :
    splitQuoted quote (c :: r) =
      if c = '\n' then (false, [], c :: r)
      else if c = quote then (true, [c], r)
      else ((splitQuoted quote r).1, c :: (splitQuoted quote r).2.1, (splitQuoted quote r).2.2) := by
  rw [splitQuoted]
  · exact fun h => absurd h hc
  · exact fun _ _ h => absurd h hc

/-- A closed literal ends at its quote, whatever stands behind it. -/
theorem splitQuoted_closed {quote : Char} (h : splitQuoted quote r = (true, a, s)) (s' : List Char) :
    splitQuoted quote (a ++ s') = (true, a, s') := by
  have hplain {c : Char} {r : List Char} (h1 : c = '\\' → r = [] → False)
      (h2 : ∀ d x, c = '\\' → r = d :: x → False) : c ≠ '\\' := by
    rintro rfl
    cases r with
    | nil => exact h1 rfl rfl
    | cons d x => exact h2 d x rfl rfl
  fun_induction splitQuoted quote r generalizing a with
  | case1 => cases h
  | case2 => cases h
  | case3 c r closed taken rest hr ih =>
    cases h
    simp only [List.cons_append, splitQuoted, ih hr]
  | case4 => cases h
  | case5 r h1 h2 hn =>
    cases h
    rw [List.singleton_append, splitQuoted_plain (hplain h1 h2), if_neg hn, if_pos rfl]
  | case6 c r h1 h2 hn hq closed taken rest hr ih =>
    cases h
    rw [List.cons_append, splitQuoted_plain (hplain h1 h2), if_neg hn, if_neg hq, ih hr]

theorem splitVerbatim_plain (hc : c ≠ '"') :
    splitVerbatim (c :: r) =
      ((splitVerbatim r).1, c :: (splitVerbatim r).2.1, (splitVerbatim r).2.2) := by
  rw [splitVerbatim]
  · exact fun h => absurd h hc
  · exact fun _ _ h => absurd h hc

/-- A closed verbatim string ends at its quote, in front of anything but another quote. -/
theorem splitVerbatim_closed (hm : Meets s s') (h : splitVerbatim r = (true, a, s)) :
    splitVerbatim (a ++ s') = (true, a, s') := by
  fun_induction splitVerbatim r generalizing a with
  | case1 => cases h
  | case2 =>
    cases h
    obtain ⟨d, x, hx, -⟩ := hm.cases_head
    cases hx
  | case3 r closed taken rest hr ih =>
    cases h
    simp only [List.cons_append, splitVerbatim, ih hr, ↓reduceIte]
  | case4 c r hc =>
    cases h
    obtain ⟨d, r', rfl, hd⟩ : ∃ d r', s' = d :: r' ∧ d ≠ '"' := by
      obtain ⟨d, x, hx, ⟨e, r', rfl, he⟩ | ⟨r', rfl, -⟩⟩ := hm.cases_head
      · exact ⟨e, r', rfl, ne_of_blank (by decide) he⟩
      · exact ⟨d, r', rfl, (List.cons.inj hx).1 ▸ hc⟩
    simp only [List.cons_append, List.nil_append, splitVerbatim, if_neg hd]
  | case5 c r h1 h2 closed taken rest hr ih =>
    cases h
    have hc : c ≠ '"' := by
      rintro rfl
      cases r with
      | nil => exact h1 rfl rfl
      | cons e x => exact h2 e x rfl rfl
    rw [List.cons_append, splitVerbatim_plain hc, ih hr]

theorem splitNumber_plain (hc : c ≠ '.') :
    splitNumber (c :: r) =
      if c.isAlphanum || c == '_' then (c :: (splitNumber r).1, (splitNumber r).2)
      else ([], c :: r) := by
  rw [splitNumber]
  exact fun _ _ h => absurd h hc

theorem splitNumber_digit (hd : d.isDigit) :
    splitNumber (d :: r) = (d :: (splitNumber r).1, (splitNumber r).2) := by
  have hdot : d ≠ '.' := by
    rintro rfl
    cases hd
  rw [splitNumber_plain hdot, if_pos (by simp [Char.isAlphanum, hd])]

theorem splitNumber_blank (hc : isBlank c) : splitNumber (c :: r) = ([], c :: r) := by
  have hword : (c == '_') = false := beq_false_of_ne (ne_of_blank (by decide) hc)
  rw [splitNumber_plain (ne_of_blank (by decide) hc), if_neg (by simp [isAlphanum_of_blank hc, hword])]

/-- A number ends where it does in front of other texts. -/
theorem splitNumber_meets (hm : Meets s s') (h : splitNumber r = (a, s)) :
    splitNumber (a ++ s') = (a, s') := by
  fun_induction splitNumber r generalizing a with
  | case1 d r hd taken rest hr ih =>
    cases h
    have ih := ih hr
    rw [splitNumber_digit hd] at hr
    obtain ⟨rfl, -⟩ := Prod.mk.inj hr
    rw [List.cons_append] at ih
    rw [List.cons_append, List.cons_append, splitNumber, if_pos hd, ih]
  | case2 d r hd =>
    cases h
    obtain ⟨c, x, hx, ⟨e, r', rfl, he⟩ | ⟨r', rfl, hr'⟩⟩ := hm.cases_head
    · exact splitNumber_blank he
    obtain ⟨rfl, rfl⟩ := List.cons.inj hx
    obtain ⟨f, z, rfl, hf⟩ : ∃ f z, r' = f :: z ∧ f.isDigit = false := by
      obtain ⟨f, x, hx, ⟨e, z, rfl, he⟩ | ⟨z, rfl, -⟩⟩ := (hr' rfl).cases_head
      · exact ⟨e, z, rfl, isDigit_of_blank he⟩
      · exact ⟨f, z, rfl, by simpa [(List.cons.inj hx).1] using hd⟩
    simp [splitNumber, hf]
  | case3 c r hdot hc taken rest hr ih =>
    cases h
    have hne : c ≠ '.' := by
      rintro rfl
      cases hc
    rw [List.cons_append, splitNumber_plain hne, if_pos hc, ih hr]
  | case4 c r hdot hc =>
    cases h
    obtain ⟨e, x, hx, ⟨e, r', rfl, he⟩ | ⟨r', rfl, hr'⟩⟩ := hm.cases_head
    · exact splitNumber_blank he
    obtain ⟨rfl, rfl⟩ := List.cons.inj hx
    have hne : c ≠ '.' := by
      rintro rfl
      obtain ⟨f, z, rfl, -⟩ := (hr' rfl).cases_head
      exact hdot f z rfl rfl
    rw [List.nil_append, splitNumber_plain hne, if_neg hc]
  | case5 =>
    cases h
    obtain ⟨c, x, hx, -⟩ := hm.cases_head
    cases hx

theorem scanQuoted_meets {quote : Char} {kind k : TokenKind} {lead seen l : List Char}
    (h : scanQuoted quote kind lead seen r = ⟨.token k l, a, s⟩) :
    ∃ inner, a = seen ++ inner ∧
      ∀ s', scanQuoted quote kind lead seen (inner ++ s') = ⟨.token k l, a, s'⟩ := by
  unfold scanQuoted at h
  split at h
  · next inner rest hr =>
    obtain ⟨hk, rfl, rfl⟩ := Scan.mk.inj h
    refine ⟨inner, rfl, fun s' => ?_⟩
    rw [scanQuoted, splitQuoted_closed hr]
    simp only [hk]
  · cases h

theorem scanVerbatim_meets {k : TokenKind} {lead seen l : List Char} (hm : Meets s s')
    (h : scanVerbatim lead seen r = ⟨.token k l, a, s⟩) :
    ∃ inner, a = seen ++ inner ∧ scanVerbatim lead seen (inner ++ s') = ⟨.token k l, a, s'⟩ := by
  unfold scanVerbatim at h
  split at h
  · next inner rest hr =>
    obtain ⟨hk, rfl, rfl⟩ := Scan.mk.inj h
    refine ⟨inner, rfl, ?_⟩
    rw [scanVerbatim, splitVerbatim_closed hm hr]
    simp only [hk]
  · cases h

theorem scanMarked_meets {k : TokenKind} {l : List Char} (hm : Meets s s')
    (h : scanMarked c (a ++ s) = ⟨.token k l, a, s⟩) :
    scanMarked c (a ++ s') = ⟨.token k l, a, s'⟩ := by
  generalize hmarks : (a ++ s).takeWhile isMark = marks at h
  have hsplit := List.takeWhile_append_dropWhile (p := isMark) (l := a ++ s)
  rw [hmarks] at hsplit
  -- the marks end in front of a text of which the scan takes a part
  have hmarked {after b : List Char} (ha : marks ++ after = a ++ s) (hb : marks ++ b = a ++ s')
      (hmeets : Meets after b) :
      (a ++ s').takeWhile isMark = marks ∧ (a ++ s').dropWhile isMark = b := by
    rw [← hb]
    refine takeWhile_meets (fun _ => isMark_of_blank) hmeets ?_
    rw [ha, hmarks]
  unfold scanMarked at h ⊢
  simp only [hmarks] at h
  split at h
  · cases h
  · next inner hafter =>
    rw [hafter] at hsplit
    split at h
    · next hverbatim =>
      obtain ⟨more, rfl, hmore⟩ := scanVerbatim_meets hm h
      have hinner : inner = more ++ s := by simpa using hsplit
      obtain ⟨ht, hd⟩ := hmarked hsplit (b := '"' :: (more ++ s')) (by simp)
        (hinner ▸ (hm.behind more).cons _)
      simp only [ht, hd, if_pos hverbatim, hmore]
    · next hverbatim =>
      obtain ⟨more, rfl, hmore⟩ := scanQuoted_meets h
      have hinner : inner = more ++ s := by simpa using hsplit
      obtain ⟨ht, hd⟩ := hmarked hsplit (b := '"' :: (more ++ s')) (by simp)
        (hinner ▸ (hm.behind more).cons _)
      simp only [ht, hd, if_neg hverbatim, hmore]
  · next d after hq hafter =>
    split at h
    · next hverbatim =>
      obtain ⟨hk, ha, hs⟩ := Scan.mk.inj h
      generalize hname : ((a ++ s).dropWhile isMark).takeWhile isIdentContinue = name at hk ha
      subst ha
      have hafter' : (marks ++ name ++ s).dropWhile isMark = name ++ s :=
        List.append_cancel_left (hsplit.trans (List.append_assoc ..))
      rw [hafter'] at hname
      obtain ⟨ht, hd⟩ := hmarked (List.append_assoc ..).symm (List.append_assoc ..).symm
        (hm.behind name)
      obtain ⟨htn, hdn⟩ := takeWhile_meets (fun _ => isIdentContinue_of_blank) hm hname
      -- the name is not empty, so that it begins alike in both texts
      obtain ⟨name', rfl⟩ : ∃ name', name = d :: name' := by
        have hd : isIdentContinue d := by
          have hstart := (Bool.and_eq_true_iff.mp hverbatim).2
          rcases Bool.or_eq_true_iff.mp hstart with h | h <;> simp [isIdentContinue, h]
        rw [hafter'] at hafter
        rw [hafter, List.takeWhile_cons_of_pos hd] at hname
        exact ⟨_, hname.symm⟩
      rw [List.cons_append] at htn hdn
      simp only [ht, hd, List.cons_append]
      rw [if_pos hverbatim, htn, hdn, hk]
    · cases h

theorem pair?_of_blank (hd : isBlank d) : pair? c d = none := by
  unfold pair?
  split
  · exact absurd rfl (ne_of_blank (by decide) hd)
  · exact absurd rfl (ne_of_blank (by decide) hd)
  · exact absurd rfl (ne_of_blank (by decide) hd)
  · exact absurd rfl (ne_of_blank (by decide) hd)
  · exact absurd rfl (ne_of_blank (by decide) hd)
  · rfl

theorem scanPunctuation_meets {k : TokenKind} {l : List Char} (hm : Meets s s')
    (h : scanPunctuation c (a ++ s) = ⟨.token k l, a, s⟩) :
    scanPunctuation c (a ++ s') = ⟨.token k l, a, s'⟩ := by
  obtain ⟨d, x, hx, -⟩ := (hm.behind a).cases_head
  unfold scanPunctuation at h
  rw [hx] at h
  simp only at h
  split at h
  · next kind hpair =>
    obtain ⟨hk, rfl, -⟩ := Scan.mk.inj h
    simp only [scanPunctuation, List.singleton_append, hpair, hk]
  · next hpair =>
    split at h
    · next kind hsingle =>
      obtain ⟨hk, rfl, rfl⟩ := Scan.mk.inj h
      obtain ⟨e, r', rfl, he⟩ : ∃ e r', s' = e :: r' ∧ pair? c e = none := by
        obtain ⟨e, z, hz, ⟨e', r', rfl, he⟩ | ⟨r', rfl, -⟩⟩ := hm.cases_head
        · exact ⟨e', r', rfl, pair?_of_blank he⟩
        · exact ⟨e, r', rfl, (List.cons.inj hz).1 ▸ hpair⟩
      simp only [scanPunctuation, List.nil_append, he, hsingle, hk]
    · cases h

/-- **A token is scanned alike in front of other texts.** -/
theorem scan_meets {k : TokenKind} {l : List Char} (hm : Meets s s')
    (h : scan c (a ++ s) = ⟨.token k l, a, s⟩) : scan c (a ++ s') = ⟨.token k l, a, s'⟩ := by
  unfold scan at h ⊢
  split at h
  · cases h
  next h1 =>
  rw [if_neg fun hopen => h1 ⟨hopen.1, (hm.behind a).head?_eq (by decide) hopen.2⟩]
  split at h
  · next h2 =>
    obtain ⟨inner, rfl, hinner⟩ := scanQuoted_meets h
    rw [if_pos h2]
    exact hinner s'
  next h2 =>
  rw [if_neg h2]
  split at h
  · next h3 =>
    obtain ⟨inner, rfl, hinner⟩ := scanQuoted_meets h
    rw [if_pos h3]
    exact hinner s'
  next h3 =>
  rw [if_neg h3]
  split at h
  · next h4 => rw [if_pos h4, scanMarked_meets hm h]
  next h4 =>
  rw [if_neg h4]
  split at h
  · next h5 =>
    obtain ⟨hk, ha, hs⟩ := Scan.mk.inj h
    rw [if_pos h5, scanNumber, splitNumber_meets hm (Prod.ext ha hs), ← hk, ha]
  next h5 =>
  rw [if_neg h5]
  split at h
  · next h6 =>
    obtain ⟨hk, ha, hs⟩ := Scan.mk.inj h
    obtain ⟨ht, hd⟩ := takeWhile_meets (fun _ => isIdentContinue_of_blank) hm ha
    rw [ha] at hk
    rw [if_pos h6]
    simp only [scanWord, ht, hd, hk]
  · next h6 => rw [if_neg h6, scanPunctuation_meets hm h]

/-! ### Lexing from a place on -/

/-- The lexemes of a text that starts at `p`. -/
def lexFrom (p : Position) (cs : List Char) : Lexed := lexWithin (cs.length + 1) p cs

theorem tiles_lexFrom (p : Position) (cs : List Char) : Tiles p cs (lexFrom p cs).tokens :=
  tiles_lexWithin _ p cs

/-- What was lexed behind some tokens. -/
def Lexed.behind (v : List Token) (l : Lexed) : Lexed := ⟨v.map .token ++ l.lexemes, l.finish⟩

@[simp] theorem Lexed.tokens_behind (v : List Token) (l : Lexed) :
    (l.behind v).tokens = v ++ l.tokens := by
  simp only [behind, tokens, List.filterMap_append, List.filterMap_map]
  congr 1
  exact List.filterMap_some

@[simp] theorem Lexed.errors_behind (v : List Token) (l : Lexed) :
    (l.behind v).errors = l.errors := by
  simp [behind, errors, List.filterMap_map]

theorem Lexed.behind_append (v w : List Token) (l : Lexed) :
    l.behind (v ++ w) = (l.behind w).behind v := by
  simp [behind]

/-- The bound on the lexemes never bites: each takes a character. -/
theorem lexWithin_eq : ∀ {n m : Nat} {p : Position} {cs : List Char}, cs.length < n → cs.length < m →
    lexWithin n p cs = lexWithin m p cs
  | 0, m, p, cs, hn, hm => by omega
  | n + 1, 0, p, cs, hn, hm => by omega
  | n + 1, m + 1, p, cs, hn, hm => by
    simp only [lexWithin]
    have htrivia := congrArg List.length (trivia_append cs)
    cases hta : (trivia cs).2 with
    | nil => rfl
    | cons c r =>
      have hscan := congrArg List.length (scan_taken_rest c r)
      simp only [hta, List.length_append, List.length_cons] at htrivia hscan
      simp only
      rw [lexWithin_eq (n := n) (m := m) (by omega) (by omega)]

theorem lexFrom_nil {cs : List Char} (h : trivia cs = (a, [])) :
    lexFrom p cs = ⟨[], p.advance a⟩ := by
  simp only [lexFrom, lexWithin, h]

/-- One lexeme, and those behind it. -/
theorem lexFrom_cons {cs : List Char} (h : trivia cs = (a, c :: r)) :
    lexFrom p cs =
      ⟨(scan c r).lexeme (p.advance a) (c :: (scan c r).taken) ::
          (lexFrom ((p.advance a).advance (c :: (scan c r).taken)) (scan c r).rest).lexemes,
        (lexFrom ((p.advance a).advance (c :: (scan c r).taken)) (scan c r).rest).finish⟩ := by
  have htrivia := congrArg List.length (trivia_append cs)
  have hscan := congrArg List.length (scan_taken_rest c r)
  simp only [h, List.length_append, List.length_cons] at htrivia hscan
  have hfuel : lexWithin cs.length ((p.advance a).advance (c :: (scan c r).taken)) (scan c r).rest =
      lexWithin ((scan c r).rest.length + 1) ((p.advance a).advance (c :: (scan c r).taken))
        (scan c r).rest := lexWithin_eq (by omega) (by omega)
  rw [lexFrom, lexWithin, h]
  simp only [hfuel, lexFrom]

/-- A token, and the lexemes behind it. -/
theorem lexFrom_token {cs : List Char} {k : TokenKind} {l : List Char}
    (h : trivia cs = (a, c :: r)) (hs : scan c r = ⟨.token k l, x, y⟩) :
    lexFrom p cs =
      (lexFrom (p.advance (a ++ c :: x)) y).behind
        [⟨k, String.ofList l, p.advance a, byteLength (c :: x)⟩] := by
  rw [lexFrom_cons h, hs, Position.advance_append]
  rfl

/-- Of two fronts of a text the one with fewer bytes is a front of the other. -/
theorem append_of_byteLength_le (h : a ++ r = x ++ y) (hle : byteLength a ≤ byteLength x) :
    ∃ z, x = a ++ z ∧ r = z ++ y := by
  rcases List.append_eq_append_iff.mp h with ⟨z, hx, hr⟩ | ⟨z, ha, hy⟩
  · exact ⟨z, hx, hr⟩
  · cases z with
    | nil => exact ⟨[], by simpa using ha.symm, by simpa using hy.symm⟩
    | cons c z =>
      have hpos := c.utf8Size_pos
      rw [ha, byteLength_append, byteLength_cons] at hle
      omega

theorem append_inj_of_byteLength (h : a ++ r = x ++ y) (heq : byteLength a = byteLength x) :
    a = x ∧ r = y := by
  obtain ⟨z, rfl, rfl⟩ := append_of_byteLength_le h (Nat.le_of_eq heq)
  cases z with
  | nil => exact ⟨(List.append_nil a).symm, rfl⟩
  | cons c z =>
    have hpos := c.utf8Size_pos
    rw [byteLength_append, byteLength_cons] at heq
    omega

/-- Tokens start behind the place where the text starts. -/
theorem Tiles.offset_le {cs : List Char} {ts : List Token} (h : Tiles p cs ts) :
    ∀ t ∈ ts, p.offset ≤ t.start.offset := by
  induction h with
  | nil => simp
  | @cons p gap text rest t r start length spelled more ih =>
    have ht : p.offset ≤ t.start.offset := by
      rw [start, advance_offset]
      exact Nat.le_add_right _ _
    intro u hu
    rcases List.mem_cons.mp hu with rfl | hu
    · exact ht
    · have hle := ih u hu
      rw [advance_offset] at hle
      omega

/-- No trivia start with a brace. -/
theorem trivia_brace (hb : isBrace b) (y : List Char) : trivia (b :: y) = ([], b :: y) := by
  obtain rfl | rfl : b = '{' ∨ b = '}' := by simpa [isBrace] using hb
  · have hblank : isBlank '{' = false := by decide
    simp [trivia, triviaWithin, splitBlanks_cons, hblank, splitComment]
  · have hblank : isBlank '}' = false := by decide
    simp [trivia, triviaWithin, splitBlanks_cons, hblank, splitComment]

/-- A token that was scanned does not start a comment. -/
theorem opensComment_of_token {k : TokenKind} {l : List Char} (h : (scan c r).verdict = .token k l) :
    opensComment (c :: r) = false := by
  cases hc : opensComment (c :: r) with
  | false => rfl
  | true =>
    have hopen : c = '/' ∧ r.head? = some '*' := by simpa [opensComment] using hc
    rw [scan, if_pos hopen] at h
    cases h

/-- The first token of a text without errors stands behind its trivia, and the others are those of
the text behind it. -/
theorem exists_first {cs : List Char} (herrors : (lexFrom p cs).errors = [])
    (htokens : (lexFrom p cs).tokens = t :: w) :
    ∃ (a : List Char) (c : Char) (taken rest : List Char) (k : TokenKind) (l : List Char),
      cs = a ++ c :: (taken ++ rest) ∧ trivia cs = (a, c :: (taken ++ rest)) ∧
        scan c (taken ++ rest) = ⟨.token k l, taken, rest⟩ ∧
        t = ⟨k, String.ofList l, p.advance a, byteLength (c :: taken)⟩ ∧
        (lexFrom (p.advance (a ++ c :: taken)) rest).tokens = w ∧
        (lexFrom (p.advance (a ++ c :: taken)) rest).errors = [] := by
  obtain ⟨a, after, ha⟩ : ∃ a after, trivia cs = (a, after) := ⟨_, _, rfl⟩
  have htrivia := trivia_append cs
  rw [ha] at htrivia
  cases after with
  | nil =>
    rw [lexFrom_nil ha] at htokens
    cases htokens
  | cons c r =>
    cases hv : (scan c r).verdict with
    | fault fault length =>
      rw [lexFrom_cons ha] at herrors
      simp [Lexed.errors, Scan.lexeme, hv] at herrors
    | token k l =>
      obtain ⟨taken, rest, hscan⟩ : ∃ taken rest, scan c r = ⟨.token k l, taken, rest⟩ :=
        ⟨_, _, by rw [← hv]⟩
      have hr := scan_taken_rest c r
      rw [hscan] at hr
      obtain rfl : taken ++ rest = r := hr
      rw [lexFrom_token ha hscan, Lexed.tokens_behind] at htokens
      rw [lexFrom_token ha hscan, Lexed.errors_behind] at herrors
      obtain ⟨rfl, hmore⟩ := List.cons.inj htokens
      exact ⟨a, c, taken, rest, k, l, htrivia.symm, ha, hscan, rfl, hmore, herrors⟩

/-- A byte-order mark starts no token. -/
theorem scan_byteOrderMark (r : List Char) :
    (scan '\ufeff' r).verdict = .fault (.unexpectedChar '\ufeff') 3 := by
  have hmark : isMark '\ufeff' = false := by decide
  have hdigit : Char.isDigit '\ufeff' = false := by decide
  have hstart : isIdentStart '\ufeff' = false := by decide +kernel
  have hpair (d : Char) : pair? '\ufeff' d = none := by simp [pair?]
  cases r <;> simp [scan, hmark, hdigit, hstart, scanPunctuation, hpair, punctuation?] <;> rfl

/-- What starts a token starts no trivia. -/
theorem first_of_token {k : TokenKind} {l cs : List Char} (h : trivia cs = (a, c :: r))
    (hs : (scan c r).verdict = .token k l) :
    c ≠ '\ufeff' ∧ isBlank c = false ∧ splitComment (c :: r) = none := by
  refine ⟨?_, head_of_trivia h⟩
  rintro rfl
  rw [scan_byteOrderMark] at hs
  cases hs

/-- Lexing goes on behind the trivia. -/
theorem lexFrom_trivia (h : trivia x = (a, s)) (hs : trivia s = ([], s)) :
    lexFrom p x = lexFrom (p.advance a) s := by
  cases s with
  | nil => rw [lexFrom_nil h, lexFrom_nil hs, Position.advance_nil]
  | cons c r => rw [lexFrom_cons h, lexFrom_cons hs, Position.advance_nil]

/-- The first of several tokens in front of a place ends in front of it, and the others are those of
the text between the two. -/
theorem exists_first_before (herrors : (lexFrom p (x ++ s)).errors = [])
    (htokens : (lexFrom p (x ++ s)).tokens = u :: (v ++ t :: w))
    (hstart : t.start.offset = p.offset + byteLength x) :
    ∃ (a : List Char) (c : Char) (taken z : List Char) (k : TokenKind) (l : List Char),
      x = a ++ c :: taken ++ z ∧ trivia (a ++ c :: (taken ++ (z ++ s))) = (a, c :: (taken ++ (z ++ s))) ∧
        scan c (taken ++ (z ++ s)) = ⟨.token k l, taken, z ++ s⟩ ∧
        u = ⟨k, String.ofList l, p.advance a, byteLength (c :: taken)⟩ ∧
        (lexFrom (p.advance (a ++ c :: taken)) (z ++ s)).tokens = v ++ t :: w ∧
        (lexFrom (p.advance (a ++ c :: taken)) (z ++ s)).errors = [] ∧
        t.start.offset = (p.advance (a ++ c :: taken)).offset + byteLength z := by
  obtain ⟨a, c, taken, rest, k, l, hall, ha, hscan, rfl, hmore, hnone⟩ :=
    exists_first herrors htokens
  -- the next tokens start behind this one, so it stands in front of the place
  have hbefore : byteLength (a ++ c :: taken) ≤ byteLength x := by
    have hle := (tiles_lexFrom (p.advance (a ++ c :: taken)) rest).offset_le t (by
      rw [hmore]
      simp)
    rw [hstart, advance_offset] at hle
    omega
  obtain ⟨z, rfl, rfl⟩ := append_of_byteLength_le (a := a ++ c :: taken) (r := rest)
    (by rw [hall]; simp) hbefore
  rw [hall] at ha
  refine ⟨a, c, taken, z, k, l, rfl, ha, hscan, rfl, hmore, hnone, ?_⟩
  rw [hstart, advance_offset, byteLength_append, Nat.add_assoc]

/-- A token that starts at a place is the first of the text from there on. -/
theorem exists_first_at (herrors : (lexFrom p (x ++ s)).errors = [])
    (htokens : (lexFrom p (x ++ s)).tokens = t :: w)
    (hstart : t.start.offset = p.offset + byteLength x) :
    ∃ (c : Char) (r : List Char), s = c :: r ∧ trivia (x ++ c :: r) = (x, c :: r) ∧
      c ≠ '\ufeff' ∧ isBlank c = false ∧ splitComment (c :: r) = none := by
  obtain ⟨a, c, taken, rest, k, l, hall, ha, hscan, rfl, -⟩ := exists_first herrors htokens
  rw [advance_offset, Nat.add_left_cancel_iff] at hstart
  obtain ⟨rfl, rfl⟩ := append_inj_of_byteLength hall hstart.symm
  exact ⟨c, _, rfl, ha, first_of_token ha (congrArg Scan.verdict hscan)⟩

/-- **The tokens in front of a place where one starts are the same if blanks, and a text without
trivia at its front, stand there instead**, and the lexemes go on from there, by induction on these
tokens. -/
theorem lexFrom_behind {blanks : List Char} (hw : ∀ c ∈ blanks, isBlank c) (hs' : trivia s' = ([], s'))
    (hm : Meets s (blanks ++ s')) : ∀ {v w : List Token} {p : Position} {x : List Char},
    (lexFrom p (x ++ s)).errors = [] → (lexFrom p (x ++ s)).tokens = v ++ t :: w →
      t.start.offset = p.offset + byteLength x →
        lexFrom p (x ++ (blanks ++ s')) = (lexFrom (p.advance x) (blanks ++ s')).behind v
  | [], w, p, x, herrors, htokens, hstart => by
    obtain ⟨c, r, rfl, hx, -⟩ := exists_first_at herrors htokens hstart
    rw [lexFrom_trivia (trivia_stay hx (List.cons_ne_nil _ _) hw hs') hs',
      lexFrom_trivia (trivia_blanks hw hs') hs', Position.advance_append]
    rfl
  | u :: v, w, p, x, herrors, htokens, hstart => by
    obtain ⟨a, c, taken, z, k, l, rfl, ha, hscan, rfl, hmore, hnone, hstart⟩ :=
      exists_first_before herrors htokens hstart
    have hmeets := hm.behind z
    have htoken := congrArg Scan.verdict hscan
    obtain ⟨hmark, hblank, hcomment⟩ := first_of_token ha htoken
    have hcomment' := splitComment_none_meets ((hmeets.behind taken).cons c)
      (opensComment_of_token htoken) hcomment
    have ha' := trivia_stay (w := []) ha (List.cons_ne_nil _ _) (by simp)
      (trivia_of_first hmark hblank hcomment')
    rw [List.nil_append, List.append_nil] at ha'
    have hsplit : a ++ c :: (taken ++ (z ++ (blanks ++ s'))) =
        a ++ c :: taken ++ z ++ (blanks ++ s') := by simp
    rw [hsplit] at ha'
    rw [lexFrom_token ha' (scan_meets hmeets hscan), lexFrom_behind hw hs' hm hnone hmore hstart,
      ← Lexed.behind_append, ← Position.advance_append, List.singleton_append]

/-- The tokens in front of a brace that starts one are the same whatever stands behind it. -/
theorem lexFrom_brace_behind (hb : isBrace b) (herrors : (lexFrom p (x ++ b :: y)).errors = [])
    (htokens : (lexFrom p (x ++ b :: y)).tokens = v ++ t :: w)
    (hstart : t.start.offset = p.offset + byteLength x) (y' : List Char) :
    lexFrom p (x ++ b :: y') = (lexFrom (p.advance x) (b :: y')).behind v := by
  have hmeets : Meets (b :: y) ([] ++ b :: y') := .brace hb y y'
  exact lexFrom_behind (by simp) (trivia_brace hb y') hmeets herrors htokens hstart

/-- From a token on a text is read as it stands there. -/
theorem lexFrom_split : ∀ {v w : List Token} {p : Position} {x : List Char},
    (lexFrom p (x ++ s)).errors = [] → (lexFrom p (x ++ s)).tokens = v ++ t :: w →
      t.start.offset = p.offset + byteLength x → trivia s = ([], s) ∧
        lexFrom p (x ++ s) = (lexFrom (p.advance x) s).behind v
  | [], w, p, x, herrors, htokens, hstart => by
    obtain ⟨c, r, rfl, hx, hmark, hblank, hcomment⟩ := exists_first_at herrors htokens hstart
    have hs := trivia_of_first hmark hblank hcomment
    exact ⟨hs, lexFrom_trivia hx hs⟩
  | u :: v, w, p, x, herrors, htokens, hstart => by
    obtain ⟨a, c, taken, z, k, l, rfl, ha, hscan, rfl, hmore, hnone, hstart⟩ :=
      exists_first_before herrors htokens hstart
    obtain ⟨hs, hsplit⟩ := lexFrom_split hnone hmore hstart
    have hall : a ++ c :: taken ++ z ++ s = a ++ c :: (taken ++ (z ++ s)) := by simp
    refine ⟨hs, ?_⟩
    rw [hall, lexFrom_token ha hscan, hsplit, ← Lexed.behind_append, ← Position.advance_append,
      List.singleton_append]

/-- The kind of a brace. -/
def braceKind (b : Char) : TokenKind := if b = '{' then .opening .brace else .closing .brace

theorem scan_brace (hb : isBrace b) (y : List Char) : scan b y = ⟨.token (braceKind b) [b], [], y⟩ := by
  obtain rfl | rfl : b = '{' ∨ b = '}' := by simpa [isBrace] using hb
  · have hstart : isIdentStart '{' = false := by decide
    have hpair (d : Char) : pair? '{' d = none := by simp [pair?]
    cases y <;> simp [scan, isMark, hstart, scanPunctuation, hpair, punctuation?, braceKind]
  · have hstart : isIdentStart '}' = false := by decide
    have hpair (d : Char) : pair? '}' d = none := by simp [pair?]
    cases y <;> simp [scan, isMark, hstart, scanPunctuation, hpair, punctuation?, braceKind]

/-- A brace is a token, and the lexemes go on behind it. -/
theorem lexFrom_brace (hb : isBrace b) (p : Position) (y : List Char) :
    lexFrom p (b :: y) = (lexFrom (p.step b) y).behind [⟨braceKind b, String.ofList [b], p, 1⟩] := by
  have hsize : byteLength [b] = 1 := by
    obtain rfl | rfl : b = '{' ∨ b = '}' := by simpa [isBrace] using hb
    · rfl
    · rfl
  rw [lexFrom_token (trivia_brace hb y) (scan_brace hb y), hsize]
  rfl

/-- The token of a brace is that character. -/
theorem eq_of_brace (hb : isBrace b) (herrors : (lexFrom p (x ++ b :: y)).errors = [])
    (htokens : (lexFrom p (x ++ b :: y)).tokens = v ++ t :: w)
    (hstart : t.start.offset = p.offset + byteLength x) :
    t = ⟨braceKind b, String.ofList [b], p.advance x, 1⟩ := by
  have htoken := lexFrom_brace_behind hb herrors htokens hstart y
  rw [lexFrom_brace hb] at htoken
  rw [htoken] at htokens
  simp only [Lexed.tokens_behind, List.append_cancel_left_eq, List.singleton_append] at htokens
  exact (List.cons.inj htokens).1.symm

/-- **The lexemes up to a brace, it included, are the same whatever stands behind it.** -/
theorem lexFrom_through (hb : isBrace b) (herrors : (lexFrom p (x ++ b :: y)).errors = [])
    (htokens : (lexFrom p (x ++ b :: y)).tokens = v ++ t :: w)
    (hstart : t.start.offset = p.offset + byteLength x) (y' : List Char) :
    lexFrom p (x ++ b :: y') = (lexFrom (p.advance (x ++ [b])) y').behind (v ++ [t]) := by
  rw [lexFrom_brace_behind hb herrors htokens hstart y', lexFrom_brace hb, Lexed.behind_append,
    Position.advance_append, eq_of_brace hb herrors htokens hstart]
  rfl

/-! ### Other places -/

/-- The same token in a text that starts at `p` and in one that starts at `q`. -/
structure Token.Moved (p q : Position) (t u : Token) : Prop where
  kind : t.kind = u.kind
  lexeme : t.lexeme = u.lexeme
  length : t.length = u.length
  start : ∃ a, t.start = p.advance a ∧ u.start = q.advance a

theorem Token.Moved.behind {a : List Char} (h : t.Moved (p.advance a) (q.advance a) u) :
    t.Moved p q u := by
  obtain ⟨x, hx, hx'⟩ := h.start
  exact ⟨h.kind, h.lexeme, h.length, a ++ x, by rw [hx, Position.advance_append],
    by rw [hx', Position.advance_append]⟩

theorem lexWithin_moved : ∀ (n : Nat) (p q : Position) (cs : List Char),
    List.Forall₂ (Token.Moved p q) (lexWithin n p cs).tokens (lexWithin n q cs).tokens ∧
      ((lexWithin n p cs).errors = [] → (lexWithin n q cs).errors = [])
  | 0, p, q, cs => ⟨.nil, id⟩
  | n + 1, p, q, cs => by
    unfold lexWithin
    cases hta : (trivia cs).2 with
    | nil => simp [hta, Lexed.tokens, Lexed.errors]
    | cons c r =>
      simp only [hta]
      obtain ⟨htokens, herrors⟩ := lexWithin_moved n
        ((p.advance (trivia cs).1).advance (c :: (scan c r).taken))
        ((q.advance (trivia cs).1).advance (c :: (scan c r).taken)) (scan c r).rest
      have hmore := htokens.imp fun t u h => h.behind.behind
      cases hv : (scan c r).verdict with
      | token kind lexeme =>
        simp only [Lexed.tokens, Lexed.errors, Scan.lexeme, hv, List.filterMap_cons]
        exact ⟨.cons ⟨rfl, rfl, rfl, _, rfl, rfl⟩ hmore, herrors⟩
      | fault fault length =>
        simp only [Lexed.tokens, Lexed.errors, Scan.lexeme, hv, List.filterMap_cons]
        exact ⟨hmore, fun h => by cases h⟩

/-- **Where a text starts only moves its tokens.** -/
theorem lexFrom_moved (p q : Position) (cs : List Char) :
    List.Forall₂ (Token.Moved p q) (lexFrom p cs).tokens (lexFrom q cs).tokens ∧
      ((lexFrom p cs).errors = [] → (lexFrom q cs).errors = []) :=
  lexWithin_moved _ p q cs

/-- A text is read to its end. -/
theorem finish_lexWithin : ∀ (n : Nat) (p : Position) (cs : List Char),
    (lexWithin n p cs).finish = p.advance cs
  | 0, p, cs => rfl
  | n + 1, p, cs => by
    have htrivia := trivia_append cs
    unfold lexWithin
    cases hta : (trivia cs).2 with
    | nil =>
      rw [hta, List.append_nil] at htrivia
      simp only [hta, htrivia]
    | cons c r =>
      have hscan := scan_taken_rest c r
      simp only [hta, finish_lexWithin n, ← Position.advance_append]
      rw [List.append_assoc, List.cons_append, hscan, ← hta, htrivia]

end ScriptHost
