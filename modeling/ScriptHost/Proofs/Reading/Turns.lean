/-
# The turns at the items of a script

Every turn reads a token, also one that fails and recovers. So the bound on the number of
turns never bites: what is read of some tokens is the items and problems of a run of turns
that ends where the tokens end, and a run may be cut at any point between two turns.

Key definitions: `Cursor.Before`, `Cursor.itemsFrom`, `Turns`.
Key theorems: `turn_before`, `itemsWithin_eq`, `Turns.itemsFrom_eq`, `turns_to_end`,
`Cursor.items_eq_iff`, `Script.parse_eq_ok_iff`.
-/
import ScriptHost.Proofs.Reading.Forward

namespace ScriptHost

open Parse

/-- A token at least stands between the two places. -/
def Cursor.Before (c d : Cursor) : Prop := ∃ w, w ≠ [] ∧ c.rest = w ++ d.rest ∧ d.finish = c.finish

variable {c d : Cursor} {t : Token} {r : List Token}

theorem Cursor.Before.length_lt (h : c.Before d) : d.rest.length < c.rest.length := by
  obtain ⟨w, hw, hr, -⟩ := h
  have hpos := List.length_pos_iff.mpr hw
  rw [hr, List.length_append]
  omega

/-- What leaves less than it was given has read a token. -/
theorem Cursor.before_of_length {w : List Token} (hw : c.rest = w ++ d.rest) (hf : d.finish = c.finish)
    (hl : d.rest.length < c.rest.length) : c.Before d := by
  refine ⟨w, ?_, hw, hf⟩
  rintro rfl
  rw [hw, List.nil_append] at hl
  omega

theorem Cursor.Before.behind {e : Cursor} {w : List Token} (h : c.Before d) (hw : d.rest = w ++ e.rest)
    (hf : e.finish = d.finish) : c.Before e := by
  obtain ⟨v, hv, hr, hfd⟩ := h
  exact ⟨v ++ w, by simp [hv], by rw [hr, hw, List.append_assoc], hf.trans hfd⟩

/-! ### Recovery -/

theorem suffix_resume : ∀ (depth : Nat) (r : List Token), ∃ w, r = w ++ resume depth r
  | depth, [] => ⟨[], by cases depth <;> rfl⟩
  | depth, t :: r => by
    have hskip (n : Nat) : ∃ w, t :: r = w ++ resume n r := by
      obtain ⟨w, hw⟩ := suffix_resume n r
      exact ⟨t :: w, by rw [List.cons_append, ← hw]⟩
    unfold resume
    split
    · exact hskip _
    · split
      · exact ⟨[t], rfl⟩
      · split
        · exact ⟨[t], rfl⟩
        · exact hskip _
      · exact hskip _
    · split
      · exact ⟨[t], rfl⟩
      · exact hskip _
    · split
      · exact ⟨[], rfl⟩
      · exact hskip _

/-- A turn that fails reads the first of its tokens in any case. -/
theorem recover_before {w : List Token} (e : ParseError) (hr : c.rest = t :: r)
    (hw : c.rest = w ++ d.rest) (hf : d.finish = c.finish) : c.Before (Turn.recover c e d).next := by
  obtain ⟨v, hv⟩ := suffix_resume 0 (if d.rest.length = c.rest.length then d.tail else d).rest
  have hbefore : c.Before (if d.rest.length = c.rest.length then d.tail else d) := by
    split
    · next hl =>
      have hnil : w = [] := by
        have hlen := congrArg List.length hw
        rw [List.length_append] at hlen
        exact List.length_eq_zero_iff.mp (by omega)
      have hd : d.rest = t :: r := by rw [← hr, hw, hnil, List.nil_append]
      exact ⟨[t], by simp, by simp [Cursor.tail, Cursor.goto, hd, hr], hf⟩
    · next hl =>
      refine Cursor.before_of_length hw hf ?_
      have hlen := congrArg List.length hw
      rw [List.length_append] at hlen
      omega
  exact hbefore.behind hv rfl

theorem ofReply_before {reply : Reply Item} (hr : c.rest = t :: r) (h : Leaves c reply)
    (ht : ∀ a d, reply = .done a d → d.rest.length < c.rest.length) :
    c.Before (Turn.ofReply c reply).next := by
  obtain ⟨w, hw, hf, -⟩ := h
  cases reply with
  | done item d => exact Cursor.before_of_length hw hf (ht item d rfl)
  | failed e d => exact recover_before e hr hw hf

/-! ### Statements and directives -/

/-- A group takes its opening bracket, whether it is closed or not. -/
theorem skipGroup_before {pair : Delimiter} (hr : c.rest = t :: r) (hk : t.kind = .opening pair) :
    c.Before (skipGroup c).next := by
  obtain ⟨w, hw, hf, -⟩ := reads_skipGroup c
  refine Cursor.before_of_length hw hf ?_
  simp only [skipGroup, hr, hk]
  split
  · next closer rest hc =>
    obtain ⟨v, last, rfl, -, -⟩ := nest_of_closed hc
    simp only [Reply.next, Cursor.goto, List.length_cons, List.length_append]
    omega
  · next closer other rest hc =>
    obtain ⟨v, rfl⟩ := suffix_of_mismatched hc
    simp only [Reply.next, Cursor.goto, List.length_cons, List.length_append]
    omega
  · simp [Reply.next, Cursor.goto]

theorem suffix_statementEndWithin : ∀ (n : Nat) (c : Cursor),
    ∃ w, c.rest = w ++ (statementEndWithin n c).2.rest ∧ (statementEndWithin n c).2.finish = c.finish
  | 0, c => ⟨[], rfl, rfl⟩
  | n + 1, c => by
    unfold statementEndWithin
    split
    · exact ⟨[], rfl, rfl⟩
    next t r hr =>
    split
    · exact ⟨[t], hr, rfl⟩
    · next pair hk =>
      split
      · next e d hd =>
        exact reads_skipGroup.failed hd
      · next closer d hd =>
        obtain ⟨w, hw, hf, -⟩ := reads_skipGroup.done hd
        split
        · exact ⟨w, hw, hf⟩
        · obtain ⟨v, hv, hvf⟩ := suffix_statementEndWithin n d
          exact ⟨w ++ v, by rw [List.append_assoc, ← hv, hw], hvf.trans hf⟩
    · exact ⟨[t], hr, rfl⟩
    · obtain ⟨v, hv, hvf⟩ := suffix_statementEndWithin n (c.goto r)
      exact ⟨t :: v, by rw [hr, List.cons_append, ← hv]; rfl, hvf⟩

theorem statement_before (hr : c.rest = t :: r) : c.Before (statement c).next := by
  have hn : c.rest.length = r.length + 1 := by rw [hr, List.length_cons]
  unfold statement
  rw [hn]
  unfold statementEndWithin
  rw [hr]
  simp only
  split
  · exact ⟨[t], by simp, by simpa [Cursor.goto] using hr, rfl⟩
  · next pair hk =>
    have hb := skipGroup_before hr hk
    split
    · next e d hd =>
      rw [hd] at hb
      exact hb
    · next closer d hd =>
      rw [hd] at hb
      split
      · exact hb
      · obtain ⟨v, hv, hvf⟩ := suffix_statementEndWithin r.length d
        exact hb.behind hv hvf
  · exact ⟨[t], by simp, by simpa [Cursor.goto] using hr, rfl⟩
  · obtain ⟨v, hv, hvf⟩ := suffix_statementEndWithin r.length (c.goto r)
    have hb : c.Before (c.goto r) := ⟨[t], by simp, by simpa [Cursor.goto] using hr, rfl⟩
    exact hb.behind hv hvf

theorem reads_reference (declared : Bool) (start : Cursor) : Reads (reference declared start) := by
  refine (reads_expect rfl).bind fun literal => Reads.here.bind fun stop => ?_
  refine .ite (fun c => ⟨[], rfl, rfl, fun h => by cases h⟩) (.pure _)

/-- A directive reads its `#`. -/
theorem directive_before (declared : Bool) (hr : c.rest = t :: r) :
    c.Before (directive declared c t r).next := by
  have hline {d : Cursor} (h : c.Before d) :
      c.Before (d.goto (d.rest.dropWhile fun u => u.start.line == t.start.line)) :=
    h.behind (List.takeWhile_append_dropWhile ..).symm rfl
  have hhash : c.Before (c.goto r) := ⟨[t], by simp, hr, rfl⟩
  unfold directive
  simp only
  split
  · exact hhash
  · next name r' =>
    have hname : c.Before (c.goto r') := ⟨[t, name], by simp, hr, rfl⟩
    split
    · split
      · split
        · next item d hd =>
          obtain ⟨w, hw, hf, -⟩ := (reads_reference declared c).done hd
          exact hline (hname.behind hw hf)
        · next e d hd =>
          obtain ⟨w, hw, hf⟩ := (reads_reference declared c).failed hd
          exact hline (hname.behind hw hf)
      · split <;> exact hline hhash
    · exact hline hhash

/-! ### Declarations -/

theorem declaration_before (hr : c.rest = t :: r) : c.Before (declaration t c).next := by
  unfold declaration
  split
  · next e d hd =>
    obtain ⟨w, hw, hf⟩ := reads_skipAttributes.failed hd
    exact recover_before e hr hw hf
  next u start hstart =>
  obtain ⟨w1, hw1, hf1, -⟩ := reads_skipAttributes.done hstart
  split
  · next e d hd =>
    obtain ⟨w, hw, hf⟩ := reads_modifiers.failed hd
    exact recover_before e hr (by rw [hw1, hw, List.append_assoc]) (hf.trans hf1)
  next modifiers d hd =>
  obtain ⟨w2, hw2, hf2, -⟩ := reads_modifiers.done hd
  have hw : c.rest = (w1 ++ w2) ++ d.rest := by rw [hw1, hw2, List.append_assoc]
  have hf : d.finish = c.finish := hf2.trans hf1
  have hlen : d.rest.length ≤ c.rest.length := by
    rw [hw, List.length_append]
    omega
  split
  · next hk =>
    -- the word of a type declaration is read in any case
    obtain ⟨s, r', hd', hs⟩ : ∃ s r', d.rest = s :: r' ∧ s.kind.isTypeWord := by
      cases hdr : d.rest with
      | nil => simp [Cursor.kind?, hdr] at hk
      | cons s r' => exact ⟨s, r', rfl, by simpa [Cursor.kind?, hdr] using hk⟩
    obtain ⟨d', v, hv, hvf, -, hleaves⟩ := typeDecl_behindWord start modifiers hd' hs
    obtain ⟨x, hx, hxf, -⟩ := hleaves
    rw [map_apply]
    have hend : c.rest = (w1 ++ w2 ++ (s :: v) ++ x) ++ (typeDecl start modifiers d).next.rest := by
      rw [hw, hv, hx]
      simp
    have hfin : (typeDecl start modifiers d).next.finish = c.finish := hxf.trans (hvf.trans hf)
    cases htd : typeDecl start modifiers d with
    | done a d2 =>
      rw [htd] at hend hfin
      exact ⟨_, by simp, hend, hfin⟩
    | failed e d2 =>
      rw [htd] at hend hfin
      exact recover_before e hr hend hfin
  · split
    · next e d' hm =>
      obtain ⟨v, hv, hvf⟩ := (reads_member? start modifiers).failed hm
      have hend : c.rest = (w1 ++ w2 ++ v) ++ d'.rest := by
        rw [hw, hv]
        simp
      exact recover_before e hr hend (hvf.trans hf)
    · next item d' hm =>
      obtain ⟨v, hv, hvf, -⟩ := (reads_member? start modifiers).done hm
      have hlt := takes_member? hm
      refine Cursor.before_of_length (w := w1 ++ w2 ++ v) ?_ (hvf.trans hf) ?_
      · rw [hw, hv]
        simp
      · exact Nat.lt_of_lt_of_le hlt hlen
    · split
      · exact statement_before hr
      · exact recover_before _ hr hw hf

/-- **Every turn reads a token.** -/
theorem turn_before (declared : Bool) (hr : c.rest = t :: r) : c.Before (turn declared c).next := by
  unfold turn
  rw [hr]
  simp only
  split
  · exact ⟨[t], by simp, hr, rfl⟩
  · exact directive_before declared hr
  · split
    · refine ofReply_before hr ((reads_usingDirective.map _) c) fun a d h => ?_
      exact (takes_usingDirective.map _) c a d h
    · exact statement_before hr
  · split
    · exact declaration_before hr
    · exact statement_before hr

/-! ### Runs of turns -/

/-- The items and problems of the tokens at a cursor; `declared` says whether anything but
directives was read before. -/
def Cursor.itemsFrom (declared : Bool) (c : Cursor) : List Item × List ParseError :=
  itemsWithin c.rest.length declared c

/-- A run of turns from one place to another, with the items and problems it gives, and
whether anything but directives was read at its start and at its end. -/
inductive Turns : Bool → Cursor → Bool → Cursor → List Item → List ParseError → Prop
  | stay (declared : Bool) (c : Cursor) : Turns declared c declared c [] []
  | turn {declared after : Bool} {c d : Cursor} {t : Token} {r : List Token} {items : List Item}
    {errors : List ParseError} (hr : c.rest = t :: r)
    (more : Turns (declared || declares t.kind) (turn declared c).next after d items errors) :
    Turns declared c after d ((turn declared c).item?.toList ++ items)
      ((turn declared c).error?.toList ++ errors)

theorem itemsWithin_nil (n : Nat) (declared : Bool) (h : c.rest = []) :
    itemsWithin n declared c = ([], []) := by
  cases n with
  | zero => rfl
  | succ n => simp [itemsWithin, h]

theorem itemsWithin_cons (n : Nat) (declared : Bool) (hr : c.rest = t :: r) :
    itemsWithin (n + 1) declared c =
      ((turn declared c).item?.toList
          ++ (itemsWithin n (declared || declares t.kind) (turn declared c).next).1,
        (turn declared c).error?.toList
          ++ (itemsWithin n (declared || declares t.kind) (turn declared c).next).2) := by
  simp only [itemsWithin, hr]

/-- **The bound on the number of turns never bites**, by induction on it: a turn reads a
token. -/
theorem itemsWithin_eq : ∀ {n m : Nat} (declared : Bool) {c : Cursor}, c.rest.length ≤ n →
    c.rest.length ≤ m → itemsWithin n declared c = itemsWithin m declared c
  | 0, m, declared, c, hn, hm => by
    have hc : c.rest = [] := List.length_eq_zero_iff.mp (by omega)
    rw [itemsWithin_nil 0 declared hc, itemsWithin_nil m declared hc]
  | n + 1, 0, declared, c, hn, hm => by
    have hc : c.rest = [] := List.length_eq_zero_iff.mp (by omega)
    rw [itemsWithin_nil 0 declared hc, itemsWithin_nil (n + 1) declared hc]
  | n + 1, m + 1, declared, c, hn, hm => by
    cases hr : c.rest with
    | nil => rw [itemsWithin_nil _ declared hr, itemsWithin_nil _ declared hr]
    | cons t r =>
      have hlt := (turn_before declared hr).length_lt
      rw [itemsWithin_cons n declared hr, itemsWithin_cons m declared hr,
        itemsWithin_eq (n := n) (m := m) _ (by omega) (by omega)]

/-- One turn, and what is read from there on. -/
theorem Cursor.itemsFrom_cons (declared : Bool) (hr : c.rest = t :: r) :
    c.itemsFrom declared =
      ((turn declared c).item?.toList
          ++ ((turn declared c).next.itemsFrom (declared || declares t.kind)).1,
        (turn declared c).error?.toList
          ++ ((turn declared c).next.itemsFrom (declared || declares t.kind)).2) := by
  have hlt := (turn_before declared hr).length_lt
  have hlen : c.rest.length = r.length + 1 := by rw [hr, List.length_cons]
  simp only [Cursor.itemsFrom, hlen]
  rw [itemsWithin_cons r.length declared hr,
    itemsWithin_eq (n := r.length) (m := (turn declared c).next.rest.length) _ (by omega)
      (Nat.le_refl _)]

/-- **What is read is what a run of turns gives, and then what is read from its end on.** -/
theorem Turns.itemsFrom_eq {declared after : Bool} {items : List Item} {errors : List ParseError}
    (h : Turns declared c after d items errors) :
    c.itemsFrom declared =
      (items ++ (d.itemsFrom after).1, errors ++ (d.itemsFrom after).2) := by
  induction h with
  | stay declared c => rfl
  | turn hr more ih =>
    rw [Cursor.itemsFrom_cons _ hr, ih]
    simp

/-- A run of turns goes on to the end of the tokens. -/
theorem turns_to_end : ∀ (n : Nat) (declared : Bool) (c : Cursor), c.rest.length ≤ n →
    ∃ after d, d.rest = [] ∧ d.finish = c.finish ∧
      Turns declared c after d (c.itemsFrom declared).1 (c.itemsFrom declared).2
  | n, declared, c, hn => by
    cases hr : c.rest with
    | nil =>
      have hnil : c.itemsFrom declared = ([], []) := itemsWithin_nil _ declared hr
      rw [hnil]
      exact ⟨declared, c, hr, rfl, .stay declared c⟩
    | cons t r =>
      have hb := turn_before declared hr
      have hlt := hb.length_lt
      obtain ⟨w, -, -, hf⟩ := hb
      cases n with
      | zero => omega
      | succ n =>
        obtain ⟨after, d, hd, hdf, hrun⟩ := turns_to_end n (declared || declares t.kind)
          (turn declared c).next (by omega)
        rw [Cursor.itemsFrom_cons declared hr]
        exact ⟨after, d, hd, hdf.trans hf, .turn hr hrun⟩

/-- A run of turns behind another. -/
theorem Turns.append {declared between after : Bool} {e : Cursor} {items items' : List Item}
    {errors errors' : List ParseError} (h : Turns declared c between d items errors)
    (h' : Turns between d after e items' errors') :
    Turns declared c after e (items ++ items') (errors ++ errors') := by
  induction h with
  | stay declared c => exact h'
  | turn hr more ih =>
    rw [List.append_assoc, List.append_assoc]
    exact .turn hr (ih h')

/-- One turn is a run. -/
theorem Turns.single (declared : Bool) (hr : c.rest = t :: r) :
    Turns declared c (declared || declares t.kind) (ScriptHost.turn declared c).next
      (ScriptHost.turn declared c).item?.toList (ScriptHost.turn declared c).error?.toList := by
  have hrun := Turns.turn hr (.stay (declared || declares t.kind) (ScriptHost.turn declared c).next)
  rwa [List.append_nil, List.append_nil] at hrun

/-- **The items of some tokens are those of a run of turns to their end.** -/
theorem Cursor.items_eq_iff {items : List Item} {errors : List ParseError} :
    c.items = (items, errors) ↔ ∃ after d, d.rest = [] ∧ Turns false c after d items errors := by
  constructor
  · intro h
    obtain ⟨after, d, hd, -, hrun⟩ := turns_to_end _ false c (Nat.le_refl _)
    have hitems : c.itemsFrom false = (items, errors) := h
    rw [hitems] at hrun
    exact ⟨after, d, hd, hrun⟩
  · rintro ⟨after, d, hd, hrun⟩
    have hnil : d.itemsFrom after = ([], []) := itemsWithin_nil _ after hd
    calc c.items = c.itemsFrom false := rfl
      _ = (items, errors) := by rw [hrun.itemsFrom_eq, hnil, List.append_nil, List.append_nil]

/-- A turn that ends where the tokens end is the only one. -/
theorem Cursor.items_of_turn {item? : Option Item} {error? : Option ParseError} (hc : c.rest ≠ [])
    (hturn : ScriptHost.turn false c = ⟨item?, error?, d⟩) (hd : d.rest = []) :
    c.items = (item?.toList, error?.toList) := by
  obtain ⟨t, r, hr⟩ := List.exists_cons_of_ne_nil hc
  have hrun := Turns.single false hr
  rw [hturn] at hrun
  exact Cursor.items_eq_iff.mpr ⟨_, d, hd, hrun⟩

theorem Script.parseLenient_of_parse {source : String} {script : Script}
    (h : parse source = .ok script) : parseLenient source = (script, []) := by
  unfold parse at h
  split at h
  · next script' heq =>
    obtain rfl := Except.ok.inj h
    exact heq
  · cases h

/-- A source is accepted if its tokens and items are read without a problem. -/
theorem Script.parse_eq_ok_iff {source : String} {items : List Item} :
    (∃ script, parse source = .ok script ∧ script.items = items) ↔
      (lex source).errors = [] ∧ (Cursor.ofLexed (lex source)).items = (items, []) := by
  have hitems : (parseLenient source).1.items = (Cursor.ofLexed (lex source)).items.1 := rfl
  have herrors : (parseLenient source).2 =
      (lex source).errors.map .ofLexError ++ (Cursor.ofLexed (lex source)).items.2 := rfl
  unfold parse
  split
  · next script h =>
    rw [h] at hitems herrors
    obtain ⟨hlex, hnone⟩ := List.append_eq_nil_iff.mp herrors.symm
    rw [Prod.ext_iff, hnone, ← hitems, List.map_eq_nil_iff.mp hlex]
    simp
  · next script errors hne h =>
    rw [h] at herrors
    constructor
    · rintro ⟨script, hscript, -⟩
      cases hscript
    · rintro ⟨hlex, hall⟩
      rw [hlex, hall] at herrors
      exact absurd herrors hne

/-- The problems of the items are all there is if the tokens have none. -/
theorem Script.parse_eq_error {source : String} {e : ParseError} {errors : List ParseError}
    (hlex : (lex source).errors = []) (h : (Cursor.ofLexed (lex source)).items.2 = e :: errors) :
    parse source = .error (e :: errors) := by
  have herrors : (parseLenient source).2 = e :: errors := by
    calc (parseLenient source).2
        = (lex source).errors.map .ofLexError ++ (Cursor.ofLexed (lex source)).items.2 := rfl
      _ = e :: errors := by rw [hlex, h, List.map_nil, List.nil_append]
  unfold parse
  split
  · next heq =>
    rw [heq] at herrors
    cases herrors
  · next heq =>
    rw [heq] at herrors
    exact congrArg Except.error herrors

end ScriptHost
