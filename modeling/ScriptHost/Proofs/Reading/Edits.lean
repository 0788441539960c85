/-
# Editing the body of a method

The body of a method in braces is a block of its source. Exchanged for another block, it
leaves the source readable, with the same items up to places, and of all that runs only that
body has another text. Up to the method the versions of the source are read in step as their
tokens are the same; behind it all lines move alike. A directive in front of the method ends
before the method begins, so that its line does not reach the block.

Key definitions: `IsBlock`, `MethodDecl.BlockAt`, `Script.SameBut`.
Key theorems: `Exchanged.level_of_directive`, `exists_items_exchanged`, `Script.exchange_body`.
-/
import ScriptHost.Proofs.Reading.Exchange
import ScriptHost.Proofs.Reading.MethodTurns
import ScriptHost.Proofs.Reading.Ranges

namespace ScriptHost

open Parse Source

/-! ### Exchanging a block -/

/-- The text is one balanced group in braces, from its first byte to its last. -/
structure IsBlock (text : String) : Prop where
  errors : (lex text).errors = []
  tokens : ∃ opener inner closer, (lex text).tokens = opener :: inner ++ [closer] ∧
    Bounds .start text.toList opener closer ∧ Balanced inner

/-- By itself such a text is read as a block with nothing around it. -/
theorem IsBlock.lexed {text : String} (h : IsBlock text) : ∃ opener inner closer,
    BlockLexed .start [] text.toList [] [] opener inner closer [] ∧ Balanced inner := by
  obtain ⟨opener, inner, closer, htokens, hbounds, hinner⟩ := h.tokens
  have hlex : lexFrom .start ([] ++ text.toList ++ []) = lex text := by
    rw [List.append_nil]
    rfl
  refine ⟨opener, inner, closer, ⟨?_, ?_, hbounds⟩, hinner⟩
  · rw [hlex, h.errors]
  · rw [hlex, htokens, List.append_nil, List.nil_append]

/-! ### The items of both versions -/

section Items

variable {x y y' z : List Char} {front behind : List (Piece (Edit.exchange x y y' z))}
  {block : Piece (Edit.exchange x y y' z)} {m : MethodDecl} {items : List Item}

/-- The rest of a text as pieces is told by its tokens. -/
theorem Edit.eq_of_rest {e : Edit} {ps v w qs rs : List (Piece e)} {s : Side} (hq : ps = v ++ qs)
    (hr : ps = w ++ rs) (h : (e.cursor qs s).rest.length = (e.cursor rs s).rest.length) : qs = rs := by
  rcases List.append_eq_append_iff.mp (hq.symm.trans hr) with ⟨a, -, rfl⟩ | ⟨a, -, rfl⟩
  · rw [(Edit.length_eq_iff (w := a) rfl).mp h.symm, List.nil_append]
  · rw [(Edit.length_eq_iff (w := a) rfl).mp h, List.nil_append]

/-- A piece with more tokens behind it than the block has stands in front of the block. -/
theorem Edit.front_of_length {e : Edit} {front behind w qs : List (Piece e)} {p block : Piece e}
    {s : Side} (h : front ++ block :: behind = w ++ p :: qs)
    (hlt : (e.cursor behind s).rest.length < (e.cursor qs s).rest.length) :
    ∃ a, front = w ++ p :: a ∧ qs = a ++ block :: behind := by
  have hnot {b : List (Piece e)} (hb : behind = b ++ qs) : False := by
    rw [hb, Edit.rest_append, List.length_append] at hlt
    omega
  rcases List.append_eq_append_iff.mp h with ⟨a, rfl, ha⟩ | ⟨a, rfl, ha⟩
  · cases a with
    | nil => exact (hnot (b := []) (List.cons.inj ha).2).elim
    | cons p' a => exact (hnot (b := a ++ [p]) (by rw [(List.cons.inj ha).2]; simp)).elim
  · cases a with
    | nil => exact (hnot (b := []) (List.cons.inj ha).2.symm).elim
    | cons p' a =>
      obtain ⟨rfl, rfl⟩ := List.cons.inj ha
      exact ⟨a, rfl, rfl⟩

/-- A directive in front of the block is read in step: its line ends before the block begins. -/
theorem Exchanged.level_of_directive (h : Exchanged front block behind) {c : Cursor}
    {v u : List Token} (hc : c.rest = v ++ block.first .before :: u ++ behind.flatMap (Piece.tokens .before))
    {declared : Bool} {w qs : List (Piece (Edit.exchange x y y' z))} {sharp : Side → Token}
    {hs : (Edit.exchange x y y' z).Twins sharp} {v' : List Token}
    (hps : front ++ block :: behind = w ++ .token sharp hs :: qs)
    (hk : (sharp .before).kind = .hash)
    (hnext : (turn declared ((Edit.exchange x y y' z).cursor (.token sharp hs :: qs) .before)).next.rest
      = v' ++ c.rest) : ∀ p ∈ qs, p.Level sharp := by
  have hr := (Edit.exchange x y y' z).rest_token qs .before sharp hs
  have hlines : ((Edit.exchange x y y' z).cursor (.token sharp hs :: qs) .before).rest.Pairwise
      fun t u => t.start.line ≤ u.start.line := by
    have htokens : (lexFrom .start (x ++ y ++ z)).tokens = _ := congrArg Cursor.rest (h.cursor .before)
    have htiles := tiles_lexFrom .start (x ++ y ++ z)
    rw [htokens, hps, Edit.rest_append] at htiles
    exact (List.pairwise_append.mp htiles.lines.2).2.1
  obtain ⟨gap, hread⟩ : ∃ gap, ((Edit.exchange x y y' z).cursor qs .before).rest = gap ++
      (turn declared ((Edit.exchange x y y' z).cursor (.token sharp hs :: qs) .before)).next.rest := by
    obtain ⟨gap, hgap, hread, -⟩ := turn_before declared hr
    obtain ⟨first, gap, rfl⟩ := List.exists_cons_of_ne_nil hgap
    rw [hr] at hread
    exact ⟨gap, (List.cons.inj hread).2⟩
  have hopener : block.first .before ∈ (turn declared
      ((Edit.exchange x y y' z).cursor (.token sharp hs :: qs) .before)).next.rest := by
    rw [hnext, hc]
    simp
  have hlt : (sharp .before).start.line < (Position.start.advance x).line := by
    have hne : (sharp .before).start.line ≠ (block.first .before).start.line := by
      rw [turn_of_hash hr hk] at hopener
      exact line_of_directive hr hlines _ hopener
    have hle : (sharp .before).start.line ≤ (block.first .before).start.line := by
      rw [hr, hread] at hlines
      exact (List.pairwise_cons.mp hlines).1 _ (List.mem_append_right _ hopener)
    rw [h.place] at hne hle
    omega
  obtain ⟨a, hfront, rfl⟩ := Edit.front_of_length (s := .before) hps (by
    rw [hread, hnext, hc]
    simp only [Edit.cursor, List.length_append, List.length_cons]
    omega)
  exact h.level_of_front hfront hlt

/-- The turn of the method is in step, and ends behind the block. -/
theorem Exchanged.turn_method (h : Exchanged front block behind) {declared : Bool}
    {w es : List (Piece (Edit.exchange x y y' z))} {t : Token} {r : List Token}
    (hr : ((Edit.exchange x y y' z).cursor es .before).rest = t :: r)
    (hes : front ++ block :: behind = w ++ es)
    (hturn : (turn declared ((Edit.exchange x y y' z).cursor es .before)).item? = some (.method m))
    (herror : (turn declared ((Edit.exchange x y y' z).cursor es .before)).error? = none)
    (hnext : (turn declared ((Edit.exchange x y y' z).cursor es .before)).next.rest =
      behind.flatMap (Piece.tokens .before)) :
    (turn declared ((Edit.exchange x y y' z).cursor es .before)).next =
        (Edit.exchange x y y' z).cursor behind .before ∧
      ∃ item, (Edit.exchange x y y' z).Items item ∧ item .before = .method m ∧
        Turns declared ((Edit.exchange x y y' z).cursor es .after) (declared || declares t.kind)
          ((Edit.exchange x y y' z).cursor behind .after) [item .after] [] := by
  -- no `#` gives a method
  have hstep : TurnInStep es fun s => turn declared ((Edit.exchange x y y' z).cursor es s) := by
    refine turnInStep_turn declared fun sharp hs qs hps hk => ?_
    subst hps
    have hr := (Edit.exchange x y y' z).rest_token qs .before sharp hs
    rw [turn_of_hash hr hk] at hturn
    cases isReference_of_directive hr hk hturn
  obtain ⟨⟨v, qs, hqs, hnexts⟩, hitem, hkeeps⟩ := hstep
  obtain rfl : qs = behind := by
    have hleft : front ++ block :: behind = (w ++ v) ++ qs := by rw [hes, hqs, List.append_assoc]
    have hright : front ++ block :: behind = (front ++ [block]) ++ behind := by simp
    refine Edit.eq_of_rest (s := .before) hleft hright ?_
    rw [← hnexts .before, hnext]
    rfl
  obtain ⟨item, hitem, hitems⟩ := hitem.resolve_left fun hnone => by
    cases (hnone .before).symm.trans hturn
  have herror' : (turn declared ((Edit.exchange x y y' z).cursor es .after)).error? = none := by
    have hafter := hkeeps .after
    simp only [herror, Option.map_none] at hafter
    exact Option.map_eq_none_iff.mp hafter
  obtain ⟨t', r', hr', hkind⟩ := Edit.exists_cons _ es .before hr .after
  have hrun := Turns.single declared hr'
  have hafter : (turn declared ((Edit.exchange x y y' z).cursor es .after)).item? =
      some (item .after) := hitems .after
  rw [hnexts .after, hafter, herror', hkind] at hrun
  exact ⟨hnexts .before, item, hitem, Option.some.inj ((hitems .before).symm.trans hturn), hrun⟩

/-- The body of a method in braces is a block of the text. -/
theorem BlockTurn.lexed {declared : Bool} {c : Cursor} {u v inner : List Token}
    {opener closer : Token} (h : BlockTurn declared c m v inner opener closer)
    (herrors : (lexFrom .start (x ++ y ++ z)).errors = [])
    (hu : (lexFrom .start (x ++ y ++ z)).tokens = u ++ c.rest) (hstart : m.body.start = byteLength x)
    (hstop : m.body.stop = byteLength (x ++ y)) :
    BlockLexed .start x y z (u ++ v) opener inner closer (turn declared c).next.rest := by
  have htokens : (lexFrom .start (x ++ y ++ z)).tokens =
      u ++ v ++ (opener :: inner ++ [closer]) ++ (turn declared c).next.rest := by
    rw [hu, h.rest]
    simp only [List.append_assoc]
  have hle : opener.stop ≤ closer.start.offset := by
    have hstops := (tiles_lexFrom .start (x ++ y ++ z)).stops
    rw [htokens] at hstops
    have hgroup := (List.pairwise_append.mp (List.pairwise_append.mp hstops).1).2.1
    exact (List.pairwise_cons.mp hgroup).1 closer (by simp)
  have hopener := h.start
  have hcloser := h.stop
  have hend : closer.stop = closer.start.offset + closer.length := rfl
  rw [Token.stop] at hle
  rw [byteLength_append] at hstop
  refine ⟨herrors, htokens, h.opens, h.closes, ?_, ?_⟩
  · rw [offset_advance_start]
    omega
  · rw [offset_advance_start]
    omega

/-- **Exchanging the body of a method for another block** leaves the source readable, and gives
the same items up to places. The turns in front of the method, its own and those behind it are in
step for different reasons. -/
theorem exists_items_exchanged {y' : String}
    (herrors : (lexFrom .start (x ++ y ++ z)).errors = [])
    (hitems : (Cursor.ofLexed (lexFrom .start (x ++ y ++ z))).items = (items, []))
    (hm : .method m ∈ items) (hk : m.body.kind = .block) (hstart : m.body.start = byteLength x)
    (hstop : m.body.stop = byteLength (x ++ y)) (hb' : IsBlock y') :
    (lexFrom .start (x ++ y'.toList ++ z)).errors = [] ∧
      ∃ front item back, (∀ a ∈ front ++ item :: back, (Edit.exchange x y y'.toList z).Items a) ∧
        item .before = .method m ∧ items = (front ++ item :: back).map (· .before) ∧
        (Cursor.ofLexed (lexFrom .start (x ++ y'.toList ++ z))).items =
          ((front ++ item :: back).map (· .after), []) := by
  obtain ⟨after, d, hend, hrun⟩ := Cursor.items_eq_iff.mp hitems
  obtain ⟨between, c, t, r, ahead, more, aheadErrors, moreErrors, hr, hahead, hturn, hmore, rfl,
    hnone⟩ := hrun.at_item hm
  obtain ⟨v, inner, opener, closer, hblock⟩ := exists_blockTurn hr hturn hk
  obtain ⟨u, hu⟩ := hahead.suffix
  obtain ⟨opener', inner', closer', hblock', hinner'⟩ := hb'.lexed
  obtain ⟨hnew, front, behind, block, hex, hopener, hbehind⟩ :=
    exists_exchanged (hblock.lexed herrors hu hstart hstop) hblock.balanced hblock' hinner'
  obtain ⟨hnone, hnoneBack⟩ := List.append_eq_nil_iff.mp hnone.symm
  obtain ⟨hnoneFront, hnoneTurn⟩ := List.append_eq_nil_iff.mp hnone
  refine ⟨hnew, ?_⟩
  -- up to the method
  obtain ⟨frontItems, frontErrors, ws, es, hes, rfl, hfrontItems, -, rfl, rfl, hrunFront⟩ :=
    hahead.inStep (hex.cursor .before) fun declared' w' sharp hs qs v' hps hkind hnext => by
      refine hex.level_of_directive (v := v) (u := inner ++ [closer]) ?_ hps hkind hnext
      rw [hopener, hbehind, hblock.rest]
      simp
  obtain ⟨hnext, item, hitem, hmethod, hrunTurn⟩ :=
    hex.turn_method hr hes hturn (Option.toList_eq_nil_iff.mp hnoneTurn) hbehind.symm
  -- behind it
  rw [hnext] at hmore
  obtain ⟨backItems, backErrors, xs, ys, hys, rfl, hbackItems, -, rfl, rfl, hrunBack⟩ :=
    hmore.inStep rfl fun declared' w' sharp hs qs v' hps _ _ => hex.level_of_behind hps
  refine ⟨frontItems, item, backItems, ?_, hmethod, ?_, ?_⟩
  · intro a ha
    rcases List.mem_append.mp ha with ha | ha
    · exact hfrontItems a ha
    rcases List.mem_cons.mp ha with rfl | ha
    · exact hitem
    · exact hbackItems a ha
  · rw [List.map_append, List.map_cons, hmethod]
  -- the problems of the new run are those of the old one
  obtain rfl : frontErrors = [] := List.map_eq_nil_iff.mp hnoneFront
  obtain rfl : backErrors = [] := List.map_eq_nil_iff.mp hnoneBack
  obtain rfl : ys = [] := by
    have hle := Edit.length_le _ ys .before
    rw [hend] at hle
    exact List.length_eq_zero_iff.mp (Nat.le_zero.mp hle)
  refine Cursor.items_eq_iff.mpr ⟨after, (Edit.exchange x y y'.toList z).cursor [] .after, rfl, ?_⟩
  have hcursor : Cursor.ofLexed (lexFrom .start (x ++ y'.toList ++ z)) = _ := hex.cursor .after
  rw [hcursor, List.map_append]
  exact hrunFront.append (hrunTurn.append hrunBack)

end Items

/-! ### Their texts -/

/-- Items of two sources that are the same up to places, and run the same text if any. -/
structure Item.SameIn (source source' : String) (i j : Item) : Prop where
  bare : i.bare = j.bare
  text : i.code?.map (·.text source) = j.code?.map (·.text source')

/-- The scripts of two sources have the same items in the same order up to places, and run the same
texts, but for the body of one method, which is `m` in the first and `m'` in the second. -/
structure Script.SameBut (m m' : MethodDecl) (source source' : String) (script script' : Script) :
    Prop where
  bare : m.bare = m'.bare
  others : ∃ front back front' back', script.items = front ++ .method m :: back ∧
    script'.items = front' ++ .method m' :: back' ∧
    List.Forall₂ (Item.SameIn source source') front front' ∧
    List.Forall₂ (Item.SameIn source source') back back'

/-- Up to places and texts all items are the same. -/
theorem Script.SameBut.items_bare {m m' : MethodDecl} {source source' : String}
    {script script' : Script} (h : script.SameBut m m' source source' script') :
    script.items.map Item.bare = script'.items.map Item.bare := by
  have hbare : ∀ {is js : List Item}, List.Forall₂ (Item.SameIn source source') is js →
      is.map Item.bare = js.map Item.bare := by
    intro is js h
    induction h with
    | nil => rfl
    | cons h more ih => rw [List.map_cons, List.map_cons, h.bare, ih]
  obtain ⟨front, back, front', back', hall, hall', hfront, hback⟩ := h.others
  rw [hall, hall', List.map_append, List.map_append, List.map_cons, List.map_cons, hbare hfront,
    hbare hback, Item.bare, Item.bare, h.bare]

/-- The body of the method is a block, behind the text `front` of its source. -/
structure MethodDecl.BlockAt (m : MethodDecl) (front block : String) : Prop where
  kind : m.body.kind = .block
  start : m.body.start = byteLength front.toList
  stop : m.body.stop = byteLength (front ++ block).toList

section

variable {x y y' z : List Char} {source source' : String}

/-- A piece outside the exchanged block has the same text in both versions. -/
theorem text_of_same {b b' : Body} {lead text : List Char} (hsource : source.toList = x ++ y ++ z)
    (hsource' : source'.toList = x ++ y' ++ z) (hy : 0 < byteLength y)
    (hb : b.Marks source lead text) (hout : b.stop ≤ byteLength x ∨ byteLength (x ++ y) ≤ b.start)
    (hsame : (Edit.exchange x y y' z).same b.start b'.start)
    (hsame' : (Edit.exchange x y y' z).same b.stop b'.stop) : b'.text source' = b.text source := by
  suffices hnew : sliceBytes b'.start b'.stop source'.toList = some text by
    rw [Body.text, Body.text, hb.slice, hnew]
  obtain ⟨behind, hall⟩ := hb.span.inside
  have hstart := hb.start
  have hstop := hb.stop
  rw [hsource] at hall
  rcases hout with hout | hout
  · have h1 := same_front hsame hy (by omega)
    have h2 := same_front hsame' hy hout
    rw [List.append_assoc x] at hall
    obtain ⟨rest, rfl, -⟩ := append_of_byteLength_le hall (by rw [byteLength_append]; omega)
    have hslice := sliceBytes_append lead text (rest ++ (y' ++ z))
    rw [h1, h2, hstart, hstop, hsource']
    simpa only [List.append_assoc] using hslice
  · obtain ⟨k, hk, hk'⟩ := same_behind hsame hy hout
    obtain ⟨l, hl, hl'⟩ := same_behind hsame' hy (by omega)
    rw [List.append_assoc lead] at hall
    obtain ⟨front, rfl, rfl⟩ := append_of_byteLength_le hall.symm (by omega)
    rw [byteLength_append] at hstart hstop
    have h1 : b'.start = byteLength (x ++ y' ++ front) := by
      rw [byteLength_append]
      omega
    have h2 : b'.stop = byteLength (x ++ y' ++ front) + byteLength text := by
      rw [byteLength_append]
      omega
    have hslice := sliceBytes_append (x ++ y' ++ front) text behind
    rw [h1, h2, hsource']
    simpa only [List.append_assoc] using hslice

theorem map_bare_code? (i : Item) : i.code?.map Body.bare = i.bare.code? := by
  cases i <;> rfl

/-- An item of both versions runs the same text in each, if that is outside the exchanged block. -/
theorem sameIn_of_items {a : Side → Item} (ha : (Edit.exchange x y y' z).Items a)
    (hsource : source.toList = x ++ y ++ z) (hsource' : source'.toList = x ++ y' ++ z)
    (hy : 0 < byteLength y)
    (hcode : ∀ b, (a .before).code? = some b → (∃ lead text, b.Marks source lead text) ∧
      (b.stop ≤ byteLength x ∨ byteLength (x ++ y) ≤ b.start)) :
    (a .before).SameIn source source' (a .after) := by
  have hbare := ha.bare .after
  refine ⟨hbare.symm, ?_⟩
  have hboth : (a .after).code?.map Body.bare = (a .before).code?.map Body.bare := by
    rw [map_bare_code?, map_bare_code?, hbare]
  cases hb : (a .before).code? with
  | none =>
    rw [hb, Option.map_none, Option.map_eq_none_iff] at hboth
    rw [hboth]
    rfl
  | some b =>
    rw [hb, Option.map_some] at hboth
    obtain ⟨b', hb', -⟩ := Option.map_eq_some_iff.mp hboth
    obtain ⟨⟨lead, text, hmarks⟩, hout⟩ := hcode b hb
    obtain ⟨hstart, hstop⟩ := ha.code (Side.pick b b') (by rintro (_ | _) <;> assumption)
    have htext : b'.text source' = b.text source :=
      text_of_same hsource hsource' hy hmarks hout hstart hstop
    rw [hb', Option.map_some, Option.map_some, htext]

/-- A method of both versions whose body is the exchanged block. -/
theorem blockAt_of_items {p b b' : String} {m : MethodDecl} {item : Side → Item}
    (hitem : (Edit.exchange p.toList b.toList b'.toList z).Items item)
    (hm : item .before = .method m) (hb : m.BlockAt p b) (hpos : 0 < byteLength b.toList) :
    ∃ m', item .after = .method m' ∧ m'.bare = m.bare ∧ m'.BlockAt p b' := by
  have hbare := hitem.bare .after
  rw [hm] at hbare
  cases hm' : item .after with
  | method m' =>
    rw [hm'] at hbare
    have hsame : m'.bare = m.bare := by simpa [Item.bare] using hbare
    obtain ⟨hstart, hstop⟩ := hitem.code (Side.pick m.body m'.body) (by
      rintro (_ | _)
      · rw [hm]
        rfl
      · rw [hm']
        rfl)
    have hkind : m'.body.bare.kind = m.body.bare.kind := congrArg (·.body.kind) hsame
    refine ⟨m', rfl, hsame, hkind.trans hb.kind, ?_, ?_⟩
    · exact (same_front hstart hpos (Nat.le_of_eq hb.start)).trans hb.start
    · have hend : m.body.stop = byteLength (p.toList ++ b.toList) := by
        rw [hb.stop, String.toList_append]
      obtain ⟨k, hk, hk'⟩ := same_behind hstop hpos (Nat.le_of_eq hend.symm)
      have hzero : k = 0 := by
        have heq : m.body.stop = byteLength (p.toList ++ b.toList) + k := hk
        omega
      rw [hzero] at hk'
      rw [String.toList_append]
      exact hk'
  | _ => simp [hm', Item.bare] at hbare

end

/-- **Editing the body of a method changes nothing but that body.** A source that is accepted
with a block for the body of a method is accepted with any other block in its place, and gives
the same items in the same order: the method up to its body, and all others up to places with
the same text to run. -/
theorem Script.exchange_body {p b s b' : String} {script : Script} {m : MethodDecl}
    (h : parse (p ++ b ++ s) = .ok script) (hm : .method m ∈ script.items) (hb : m.BlockAt p b)
    (hb' : IsBlock b') :
    ∃ script' m', parse (p ++ b' ++ s) = .ok script' ∧ m'.BlockAt p b' ∧
      script.SameBut m m' (p ++ b ++ s) (p ++ b' ++ s) script' := by
  have hsource (b : String) : (p ++ b ++ s).toList = p.toList ++ b.toList ++ s.toList := by
    rw [String.toList_append, String.toList_append]
  have hlex (b : String) : lex (p ++ b ++ s) = lexFrom .start (p.toList ++ b.toList ++ s.toList) := by
    rw [← hsource]
    rfl
  obtain ⟨herrors, hitems⟩ := Script.parse_eq_ok_iff.mp ⟨script, h, rfl⟩
  have hlenient : (parseLenient (p ++ b ++ s)).1.items = script.items := congrArg Prod.fst hitems
  have hmarks {item : Item} (hi : item ∈ script.items) {c : Body} (hc : item.code? = some c) :
      ∃ lead text, c.Marks (p ++ b ++ s) lead text := marks_code (hlenient ▸ hi) hc
  have horder := hlenient ▸ codes_inOrder (p ++ b ++ s)
  rw [hlex] at herrors hitems
  have hstop := hb.stop
  rw [String.toList_append] at hstop
  obtain ⟨hnew, front, item, back, htwins, hbefore, hall, hafter⟩ :=
    exists_items_exchanged herrors hitems hm hb.kind hb.start hstop hb'
  rw [← hlex] at hnew hafter
  obtain ⟨script', hscript', hitems'⟩ := Script.parse_eq_ok_iff.mpr ⟨hnew, hafter⟩
  have hpos : 0 < byteLength b.toList := by
    obtain ⟨lead, text, hmark⟩ := hmarks hm rfl
    have hlt := hmark.lt
    rw [hb.start, hstop, byteLength_append] at hlt
    omega
  obtain ⟨m', hm', hbare, hblock⟩ :=
    blockAt_of_items (htwins item (by simp)) hbefore hb hpos
  rw [hall, List.map_append, List.map_cons, hbefore] at horder
  obtain ⟨-, hback, hfront⟩ := List.pairwise_append.mp horder
  have hsame {a : Side → Item} (ha : a ∈ front ++ item :: back) (hout : ∀ c, (a .before).code? = some c →
      c.stop ≤ byteLength p.toList ∨ byteLength (p.toList ++ b.toList) ≤ c.start) :
      (a .before).SameIn (p ++ b ++ s) (p ++ b' ++ s) (a .after) := by
    refine sameIn_of_items (htwins a ha) (hsource b) (hsource b') hpos fun c hc => ⟨?_, hout c hc⟩
    exact hmarks (by rw [hall]; exact List.mem_map_of_mem ha) hc
  refine ⟨script', m', hscript', hblock, hbare.symm, front.map (· .before), back.map (· .before),
    front.map (· .after), back.map (· .after), ?_, ?_, ?_, ?_⟩
  · rw [hall, List.map_append, List.map_cons, hbefore]
  · rw [hitems', List.map_append, List.map_cons, hm']
  · rw [List.forall₂_map_left_iff, List.forall₂_map_right_iff, List.forall₂_same]
    refine fun a ha => hsame (by simp [ha]) fun c hc => .inl ?_
    rw [← hb.start]
    exact hfront _ (List.mem_map_of_mem ha) _ List.mem_cons_self c m.body hc rfl
  · rw [List.forall₂_map_left_iff, List.forall₂_map_right_iff, List.forall₂_same]
    refine fun a ha => hsame (by simp [ha]) fun c hc => .inr ?_
    rw [← hstop]
    exact (List.pairwise_cons.mp hback).1 _ (List.mem_map_of_mem ha) m.body c rfl hc

end ScriptHost
