/-
# What stands in front of a declaration

Attribute groups and modifiers stand in front of a declaration. The modifiers that are read are
those whose words are there, wherever in the run and however often. A turn reads the declaration
behind them with the span of all but the attributes, and reports nothing, if a member or a type
declaration is accepted there.

Key definitions: `Modifiers.Tells`, `ModifierTokens`, `MayStart`.
Key theorems: `Modifiers.tells_iff`, `Parse.accepts_member?`, `turn_of_member`, `turn_of_typeDecl`.
-/
import Mathlib.Data.List.Induction
import ScriptHost.Proofs.Grammar.Types

namespace ScriptHost

open Parse Source

/-! ### Modifiers -/

/-- Each modifier is set just if its word is there. -/
structure Modifiers.Tells (m : Modifiers) (kinds : List TokenKind) : Prop where
  isPublic : m.isPublic ↔ .publicWord ∈ kinds
  isPrivate : m.isPrivate ↔ .privateWord ∈ kinds
  isProtected : m.isProtected ↔ .protectedWord ∈ kinds
  isInternal : m.isInternal ↔ .internalWord ∈ kinds
  isStatic : m.isStatic ↔ .staticWord ∈ kinds
  isAsync : m.isAsync ↔ .asyncWord ∈ kinds

namespace Modifiers

variable {m m' : Modifiers} {kinds : List TokenKind}

/-- One more word. -/
theorem Tells.add (h : m.Tells kinds) (kind : TokenKind) : (m.add kind).Tells (kinds ++ [kind]) := by
  obtain ⟨h1, h2, h3, h4, h5, h6⟩ := h
  cases kind <;> constructor <;> simp [Modifiers.add, h1, h2, h3, h4, h5, h6]

theorem tells_ofKinds (kinds : List TokenKind) : (ofKinds kinds).Tells kinds := by
  induction kinds using List.reverseRecOn with
  | nil => constructor <;> simp [ofKinds, none]
  | append_singleton kinds kind ih =>
    have hadd : ofKinds (kinds ++ [kind]) = (ofKinds kinds).add kind := by
      simp only [ofKinds, List.foldl_append, List.foldl_cons, List.foldl_nil]
    rw [hadd]
    exact ih.add kind

theorem Tells.unique (h : m.Tells kinds) (h' : m'.Tells kinds) : m = m' := by
  obtain ⟨h1, h2, h3, h4, h5, h6⟩ := h
  obtain ⟨g1, g2, g3, g4, g5, g6⟩ := h'
  cases m
  cases m'
  simp only [mk.injEq]
  exact ⟨Bool.eq_iff_iff.mpr (h1.trans g1.symm), Bool.eq_iff_iff.mpr (h2.trans g2.symm),
    Bool.eq_iff_iff.mpr (h3.trans g3.symm), Bool.eq_iff_iff.mpr (h4.trans g4.symm),
    Bool.eq_iff_iff.mpr (h5.trans g5.symm), Bool.eq_iff_iff.mpr (h6.trans g6.symm)⟩

/-- The words tell the modifiers. -/
theorem tells_iff : m.Tells kinds ↔ ofKinds kinds = m :=
  ⟨fun h => (tells_ofKinds kinds).unique h, fun h => h ▸ tells_ofKinds kinds⟩

end Modifiers

/-- A run of modifiers, and what it tells. -/
structure ModifierTokens (w : List Token) (m : Modifiers) : Prop where
  words : ∀ t ∈ w, t.kind.isModifier
  tells : m.Tells (w.map (·.kind))

variable {attributes words v w more : List Token} {c : Cursor} {t : Token} {r : List Token}
  {m : Modifiers} {kinds : List TokenKind} {finish : Position}

theorem ModifierTokens.none : ModifierTokens [] .none := ⟨by simp, Modifiers.tells_iff.mpr rfl⟩

/-- Modifiers end in front of a token that is none. -/
theorem Parse.accepts_modifiers (h : ModifierTokens words m)
    (hmore : ∀ t ∈ more.head?, t.kind.isModifier = false) :
    Accepts finish modifiers words more m := by
  have hkinds : Accepts finish (takeKinds TokenKind.isModifier) words more (words.map (·.kind)) :=
    accepts_takeKinds h.words hmore
  rw [← Modifiers.tells_iff.mp h.tells]
  exact hkinds.bind_end (.pure _)

/-! ### Members -/

/-- Behind its type, a member of the announced sort is read. -/
theorem Parse.member?_of_sort {typeWords : List Token} {type : TypeExpr} {sort : MemberSort}
    (start : Cursor) (m : Modifiers) (htype : TypeTokens typeWords type) (ht : t.kind = .identifier)
    (hsort : memberSort? ((⟨t :: r, finish⟩ : Cursor).kindAt? 1)
      (methodShape ⟨t :: r, finish⟩).isDone = some sort) :
    member? start m ⟨typeWords ++ t :: r, finish⟩ = readMember start m type sort ⟨t :: r, finish⟩ := by
  have hends : EndsType typeWords (t :: r) := .of_starts (.of_kind ht r) (by decide)
  rw [member?_of_type start m (accepts_typeExpr htype hends), if_pos (isAt_of_kind ht), hsort]

/-- **A member is accepted** where the rest of one of the announced sort is, behind its type. -/
theorem Parse.accepts_member? {typeWords : List Token} {type : TypeExpr} {sort : MemberSort}
    {item? : Option Item} {start : Cursor} (htype : TypeTokens typeWords type)
    (ht : t.kind = .identifier)
    (hsort : memberSort? ((⟨t :: v ++ more, finish⟩ : Cursor).kindAt? 1)
      (methodShape ⟨t :: v ++ more, finish⟩).isDone = some sort)
    (hread : Accepts finish (readMember start m type sort) (t :: v) more item?) :
    Accepts finish (member? start m) (typeWords ++ t :: v) more item? := by
  unfold Accepts
  rw [List.append_assoc]
  exact (member?_of_sort (r := v ++ more) start m htype ht hsort).trans hread

/-! ### The turn at a declaration -/

/-- The first of the tokens is no word that starts a statement. -/
def MayStart (w : List Token) : Prop :=
  ∀ t ∈ w.head?, t.kind = .identifier → t.lexeme ∉ statementWords

theorem MayStart.of_append (h : MayStart (v ++ w)) : MayStart v := by
  intro t ht
  obtain ⟨v, rfl⟩ := List.head?_eq_some_iff.mp ht
  exact h t rfl

theorem turn_of_mayDeclare (declared : Bool) (hr : c.rest = t :: r) (h : mayDeclare t) :
    turn declared c = declaration t c := by
  unfold turn
  rw [hr]
  simp only
  cases hk : t.kind <;> simp_all [mayDeclare, TokenKind.isModifier, TokenKind.isTypeWord]

/-- A declaration starts with an attribute group, a modifier, the word of a type declaration or a
name. -/
theorem mayDeclare_of_starts (hattributes : AttributeGroups attributes) (hm : ModifierTokens words m)
    (hv : Starts kinds v) (hkinds : ∀ kind ∈ kinds,
      kind.isTypeWord ∨ kind = .identifier ∧ MayStart (attributes ++ (words ++ v))) :
    ∃ t r, attributes ++ (words ++ v) = t :: r ∧ mayDeclare t := by
  rcases hattributes.starts with rfl | ha
  · cases words with
    | nil =>
      obtain ⟨t, r, rfl, hk⟩ := hv.cons_eq
      refine ⟨t, r, rfl, ?_⟩
      rcases hkinds _ hk with hword | ⟨hname, hfirst⟩
      · simp [mayDeclare, hword]
      · simp [mayDeclare, hname, hfirst t rfl hname]
    | cons t words => exact ⟨t, words ++ v, rfl, by simp [mayDeclare, hm.words t]⟩
  · obtain ⟨t, r, hr, hk⟩ := (ha.append (words ++ v)).cons_eq
    exact ⟨t, r, hr, by simp [mayDeclare, List.mem_singleton.mp hk]⟩

/-- Attributes and modifiers are read in front of a declaration. -/
theorem read_front (more : List Token) (finish : Position) (hattributes : AttributeGroups attributes)
    (hm : ModifierTokens words m) (hv : Starts kinds v)
    (hkinds : ∀ kind ∈ kinds, kind.isTypeWord ∨ kind = .identifier) :
    skipAttributes ⟨attributes ++ (words ++ (v ++ more)), finish⟩ =
        .done () ⟨words ++ (v ++ more), finish⟩ ∧
      modifiers ⟨words ++ (v ++ more), finish⟩ = .done m ⟨v ++ more, finish⟩ := by
  obtain ⟨t, r, rfl, hk⟩ := hv.cons_eq
  have hplain : t.kind ≠ .opening .bracket ∧ t.kind.isModifier = false := by
    rcases hkinds _ hk with hword | hname
    · cases ht : t.kind <;> simp_all [TokenKind.isTypeWord, TokenKind.isModifier]
    · rw [hname]
      exact ⟨by simp, rfl⟩
  refine ⟨accepts_skipAttributes hattributes ?_, accepts_modifiers hm (by simpa using hplain.2)⟩
  cases words with
  | nil => simpa using hplain.1
  | cons u words =>
    have hu := hm.words u (by simp)
    intro t' ht' hbracket
    obtain rfl := Option.some.inj ht'
    rw [hbracket] at hu
    cases hu

/-- **A member behind attributes and modifiers** is what the turn gives, and a problem with it is
what the turn recovers from. -/
theorem turn_of_member {p : Parse Item} {d : Cursor} (declared : Bool)
    (hattributes : AttributeGroups attributes) (hm : ModifierTokens words m)
    (hv : Starts [.identifier] v) (hfirst : MayStart (attributes ++ (words ++ v)))
    (hread : member? ⟨words ++ v ++ more, finish⟩ m ⟨v ++ more, finish⟩ = (some <$> p) d) :
    turn declared ⟨attributes ++ (words ++ v) ++ more, finish⟩ =
      .ofReply ⟨attributes ++ (words ++ v) ++ more, finish⟩ (p d) := by
  obtain ⟨t, r, hr, ht⟩ := mayDeclare_of_starts hattributes hm hv (by simp [hfirst])
  obtain ⟨hskip, hmodifiers⟩ := read_front more finish hattributes hm hv (by simp)
  have hname : (⟨v ++ more, finish⟩ : Cursor).kind?.any TokenKind.isTypeWord = false := by
    obtain ⟨u, s, rfl, hu⟩ := hv.cons_eq
    simp [Cursor.kind?, List.mem_singleton.mp hu, TokenKind.isTypeWord]
  rw [turn_of_mayDeclare declared (t := t) (r := r ++ more) (by rw [hr]; rfl) ht]
  rw [List.append_assoc, map_apply] at hread
  simp only [declaration, List.append_assoc, hskip, hmodifiers, hname, hread, Bool.false_eq_true,
    ↓reduceIte]
  cases p d <;> rfl

/-- **A type declaration behind attributes and modifiers** is what the turn gives. -/
theorem turn_of_typeDecl {type : TypeDecl} (declared : Bool)
    (hattributes : AttributeGroups attributes) (hm : ModifierTokens words m) (hv : Starts kinds v)
    (hkinds : ∀ kind ∈ kinds, kind.isTypeWord)
    (hread : Accepts finish (typeDecl ⟨words ++ v ++ more, finish⟩ m) v more type) :
    turn declared ⟨attributes ++ (words ++ v) ++ more, finish⟩ =
      ⟨some (.typeDecl type), none, ⟨more, finish⟩⟩ := by
  obtain ⟨t, r, hr, ht⟩ := mayDeclare_of_starts hattributes hm hv fun k hk => .inl (hkinds k hk)
  obtain ⟨hskip, hmodifiers⟩ := read_front more finish hattributes hm hv fun k hk => .inl (hkinds k hk)
  have hword : (⟨v ++ more, finish⟩ : Cursor).kind?.any TokenKind.isTypeWord = true := by
    obtain ⟨u, s, rfl, hu⟩ := hv.cons_eq
    exact hkinds _ hu
  have hdecl : typeDecl ⟨words ++ (v ++ more), finish⟩ m ⟨v ++ more, finish⟩ =
      .done type ⟨more, finish⟩ := by
    rw [← List.append_assoc]
    exact hread
  rw [turn_of_mayDeclare declared (t := t) (r := r ++ more) (by rw [hr]; rfl) ht]
  simp only [declaration, List.append_assoc, hskip, hmodifiers, hword, map_apply, hdecl,
    Turn.ofReply, ↓reduceIte]

/-! ### Tokens of a single line -/

/-- A token in the first line of a source, in which a column is a byte. -/
def Token.atColumn (kind : TokenKind) (lexeme : String) (column : Nat) : Token :=
  ⟨kind, lexeme, ⟨column - 1, 1, column⟩, byteLength lexeme.toList⟩

/-- A name is a written type. -/
theorem typeTokens_name (ht : t.kind = .identifier) :
    TypeTokens [t] (.mk [.ofToken t] [] [] (.ofPosition t.start (t.stop - t.start.offset))) :=
  .mk .none ht .nil .none .nil ⟨t, t, rfl, rfl, rfl⟩

end ScriptHost
