/-
# The grammar of fields

A field is written with modifiers, a type, names with perhaps an initial value each, and a `;`. An
initial value is balanced and has no comma and no `;` outside brackets, and angle brackets are none.
A turn reads every field behind attribute groups as it is written. Where a value goes on behind a
comma, the names there are taken for names of the field, and the turn fails at the token behind them.

Key definitions: `DeclaratorTokens`, `FieldTokens`, `NameTokens`.
Key theorems: `turn_of_field`, `turn_eq_field`, `turn_of_cutField`.
-/
import ScriptHost.Proofs.Grammar.Declarations

namespace ScriptHost

open Parse Source

variable {c : Cursor} {attributes words typeWords list value w more r : List Token}
  {t name equal comma semicolon : Token} {finish : Position} {m : Modifiers} {type : TypeExpr}
  {names : List Ident}

/-! ### The grammar -/

/-- The tokens where an initial value ends. -/
def endsValue (kind : TokenKind) : Bool := kind == .comma || kind == .semicolon

/-- A name, perhaps with an initial value. -/
inductive DeclaratorTokens : List Token → Ident → Prop
  | name {name : Token} (hn : name.kind = .identifier) : DeclaratorTokens [name] (.ofToken name)
  | value {name equal : Token} {w : List Token} (hn : name.kind = .identifier)
    (he : equal.kind = .equal) (h : Clear endsValue w) :
    DeclaratorTokens (name :: equal :: w) (.ofToken name)

/-- The tokens are a field as declared. -/
inductive FieldTokens : List Token → FieldDecl → Prop
  | mk {words typeWords list : List Token} {semicolon : Token} {modifiers : Modifiers} {type : TypeExpr}
    {names : List Ident} {span : Span} (hmodifiers : ModifierTokens words modifiers)
    (htype : TypeTokens typeWords type) (hnames : Separated DeclaratorTokens list names)
    (hs : semicolon.kind = .semicolon)
    (hspan : span.Spans (words ++ (typeWords ++ (list ++ [semicolon])))) :
    FieldTokens (words ++ (typeWords ++ (list ++ [semicolon]))) ⟨modifiers, type, names, span⟩

/-- A name by itself. -/
inductive NameTokens : List Token → Ident → Prop
  | mk {t : Token} (h : t.kind = .identifier) : NameTokens [t] (.ofToken t)

/-- Behind a type these tokens announce a field. -/
def AnnouncesField (r : List Token) : Prop :=
  ∃ name u s, r = name :: u :: s ∧ name.kind = .identifier ∧ u.kind ∈ [.comma, .equal, .semicolon]

theorem DeclaratorTokens.announces {i : Ident} (h : DeclaratorTokens w i)
    (hmore : Starts [.comma, .semicolon] more) : AnnouncesField (w ++ more) := by
  cases h with
  | name hn =>
    have hle : [.comma, .semicolon] ⊆ [TokenKind.comma, .equal, .semicolon] := by simp
    obtain ⟨u, r, rfl, hu⟩ := (hmore.mono hle).cons_eq
    exact ⟨_, u, r, rfl, hn, hu⟩
  | value hn he _ => exact ⟨_, _, _, rfl, hn, by simp [he]⟩

theorem announcesField_of_separated (h : Separated DeclaratorTokens w names)
    (hmore : Starts [.comma, .semicolon] more) : AnnouncesField (w ++ more) := by
  cases h with
  | last h => exact h.announces hmore
  | cons h hc _ =>
    rw [List.append_assoc]
    exact h.announces (.cons (by simp [hc]) _)

/-! ### Reading fields -/

namespace Parse

theorem accepts_declarator_name (hn : name.kind = .identifier) (hmore : ∀ t ∈ more.head?, t.kind ≠ .equal) :
    Accepts finish declarator [name] more (.ofToken name) := by
  refine (accepts_expectIdentifier hn).bind_end ?_
  exact (accepts_eat_none hmore).then_bind (.neg Bool.false_ne_true (.pure _))

theorem accepts_declarator {i : Ident} (h : DeclaratorTokens w i)
    (hmore : Starts [.comma, .semicolon] more) : Accepts finish declarator w more i := by
  cases h with
  | name hn => exact accepts_declarator_name hn (hmore.kind_ne (by decide))
  | value hn he hclear =>
    refine (accepts_expectIdentifier hn).cons_bind ((accepts_eat he).cons_bind (.pos rfl ?_))
    exact (accepts_skipUntil hclear hmore (by decide)).bind_end (.pure _)

/-- **A field is accepted from its first name on**, whatever follows. -/
theorem accepts_field {front : List Token} {span : Span} (modifiers : Modifiers) (type : TypeExpr)
    (hnames : Separated DeclaratorTokens list names) (hs : semicolon.kind = .semicolon)
    (hspan : span.Spans front) :
    Accepts finish (field ⟨front ++ more, finish⟩ modifiers type) (list ++ [semicolon]) more
      ⟨modifiers, type, names, span⟩ := by
  have hend : Starts [.semicolon] (semicolon :: more) := .of_kind hs more
  have hlist : Accepts finish (commaSeparated declarator) list (semicolon :: more) names :=
    accepts_commaSeparated hnames hend (by decide) fun v rest i hi _ hrest => accepts_declarator hi hrest
  exact hlist.bind ((accepts_expect hs).bind_end (.span_end _ hspan))

/-- Names behind the comma at which a value is cut are read as well, and then a `;` is missing. -/
theorem field_of_cut (start : Cursor) (modifiers : Modifiers) (type : TypeExpr)
    (hn : name.kind = .identifier) (he : equal.kind = .equal) (hvalue : Clear endsValue value)
    (hc : comma.kind = .comma) (hnames : Separated NameTokens list names)
    (ht : t.kind ∉ [.comma, .equal, .semicolon]) :
    field start modifiers type ⟨name :: equal :: value ++ comma :: list ++ t :: r, finish⟩ =
      .failed ⟨.expectedToken .semicolon t.kind, t.span⟩ ⟨t :: r, finish⟩ := by
  simp only [List.mem_cons, List.not_mem_nil, or_false, not_or] at ht
  have hfirst : Accepts finish declarator (name :: equal :: value) (comma :: list ++ t :: r)
      (.ofToken name) :=
    accepts_declarator (.value hn he hvalue) (.cons (by simp [hc]) _)
  have hmore (n : Nat) (hle : list.length ≤ n) :
      Accepts finish (commaSeparatedWithin declarator n) list (t :: r) names := by
    refine commaSeparatedWithin_separated hnames (by simp [ht.1]) (fun v rest i hi _ hrest => ?_) hle
    obtain ⟨hname⟩ := hi
    refine accepts_declarator_name hname ?_
    rcases hrest with rfl | hrest
    · simp [ht.2.1]
    · exact hrest.kind_ne (by decide)
  have hall : Accepts finish (commaSeparated declarator) (name :: equal :: value ++ comma :: list)
      (t :: r) (.ofToken name :: names) := by
    have hle : list.length ≤ (equal :: value ++ comma :: list ++ t :: r).length := by
      simp only [List.length_append, List.length_cons]
      omega
    exact commaSeparatedWithin_cons hfirst hc (hmore _ hle)
  have hexpect : expect .semicolon ⟨t :: r, finish⟩ =
      .failed ⟨.expectedToken .semicolon t.kind, t.span⟩ ⟨t :: r, finish⟩ := by
    simp [expect, ht.2.2, complain, Cursor.span]
  unfold Accepts at hall
  rw [field, bind_apply, hall]
  simp only [bind_apply, hexpect]

end Parse

/-! ### The turn at a field -/

/-- Behind attributes, modifiers and a type, what announces a field is read as one. -/
theorem turn_of_field (declared : Bool) (hattributes : AttributeGroups attributes)
    (hm : ModifierTokens words m) (htype : TypeTokens typeWords type)
    (hfirst : MayStart (attributes ++ (words ++ typeWords))) (hr : AnnouncesField r) :
    turn declared ⟨attributes ++ (words ++ typeWords) ++ r, finish⟩ =
      .ofReply ⟨attributes ++ (words ++ typeWords) ++ r, finish⟩
        ((Item.field <$> field ⟨words ++ typeWords ++ r, finish⟩ m type) ⟨r, finish⟩) := by
  obtain ⟨name, u, s, rfl, hn, hu⟩ := hr
  have hsort (hasShape : Bool) :
      memberSort? ((⟨name :: u :: s, finish⟩ : Cursor).kindAt? 1) hasShape = some .field := by
    simp only [List.mem_cons, List.not_mem_nil, or_false] at hu
    rcases hu with hu | hu | hu <;> simp [Cursor.kindAt?, memberSort?, hu]
  have hread := member?_of_sort ⟨words ++ typeWords ++ name :: u :: s, finish⟩ m htype hn (hsort _)
  refine turn_of_member declared hattributes hm htype.starts hfirst (hread.trans ?_)
  simp only [readMember, map_apply]
  cases field _ m type _ <;> rfl

/-- **Every field is read as it is written**, behind attribute groups and in front of any tokens, if
no word that starts a statement stands first. The turn takes just these tokens and reports nothing. -/
theorem turn_eq_field {f : FieldDecl} (declared : Bool) (hc : c.rest = attributes ++ w ++ more)
    (hattributes : AttributeGroups attributes) (hf : FieldTokens w f)
    (hfirst : MayStart (attributes ++ w)) :
    turn declared c = ⟨some (.field f), none, c.goto more⟩ := by
  obtain @⟨words, typeWords, list, semicolon, modifiers, type, names, span, hmodifiers, htype, hnames,
    hs, hspan⟩ := hf
  obtain ⟨rest, finish⟩ := c
  obtain rfl : rest = _ := hc
  have hfront : MayStart (attributes ++ (words ++ typeWords)) := by
    simp only [← List.append_assoc] at hfirst ⊢
    exact hfirst.of_append.of_append
  have hannounces : AnnouncesField (list ++ semicolon :: more) :=
    announcesField_of_separated hnames (.cons (by simp [hs]) more)
  have hturn : turn declared
      ⟨attributes ++ (words ++ typeWords) ++ (list ++ semicolon :: more), finish⟩ = _ :=
    turn_of_field declared hattributes hmodifiers htype hfront hannounces
  have hread : Accepts finish (field ⟨_ ++ more, finish⟩ modifiers type) (list ++ [semicolon]) more
      ⟨modifiers, type, names, span⟩ := accepts_field modifiers type hnames hs hspan
  unfold Accepts at hread
  simp only [List.append_assoc, List.cons_append, List.nil_append] at hturn hread ⊢
  rw [hturn, map_apply, hread]
  rfl

/-- **A comma in an initial value that no bracket encloses cuts it off.** The turn gives nothing,
reports the token behind the names that follow the comma, and recovers from there. -/
theorem turn_of_cutField (declared : Bool) (hattributes : AttributeGroups attributes)
    (hm : ModifierTokens words m) (htype : TypeTokens typeWords type)
    (hfirst : MayStart (attributes ++ (words ++ typeWords))) (hn : name.kind = .identifier)
    (he : equal.kind = .equal) (hvalue : Clear endsValue value) (hc : comma.kind = .comma)
    (hnames : Separated NameTokens list names) (ht : t.kind ∉ [.comma, .equal, .semicolon]) :
    turn declared ⟨attributes ++ (words ++ typeWords) ++
        (name :: equal :: value ++ comma :: list ++ t :: r), finish⟩ =
      ⟨none, some ⟨.expectedToken .semicolon t.kind, t.span⟩, ⟨resume 0 (t :: r), finish⟩⟩ := by
  have hannounces : AnnouncesField (name :: equal :: value ++ comma :: list ++ t :: r) :=
    ⟨_, _, _, rfl, hn, by simp [he]⟩
  rw [turn_of_field declared hattributes hm htype hfirst hannounces, map_apply,
    field_of_cut _ m type hn he hvalue hc hnames ht]
  have hlt : (t :: r).length ≠
      (attributes ++ (words ++ typeWords) ++
        (name :: equal :: value ++ comma :: list ++ t :: r)).length := by
    simp only [List.length_append, List.length_cons]
    omega
  simp only [Turn.ofReply, Turn.recover, hlt, ↓reduceIte, Cursor.goto]

end ScriptHost
