/-
# Which methods a class tells apart

Two methods of a class clash if their overload keys are one text. The names in a key hold none of
its marks, so the key tells the name, the number of type parameters and, for every parameter, a
word: the passing mode and right behind it the text of the type. So a method is rejected exactly
if one that was taken before has its name, as many type parameters, and its words. The words are
those of its modes and types, so a method of the same modes and types is always rejected. But
neither the mode nor the type is told by a word: a type's name may begin with the word of a mode,
and a text leaves out namespaces and what sort of thing a name stands for. Where no type reads
like a mode in front of another, and none like a different type, the words tell both. So beside
the members that clash with one taken before, a class rejects methods that are mistaken for one,
and no others.

Key definitions: `ParameterSymbol.word`, `MethodSymbol.ReadsLike`, `MethodSymbol.SameOverload`,
`MethodSymbol.Readable`, `MethodSymbol.MistakenFor`.
Key theorems: `MethodSymbol.overloadKey_eq_iff`, `MethodSymbol.sameOverload_iff`,
`MethodSymbol.mistakenFor_iff`, `Compilation.scriptClass_decided`,
`Compilation.method_rejected_iff`, `Compilation.overloads_confused`.
-/
import ScriptHost.Proofs.Binding.Spelling

namespace ScriptHost

/-! ### Words -/

/-- What an overload key holds of a parameter. -/
def ParameterSymbol.word (p : ParameterSymbol) : String := p.mode.keyword?.getD "" ++ p.type.text

/-- What a parameter asks of an argument. -/
def ParameterSymbol.slot (p : ParameterSymbol) : PassingMode × TypeSymbol := (p.mode, p.type)

theorem ParameterSymbol.listed_word {p : ParameterSymbol} (h : p.type.IsNamed) :
    Listed p.word.toList := by
  have htext := TypeSymbol.listed_text h
  rw [word, String.toList_append]
  cases hmode : p.mode.keyword? with
  | none => exact htext
  | some keyword =>
    have hname : IsName keyword := by
      unfold PassingMode.keyword? at hmode
      split at hmode
      · cases hmode
      all_goals
        obtain rfl := Option.some.inj hmode
        decide
    exact hname.listed.append htext.spaced

/-! ### Keys -/

/-- A mark that is not in front of itself tells what is in front of it. -/
theorem append_cons_inj_of_not_mem {α : Type} {a : α} : ∀ {x x' y y' : List α}, a ∉ x → a ∉ x' →
    x ++ a :: y = x' ++ a :: y' → x = x' ∧ y = y'
  | [], [], _, _, _, _, h => ⟨rfl, (List.cons.inj h).2⟩
  | [], b :: x', _, _, _, hx', h => absurd ((List.cons.inj h).1 ▸ List.mem_cons_self) hx'
  | b :: x, [], _, _, hx, _, h => absurd ((List.cons.inj h).1 ▸ List.mem_cons_self) hx
  | b :: x, c :: x', _, _, hx, hx', h => by
    obtain ⟨rfl, htail⟩ := List.cons.inj h
    obtain ⟨rfl, hy⟩ := append_cons_inj_of_not_mem (List.not_mem_of_not_mem_cons hx)
      (List.not_mem_of_not_mem_cons hx') htail
    exact ⟨rfl, hy⟩

theorem toString_inj {m n : Nat} (h : toString m = toString n) : m = n := by
  have hdigits : Nat.toDigits 10 m = Nat.toDigits 10 n := by
    rw [Nat.toString_eq_ofList_toDigits, Nat.toString_eq_ofList_toDigits] at h
    have hchars := congrArg String.toList h
    rwa [String.toList_ofList, String.toList_ofList] at hchars
  calc m = Nat.ofDigitChars 10 (Nat.toDigits 10 m) 0 := Nat.ofDigitChars_ten_toDigits.symm
    _ = Nat.ofDigitChars 10 (Nat.toDigits 10 n) 0 := by rw [hdigits]
    _ = n := Nat.ofDigitChars_ten_toDigits

theorem paren_not_mem_toString (n : Nat) : '(' ∉ (toString n).toList := by
  rw [Nat.toString_eq_ofList_toDigits, String.toList_ofList]
  intro hmem
  have hdigit := Nat.isDigit_of_mem_toDigits (by decide) (by decide) hmem
  exact absurd hdigit (by decide)

namespace MethodSymbol

/-- The methods have the same name, as many type parameters, and the same words. -/
structure ReadsLike (m k : MethodSymbol) : Prop where
  name : m.name = k.name
  arity : m.typeParameters.length = k.typeParameters.length
  words : m.parameters.map ParameterSymbol.word = k.parameters.map ParameterSymbol.word

/-- The methods have the same name, as many type parameters, and parameters of the same modes and
types. -/
structure SameOverload (m k : MethodSymbol) : Prop where
  name : m.name = k.name
  arity : m.typeParameters.length = k.typeParameters.length
  parameters : m.parameters.map ParameterSymbol.slot = k.parameters.map ParameterSymbol.slot

variable {m k : MethodSymbol}

theorem toList_overloadKey (m : MethodSymbol) : m.overloadKey.toList =
    m.name.toList ++ '`' :: ((toString m.typeParameters.length).toList ++
      '(' :: ([','].intercalate (m.parameters.map (·.word.toList)) ++ [')'])) := by
  have htick : "`".toList = ['`'] := by decide
  have hopen : "(".toList = ['('] := by decide
  have hclose : ")".toList = [')'] := by decide
  have hcomma : ",".toList = [','] := by decide
  have hkey : m.overloadKey = m.name ++ "`" ++ toString m.typeParameters.length ++ "(" ++
      ",".intercalate (m.parameters.map ParameterSymbol.word) ++ ")" := rfl
  rw [hkey]
  simp only [String.toList_append, String.toList_intercalate, htick, hopen, hclose, hcomma,
    List.map_map, List.append_assoc, List.singleton_append]
  rfl

/-- **An overload key tells name, number of type parameters and words.** -/
theorem overloadKey_eq_iff (hm : m.IsNamed) (hk : k.IsNamed) :
    m.overloadKey = k.overloadKey ↔ m.ReadsLike k := by
  have hlisted {m : MethodSymbol} (h : m.IsNamed) :
      ∀ w ∈ m.parameters.map (·.word.toList), Listed w :=
    List.forall_mem_map.mpr fun p hp => p.listed_word (h.parameters p hp)
  constructor
  · intro h
    have hchars := congrArg String.toList h
    rw [toList_overloadKey, toList_overloadKey] at hchars
    obtain ⟨hname, hchars⟩ := append_cons_inj_of_not_mem (hm.name.not_mem (by decide))
      (hk.name.not_mem (by decide)) hchars
    obtain ⟨harity, hchars⟩ := append_cons_inj_of_not_mem (paren_not_mem_toString _)
      (paren_not_mem_toString _) hchars
    have hwords := intercalate_inj (hlisted hm) (hlisted hk) (List.append_cancel_right hchars)
    refine ⟨String.toList_inj.mp hname, toString_inj (String.toList_inj.mp harity), ?_⟩
    refine List.map_injective_iff.mpr (fun _ _ => String.toList_inj.mp) ?_
    rw [List.map_map, List.map_map]
    exact hwords
  · rintro ⟨hname, harity, hwords⟩
    have hkey (m : MethodSymbol) : m.overloadKey = m.name ++ "`" ++
        toString m.typeParameters.length ++ "(" ++
          ",".intercalate (m.parameters.map ParameterSymbol.word) ++ ")" := rfl
    rw [hkey, hkey, hname, harity, hwords]

/-! ### What words leave open -/

/-- No type that is passed by value in the two methods reads as if the word of a mode stood in
front of it, and none of their types reads like a different one of the other method. -/
structure Readable (m k : MethodSymbol) : Prop where
  modes : ∀ p ∈ m.parameters ++ k.parameters, p.mode = .byValue → ∀ mode keyword,
    PassingMode.keyword? mode = some keyword → ¬ keyword.toList <+: p.type.text.toList
  types : ∀ p ∈ m.parameters, ∀ q ∈ k.parameters, p.type.text = q.type.text → p.type = q.type

end MethodSymbol

/-- The word of a mode is told by its first letter. -/
theorem PassingMode.eq_of_head? {a b : PassingMode} {v w : String} (ha : a.keyword? = some v)
    (hb : b.keyword? = some w) (h : v.toList.head? = w.toList.head?) : a = b := by
  cases a <;> cases b <;> cases ha <;> cases hb <;> first | rfl | exact absurd h (by decide)

namespace ParameterSymbol

variable {p q : ParameterSymbol}

theorem word_of_none (h : p.mode.keyword? = none) : p.word = p.type.text := by
  rw [word, h]
  exact String.empty_append

theorem word_of_some {keyword : String} (h : p.mode.keyword? = some keyword) :
    p.word = keyword ++ p.type.text := by
  rw [word, h]
  rfl

theorem byValue_of_none (h : p.mode.keyword? = none) : p.mode = .byValue := by
  cases hmode : p.mode with
  | byValue => rfl
  | _ =>
    rw [hmode] at h
    cases h

/-- A word with a mode in it is that of a by-value parameter only if the text of its type begins
with the mode. -/
theorem prefix_of_word_eq {keyword : String} (hp : p.mode.keyword? = none)
    (hq : q.mode.keyword? = some keyword) (h : p.word = q.word) :
    keyword.toList <+: p.type.text.toList := by
  rw [word_of_none hp, word_of_some hq] at h
  exact ⟨q.type.text.toList, by rw [h, String.toList_append]⟩

theorem keyword_ne_nil {mode : PassingMode} {keyword : String} (h : mode.keyword? = some keyword) :
    keyword.toList ≠ [] := by
  cases mode <;> cases h <;> decide

/-- Where by-value types do not begin with the word of a mode, a word tells mode and text. -/
theorem mode_and_text_of_word_eq
    (hp : p.mode = .byValue → ∀ mode keyword, PassingMode.keyword? mode = some keyword →
      ¬ keyword.toList <+: p.type.text.toList)
    (hq : q.mode = .byValue → ∀ mode keyword, PassingMode.keyword? mode = some keyword →
      ¬ keyword.toList <+: q.type.text.toList)
    (h : p.word = q.word) : p.mode = q.mode ∧ p.type.text = q.type.text := by
  cases hpk : p.mode.keyword? with
  | none =>
    have hbyValue := byValue_of_none hpk
    cases hqk : q.mode.keyword? with
    | none =>
      rw [word_of_none hpk, word_of_none hqk] at h
      exact ⟨hbyValue.trans (byValue_of_none hqk).symm, h⟩
    | some w => exact absurd (prefix_of_word_eq hpk hqk h) (hp hbyValue _ w hqk)
  | some v =>
    cases hqk : q.mode.keyword? with
    | none => exact absurd (prefix_of_word_eq hqk hpk h.symm) (hq (byValue_of_none hqk) _ v hpk)
    | some w =>
      rw [word_of_some hpk, word_of_some hqk] at h
      have hchars := congrArg String.toList h
      rw [String.toList_append, String.toList_append] at hchars
      have hheads : v.toList.head? = w.toList.head? := by
        have hheads := congrArg List.head? hchars
        rwa [List.head?_append_of_ne_nil _ (keyword_ne_nil hpk),
          List.head?_append_of_ne_nil _ (keyword_ne_nil hqk)] at hheads
      have hmode := PassingMode.eq_of_head? hpk hqk hheads
      rw [hmode, hqk] at hpk
      obtain rfl := Option.some.inj hpk
      exact ⟨hmode, String.toList_inj.mp (List.append_cancel_left hchars)⟩

/-- What words tell of their parameters one by one they tell of the list of them. -/
theorem map_eq_of_words {β : Type} {f : ParameterSymbol → β} : ∀ {ps qs : List ParameterSymbol},
    (∀ p ∈ ps, ∀ q ∈ qs, p.word = q.word → f p = f q) →
      ps.map word = qs.map word → ps.map f = qs.map f
  | [], [], _, _ => rfl
  | [], q :: qs, _, h => by cases h
  | p :: ps, [], _, h => by cases h
  | p :: ps, q :: qs, hall, h => by
    obtain ⟨hword, hwords⟩ := List.cons.inj h
    have hfirst := hall p List.mem_cons_self q List.mem_cons_self hword
    have hmore := map_eq_of_words (fun p hp q hq => hall p (List.mem_cons_of_mem _ hp) q
      (List.mem_cons_of_mem _ hq)) hwords
    rw [List.map_cons, List.map_cons, hfirst, hmore]

end ParameterSymbol

namespace MethodSymbol

variable {m k : MethodSymbol}

/-- Methods of the same modes and types read alike. -/
theorem SameOverload.readsLike (h : m.SameOverload k) : m.ReadsLike k := by
  refine ⟨h.name, h.arity, ?_⟩
  have hwords := congrArg (List.map fun x : PassingMode × TypeSymbol =>
    x.1.keyword?.getD "" ++ x.2.text) h.parameters
  rw [List.map_map, List.map_map] at hwords
  exact hwords

/-- **Readable methods that read alike have the same modes and types.** -/
theorem sameOverload_iff (h : m.Readable k) : m.SameOverload k ↔ m.ReadsLike k := by
  refine ⟨SameOverload.readsLike, fun hreads => ⟨hreads.name, hreads.arity, ?_⟩⟩
  refine ParameterSymbol.map_eq_of_words (fun p hp q hq hword => ?_) hreads.words
  obtain ⟨hmode, htext⟩ := ParameterSymbol.mode_and_text_of_word_eq
    (h.modes p (List.mem_append_left _ hp)) (h.modes q (List.mem_append_right _ hq)) hword
  rw [ParameterSymbol.slot, ParameterSymbol.slot, hmode, h.types p hp q hq htext]

/-- The method is mistaken for the other: they read alike, though they differ in shape. Then one of
them passes a type by value whose text begins with the word of a mode. -/
structure MistakenFor (m k : MethodSymbol) : Prop where
  readsLike : m.ReadsLike k
  shape_ne : m.shape ≠ k.shape
  mode : ∃ p ∈ m.parameters ++ k.parameters, p.mode = .byValue ∧ ∃ mode keyword,
    PassingMode.keyword? mode = some keyword ∧ keyword.toList <+: p.type.text.toList

/-- **Methods that read alike have one shape, unless one is mistaken for the other.** -/
theorem mistakenFor_iff : m.MistakenFor k ↔ m.ReadsLike k ∧ m.shape ≠ k.shape := by
  refine ⟨fun h => ⟨h.readsLike, h.shape_ne⟩, fun ⟨hreads, hshape⟩ => ⟨hreads, hshape, ?_⟩⟩
  by_contra hmode
  refine hshape ?_
  have hplain : ∀ p ∈ m.parameters ++ k.parameters, p.mode = .byValue → ∀ mode keyword,
      PassingMode.keyword? mode = some keyword → ¬ keyword.toList <+: p.type.text.toList :=
    fun p hp hvalue mode keyword hkeyword hbegins =>
      hmode ⟨p, hp, hvalue, mode, keyword, hkeyword, hbegins⟩
  have hparameters : m.parameters.map (fun p => (p.mode, p.type.text)) =
      k.parameters.map fun p => (p.mode, p.type.text) := by
    refine ParameterSymbol.map_eq_of_words (fun p hp q hq hword => ?_) hreads.words
    obtain ⟨hsame, htext⟩ := ParameterSymbol.mode_and_text_of_word_eq
      (hplain p (List.mem_append_left _ hp)) (hplain q (List.mem_append_right _ hq)) hword
    rw [hsame, htext]
  rw [shape, shape, hreads.name, hreads.arity, hparameters]

end MethodSymbol

/-- Named methods are taken for one exactly if one is mistaken for the other. -/
theorem Member.mixedUp_iff {m k : MethodSymbol} (hm : m.IsNamed) (hk : k.IsNamed) :
    (Member.method m).MixedUp (.method k) ↔ m.MistakenFor k := by
  rw [MethodSymbol.mistakenFor_iff, ← MethodSymbol.overloadKey_eq_iff hm hk]
  exact Iff.rfl

/-! ### The class -/

namespace Compilation

variable {options : CompilationOptions} {sources : List SourceText} {source : ReferenceSource}

theorem isNamed_of_verdict (hsource : source.IsIndexed) {v : Judged} {m : MethodSymbol}
    (hv : v ∈ verdicts options sources source) (hm : v.member = .method m) : m.IsNamed := by
  have hread : ∀ d ∈ sources.map Document.read, d.IsNamed :=
    List.forall_mem_map.mpr fun s _ => Document.isNamed_read s
  have hmem := member_mem_declared hv
  rw [hm] at hmem
  exact isNamed_of_declared (isNamed_scopeOf hsource _ hread) hread hmem

theorem isNamed_of_taken (hsource : source.IsIndexed) {before after : List Judged}
    (hsplit : verdicts options sources source = before ++ after) {k : MethodSymbol}
    (hk : .method k ∈ takenOf before) : k.IsNamed := by
  obtain ⟨v, hv, hmember⟩ := List.mem_map.mp hk
  have hmem : v ∈ verdicts options sources source := by
    rw [hsplit]
    exact List.mem_append_left _ (List.mem_filter.mp hv).1
  exact isNamed_of_verdict hsource hmem hmember

/-- Verdicts whose first is on a method, as seen by a property of methods. -/
theorem exists_method_cons {β : Type} {f : MethodSymbol → β} {vs : List Judged} {taken : Bool} {x : β}
    {rest : List (Bool × Option β)}
    (h : vs.map (fun v => (v.taken, v.member.method?.map f)) = (taken, some x) :: rest) :
    ∃ m more, vs = ⟨.method m, taken⟩ :: more ∧ f m = x ∧
      more.map (fun v => (v.taken, v.member.method?.map f)) = rest := by
  obtain ⟨v, more, rfl, hv, hmore⟩ := List.map_eq_cons_iff.mp h
  obtain ⟨htaken, hmethod⟩ := Prod.mk.inj hv
  obtain ⟨m, hm, hx⟩ := Option.map_eq_some_iff.mp hmethod
  refine ⟨m, more, ?_, hx, hmore⟩
  rw [← htaken, ← Member.eq_method_of_method? hm]

/-- Two verdicts on methods. -/
theorem exists_methods {β : Type} {f : MethodSymbol → β} {vs : List Judged} {s t : Bool} {x y : β}
    (h : vs.map (fun v => (v.taken, v.member.method?.map f)) = [(s, some x), (t, some y)]) :
    ∃ k m, vs = [⟨.method k, s⟩, ⟨.method m, t⟩] ∧ f k = x ∧ f m = y := by
  obtain ⟨k, more, rfl, hk, hmore⟩ := exists_method_cons h
  obtain ⟨m, more', rfl, hm, hmore'⟩ := exists_method_cons hmore
  obtain rfl := List.map_eq_nil_iff.mp hmore'
  exact ⟨k, m, rfl, hk, hm⟩

/-- Where one method was taken, nothing but methods were. -/
theorem isMethod_of_taken_one {k : MethodSymbol} {name : String} :
    ∀ n ∈ takenOf [⟨.method k, true⟩], n.name = name → n.isMethod :=
  List.forall_mem_singleton.mpr fun _ => rfl

theorem eq_of_taken_one {k n : MethodSymbol} (h : .method n ∈ takenOf [⟨.method k, true⟩]) : n = k :=
  Member.method.inj (List.mem_singleton.mp h)

/-- **The members of the class.** Every declared name is judged once and in order, and its member is
taken, or else reported at the name. No two methods taken share name, number of type parameters, and
modes and types of their parameters, and what is no method shares its name with no other member. A
member is not taken exactly if it clashes with one taken before in this sense, or if it is a method
that is mistaken for one. -/
theorem scriptClass_decided (options : CompilationOptions) (sources : List SourceText)
    (source : ReferenceSource) :
    (create options sources source).Decides (verdicts options sources source) ∧
      (create options sources source).scriptClass.methods.Pairwise (fun m k => m.shape ≠ k.shape) ∧
      (create options sources source).scriptClass.members.Pairwise (fun m k =>
        m.name = k.name → m.isMethod ∧ k.isMethod) ∧
      (source.IsIndexed → ∀ before v after,
        verdicts options sources source = before ++ v :: after →
          (v.taken = false ↔ (∃ k ∈ takenOf before, v.member.Clashes k) ∨
            ∃ m k, v.member = .method m ∧ .method k ∈ takenOf before ∧ m.MistakenFor k)) := by
  have hdecides := decides_create options sources source
  refine ⟨hdecides, pairwise_shapes options sources source, pairwise_names options sources source,
    fun hsource before v after hsplit => ?_⟩
  have hv : v ∈ verdicts options sources source := by
    rw [hsplit]
    exact List.mem_append_right _ List.mem_cons_self
  have hmixed : (∃ k ∈ takenOf before, v.member.MixedUp k) ↔
      ∃ m k, v.member = .method m ∧ .method k ∈ takenOf before ∧ m.MistakenFor k := by
    constructor
    · rintro ⟨k, hk, hmixed⟩
      obtain ⟨m, k, hm, rfl⟩ := Member.exists_methods_of_mixedUp hmixed
      rw [hm] at hmixed
      exact ⟨m, k, hm, hk, (Member.mixedUp_iff (isNamed_of_verdict hsource hv hm)
        (isNamed_of_taken hsource hsplit hk)).mp hmixed⟩
    · rintro ⟨m, k, hm, hk, hmistaken⟩
      refine ⟨.method k, hk, ?_⟩
      rw [hm]
      exact (Member.mixedUp_iff (isNamed_of_verdict hsource hv hm)
        (isNamed_of_taken hsource hsplit hk)).mpr hmistaken
  rw [hdecides.verdict before v after hsplit, ← hmixed, ← exists_or]
  exact exists_congr fun k => and_or_left

/-- A field that a method keeps out does not keep out another method. -/
def rejectedField : List SourceText :=
  [⟨"run.csx", "void F(int a) { } int F; void F(string a) { }"⟩]

theorem rejectedField_decided :
    (AssemblyLibrary.standard.source .empty).IsIndexed ∧
      (create .standard rejectedField (AssemblyLibrary.standard.source .empty)).Decides
        (verdicts .standard rejectedField (AssemblyLibrary.standard.source .empty)) ∧
      (verdicts .standard rejectedField (AssemblyLibrary.standard.source .empty)).map (·.taken) =
        [true, false, true] ∧
      ∀ before v after,
        verdicts .standard rejectedField (AssemblyLibrary.standard.source .empty) =
            before ++ v :: after →
          (v.taken = false ↔ (∃ k ∈ takenOf before, v.member.Clashes k) ∨
            ∃ m k, v.member = .method m ∧ .method k ∈ takenOf before ∧ m.MistakenFor k) := by
  have hindexed := isIndexed_standard .empty
  obtain ⟨hdecides, -, -, hrejects⟩ := scriptClass_decided .standard rejectedField _
  exact ⟨hindexed, hdecides, by decide +kernel, hrejects hindexed⟩

/-- A class whose name begins with the word of a mode. -/
def outInName : List SourceText :=
  [⟨"run.csx", "class X { }\nclass outX { }\nvoid F(out X a) { }\nvoid F(outX b) { }"⟩]

/-- A member may be rejected though it clashes with none that was taken. -/
theorem outInName_rejected :
    ¬ ∀ (options : CompilationOptions) (sources : List SourceText) (source : ReferenceSource),
      source.IsIndexed → ∀ before v after,
        verdicts options sources source = before ++ v :: after → v.taken = false →
          ∃ k ∈ takenOf before, v.member.Clashes k := by
  intro h
  have hmodes : (verdicts .standard outInName (AssemblyLibrary.standard.source .empty)).map
      (fun v => (v.taken, v.member.method?.map fun m => m.parameters.map (·.mode))) =
        [(true, some [.byOut]), (false, some [.byValue])] := by decide +kernel
  obtain ⟨k, m, hvs, hk, hm⟩ := exists_methods hmodes
  obtain ⟨n, hn, hclash⟩ := h .standard outInName _ (isIndexed_standard .empty)
    [⟨.method k, true⟩] ⟨.method m, false⟩ [] hvs rfl
  obtain rfl := List.mem_singleton.mp hn
  have hshape : m.shape = k.shape := hclash
  have hsame := congrArg (·.2.2.map Prod.fst) hshape
  simp only [MethodSymbol.shape, List.map_map] at hsame
  have hsamemode : m.parameters.map (·.mode) = k.parameters.map (·.mode) := hsame
  rw [hm, hk] at hsamemode
  exact absurd hsamemode (by decide)

/-- **Which methods are rejected.** A method whose name no field or property has is rejected exactly
if it reads like one that was taken before; so it is if one taken before has the same modes and
types, and where it is readable beside the methods taken before, only then. -/
theorem method_rejected_iff (hsource : source.IsIndexed) {before after : List Judged}
    {m : MethodSymbol} {taken : Bool}
    (hsplit : verdicts options sources source = before ++ ⟨.method m, taken⟩ :: after)
    (hdata : ∀ k ∈ takenOf before, k.name = m.name → k.isMethod) :
    (create options sources source).Decides (verdicts options sources source) ∧
      (taken = false ↔ ∃ k, .method k ∈ takenOf before ∧ m.ReadsLike k) ∧
      ((∃ k, .method k ∈ takenOf before ∧ m.SameOverload k) → taken = false) ∧
      ((∀ k, .method k ∈ takenOf before → m.Readable k) →
        (taken = false ↔ ∃ k, .method k ∈ takenOf before ∧ m.SameOverload k)) := by
  have hdecides := decides_create options sources source
  have hverdict : taken = false ↔ ∃ k ∈ takenOf before, (Member.method m).clashesWith k = true :=
    (hdecides.verdict _ _ _ hsplit).trans
      (exists_congr fun k => and_congr_right fun _ => Member.clashesWith_iff.symm)
  have hm : m.IsNamed := by
    have hv : ⟨.method m, taken⟩ ∈ verdicts options sources source := by
      rw [hsplit]
      exact List.mem_append_right _ List.mem_cons_self
    exact isNamed_of_verdict hsource hv rfl
  have hk {k : MethodSymbol} (hk : .method k ∈ takenOf before) : k.IsNamed :=
    isNamed_of_taken hsource hsplit hk
  have hreads : taken = false ↔ ∃ k, .method k ∈ takenOf before ∧ m.ReadsLike k := by
    refine hverdict.trans ?_
    constructor
    · rintro ⟨k, hmem, hclash⟩
      cases k with
      | method k =>
        exact ⟨k, hmem, (MethodSymbol.overloadKey_eq_iff hm (hk hmem)).mp (beq_iff_eq.mp hclash)⟩
      | field f => exact absurd (hdata _ hmem (beq_iff_eq.mp hclash).symm) Bool.false_ne_true
      | property p => exact absurd (hdata _ hmem (beq_iff_eq.mp hclash).symm) Bool.false_ne_true
    · rintro ⟨k, hmem, hreads⟩
      exact ⟨_, hmem, beq_iff_eq.mpr ((MethodSymbol.overloadKey_eq_iff hm (hk hmem)).mpr hreads)⟩
  refine ⟨hdecides, hreads, ?_, fun hreadable => hreads.trans ?_⟩
  · rintro ⟨k, hmem, hsame⟩
    exact hreads.mpr ⟨k, hmem, hsame.readsLike⟩
  · exact exists_congr fun k => and_congr_right fun hmem =>
      (MethodSymbol.sameOverload_iff (hreadable k hmem)).symm

/-- A method that is declared twice, with its type spelled in two ways. -/
def declaredTwice : List SourceText :=
  [⟨"run.csx", "void F(int a) { }\nint F(Int32 b) { return b; }"⟩]

theorem declaredTwice_rejected :
    (AssemblyLibrary.standard.source .empty).IsIndexed ∧
      ∃ k m, verdicts .standard declaredTwice (AssemblyLibrary.standard.source .empty) =
          [⟨.method k, true⟩] ++ ⟨.method m, false⟩ :: [] ∧
        (∀ n ∈ takenOf [⟨.method k, true⟩], n.name = m.name → n.isMethod) ∧ m.ReadsLike k := by
  have hview : (verdicts .standard declaredTwice (AssemblyLibrary.standard.source .empty)).map
      (fun v => (v.taken, v.member.method?.map (·.name))) =
        [(true, some "F"), (false, some "F")] := by decide +kernel
  obtain ⟨k, m, hvs, -, -⟩ := exists_methods hview
  have hindexed := isIndexed_standard .empty
  obtain ⟨-, hreads, -, -⟩ := method_rejected_iff hindexed hvs isMethod_of_taken_one
  obtain ⟨n, hn, hlike⟩ := hreads.mp rfl
  obtain rfl := eq_of_taken_one hn
  exact ⟨hindexed, n, m, hvs, isMethod_of_taken_one, hlike⟩

/-- A class whose name begins with the word of a mode. -/
def modeInName : List SourceText :=
  [⟨"run.csx", "class X { }\nclass refX { }\nvoid F(ref X a) { }\nvoid F(refX b) { }"⟩]

/-- A type parameter and a class of one name. -/
def typesOfOneText : List SourceText :=
  [⟨"run.csx", "class T { }\nvoid F<T>(T a) { }\nvoid F<U>(T b) { }"⟩]

/-- Methods of different modes or types may be confused: the second of these is rejected though
the only one taken before it passes its parameter otherwise, or has another type there. -/
theorem overloads_confused :
    (∃ k m, verdicts .standard modeInName (AssemblyLibrary.standard.source .empty) =
        [⟨.method k, true⟩, ⟨.method m, false⟩] ∧
      k.parameters.map (·.mode) = [.byRef] ∧ m.parameters.map (·.mode) = [.byValue]) ∧
    (∃ k m, verdicts .standard typesOfOneText (AssemblyLibrary.standard.source .empty) =
        [⟨.method k, true⟩, ⟨.method m, false⟩] ∧
      k.parameters.map (·.type.kind) = [.typeParameter] ∧
      m.parameters.map (·.type.kind) = [.classType]) ∧
    ¬ ∀ (options : CompilationOptions) (sources : List SourceText) (source : ReferenceSource)
      (before after : List Judged) (m : MethodSymbol) (taken : Bool), source.IsIndexed →
        verdicts options sources source = before ++ ⟨.method m, taken⟩ :: after →
          (∀ k ∈ takenOf before, k.name = m.name → k.isMethod) →
            (taken = false ↔ ∃ k, .method k ∈ takenOf before ∧ m.SameOverload k) := by
  have hmodes : (verdicts .standard modeInName (AssemblyLibrary.standard.source .empty)).map
      (fun v => (v.taken, v.member.method?.map fun m => m.parameters.map (·.mode))) =
        [(true, some [.byRef]), (false, some [.byValue])] := by decide +kernel
  have htypes : (verdicts .standard typesOfOneText (AssemblyLibrary.standard.source .empty)).map
      (fun v => (v.taken, v.member.method?.map fun m => m.parameters.map (·.type.kind))) =
        [(true, some [.typeParameter]), (false, some [.classType])] := by decide +kernel
  obtain ⟨k, m, hvs, hk, hm⟩ := exists_methods hmodes
  refine ⟨⟨k, m, hvs, hk, hm⟩, exists_methods htypes, fun h => ?_⟩
  have hiff := h .standard modeInName _ [⟨.method k, true⟩] [] m false (isIndexed_standard .empty) hvs
    isMethod_of_taken_one
  obtain ⟨n, hn, hsame⟩ := hiff.mp rfl
  obtain rfl := eq_of_taken_one hn
  -- one slot for each parameter, and the first of a slot is the mode
  have hslots := congrArg (List.map Prod.fst) hsame.parameters
  rw [List.map_map, List.map_map] at hslots
  have hsamemode : m.parameters.map (·.mode) = n.parameters.map (·.mode) := hslots
  rw [hm, hk] at hsamemode
  exact absurd hsamemode (by decide)

end Compilation

end ScriptHost
