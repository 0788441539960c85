/-
# Values are read back from one line

`Json.parse?` reads what `Value.compact` writes (`parse?_compact`), for every value that has
a text of its own: no part of it is `other`, and every name in a table is a text
(`Value.HasText`). The reader's steps are bounded by the length of the text; what one value
takes of them is twice its bytes, so the bound is never felt.

Key definitions: `Value.HasText`, `Json.ReadsBack`.
Key theorems: `Json.readsBack_of_hasText`, `Json.parse?_compact`.
-/
import ScriptHost.Proofs.Json.Scalars

namespace ScriptHost
namespace Data

namespace Value

mutual
/-- The values that are written as what they are. -/
def HasText : Value → Prop
  | other => False
  | list items => AllHaveText items
  | table entries => EntriesHaveText entries
  | null | bool _ | natural _ | text _ => True

/-- Every item is written as what it is. -/
def AllHaveText : List Value → Prop
  | [] => True
  | v :: more => HasText v ∧ AllHaveText more

/-- Every entry has a name, and its value is written as what it is. -/
def EntriesHaveText : List (Option String × Value) → Prop
  | [] => True
  | (name, v) :: more => name.isSome ∧ HasText v ∧ EntriesHaveText more
end

theorem allHaveText_iff : ∀ vs : List Value, AllHaveText vs ↔ ∀ v ∈ vs, HasText v
  | [] => by simp [AllHaveText]
  | v :: more => by simp [AllHaveText, allHaveText_iff more]

theorem entriesHaveText_ofEntries : ∀ entries : List (String × Value),
    (∀ e ∈ entries, HasText e.2) → HasText (ofEntries entries)
  | [], _ => trivial
  | e :: more, h =>
    ⟨rfl, h e (List.mem_cons_self ..),
      entriesHaveText_ofEntries more fun x hx => h x (List.mem_cons_of_mem _ hx)⟩

end Value

namespace Json

open Utf8 Value

/-! ### How a text goes on -/

theorem skipBlanks_cons {b : UInt8} (r : Bytes) (hb : isBlank b = false) :
    skipBlanks (b :: r) = b :: r := by
  simp [skipBlanks, hb]

theorem endsNumber_nil : EndsNumber [] := by simp [EndsNumber]

theorem endsNumber_cons {b : UInt8} (r : Bytes)
    (hb : b = ascii ',' ∨ b = ascii ']' ∨ b = ascii '\x7d') : EndsNumber (b :: r) := by
  rcases hb with rfl | rfl | rfl <;> simp [EndsNumber] <;> decide

theorem bytes_comma (s : String) : bytes ("," ++ s) = ascii ',' :: bytes s := by
  rw [bytes_append, show bytes "," = [ascii ','] by decide]
  rfl

theorem digit_not_punctuation {b : UInt8} (hd : isDigit b) :
    isBlank b = false ∧ b ≠ ascii '"' ∧ b ≠ ascii '[' ∧ b ≠ ascii ']' ∧ b ≠ ascii '\x7b' ∧
      b ≠ ascii 't' ∧ b ≠ ascii 'f' ∧ b ≠ ascii 'n' := by
  have hne : ∀ x : UInt8, isDigit x = false → b ≠ x := by
    intro x hx he
    rw [he, hx] at hd
    cases hd
  refine ⟨?_, hne _ (by decide), hne _ (by decide), hne _ (by decide), hne _ (by decide),
    hne _ (by decide), hne _ (by decide), hne _ (by decide)⟩
  simp only [isBlank, Bool.or_eq_false_iff, beq_eq_false_iff_ne]
  exact ⟨⟨⟨hne _ (by decide), hne _ (by decide)⟩, hne _ (by decide)⟩, hne _ (by decide)⟩

/-- The text of a natural starts with a digit. -/
theorem natural_head (n : Nat) : ∃ b bs, bytes (toString n) = b :: bs ∧ isDigit b := by
  have hall : ∀ c ∈ Nat.toDigits 10 n, c.isDigit := fun c hc =>
    Nat.isDigit_of_mem_toDigits (by decide) (by decide) hc
  rw [Nat.toString_eq_ofList_toDigits, bytes_ofList, encode_digits _ hall]
  cases hd : Nat.toDigits 10 n with
  | nil => exact absurd hd Nat.toDigits_ne_nil
  | cons c cs => exact ⟨_, _, rfl, (isDigit_ascii (hall c (by rw [hd]; simp))).1⟩

/-- The text of a value starts with no blank and with no bracket that closes a list. -/
theorem compact_head (v : Value) :
    ∃ b bs, bytes v.compact = b :: bs ∧ isBlank b = false ∧ b ≠ ascii ']' := by
  cases v with
  | null => exact ⟨_, _, rfl, by decide, by decide⟩
  | other => exact ⟨_, _, rfl, by decide, by decide⟩
  | bool b => cases b <;> exact ⟨_, _, rfl, by decide, by decide⟩
  | natural n =>
    obtain ⟨b, bs, he, hd⟩ := natural_head n
    exact ⟨b, bs, by rw [compact, he], (digit_not_punctuation hd).1,
      (digit_not_punctuation hd).2.2.2.1⟩
  | text s =>
    obtain ⟨inside, he, -⟩ := string?_quoted s []
    rw [List.append_nil] at he
    exact ⟨_, inside, by rw [compact, he], by decide, by decide⟩
  | list items =>
    cases items with
    | nil => exact ⟨_, _, rfl, by decide, by decide⟩
    | cons v more =>
      simp only [compact, String.append_assoc, bytes_append "["]
      exact ⟨_, _, rfl, by decide, by decide⟩
  | table entries =>
    cases entries with
    | nil => exact ⟨_, _, rfl, by decide, by decide⟩
    | cons e more =>
      simp only [compact, String.append_assoc, bytes_append "\x7b"]
      exact ⟨_, _, rfl, by decide, by decide⟩

/-! ### Reading a value -/

/-- The reader of values gives `v` for its text, in as many steps as twice its bytes. -/
def ReadsBack (v : Value) : Prop :=
  ∀ (n : Nat) (r : Bytes), EndsNumber r → 2 * (bytes v.compact).length ≤ n →
    valueWithin n (bytes v.compact ++ r) = some (v, r)

theorem readsBack_word (v : Value) (w : UInt8) (word : List Char)
    (hv : bytes v.compact = w :: word.map ascii)
    (hw : ∀ n r, valueWithin (n + 1) (w :: r) = (afterWord? word r).map (v, ·)) :
    ReadsBack v := by
  intro n r _ hn
  have hp : (word.map ascii).isPrefixOf (word.map ascii ++ r) := by
    rw [List.isPrefixOf_iff_prefix]
    exact List.prefix_append _ _
  rw [hv] at hn ⊢
  obtain ⟨k, rfl⟩ : ∃ k, n = k + 1 := ⟨n - 1, by simp at hn; omega⟩
  rw [List.cons_append, hw, afterWord?, if_pos hp, List.drop_left]
  rfl

theorem readsBack_natural (k : Nat) : ReadsBack (natural k) := by
  intro n r hr hn
  obtain ⟨b, bs, he, hd⟩ := natural_head k
  have hnum := number?_digits k hr
  simp only [compact] at hn ⊢
  rw [he] at hn hnum ⊢
  obtain ⟨m, rfl⟩ : ∃ m, n = m + 1 := ⟨n - 1, by simp at hn; omega⟩
  obtain ⟨-, h1, h2, -, h3, h4, h5, h6⟩ := digit_not_punctuation hd
  rw [List.cons_append, valueWithin.eq_def]
  simp only [h1, h2, h3, h4, h5, h6, ↓reduceIte]
  exact hnum

theorem readsBack_text (s : String) : ReadsBack (text s) := by
  intro n r _ hn
  obtain ⟨inside, he, hs⟩ := string?_quoted s r
  have hl := congrArg List.length he
  simp only [compact] at hn ⊢
  have hpos : (bytes (quoted s)).length ≠ 0 := by
    intro h0
    obtain ⟨i, hi, -⟩ := string?_quoted s []
    rw [List.append_nil] at hi
    simp [hi] at h0
  obtain ⟨m, rfl⟩ : ∃ m, n = m + 1 := ⟨n - 1, by omega⟩
  rw [he, valueWithin.eq_def]
  simp only [↓reduceIte, hs]
  rfl

/-- A value and the items behind it are read up to the closing bracket, if the value is
read back and so is each item. -/
theorem itemsWithin_compact : ∀ (more : List Value) (v : Value), ReadsBack v →
    (∀ w ∈ more, ReadsBack w) → ∀ (n : Nat) (r : Bytes),
    2 * (bytes v.compact).length + 2 * (bytes (compactItems more)).length + 1 ≤ n →
    itemsWithin n (bytes v.compact ++ (bytes (compactItems more) ++ ascii ']' :: r)) =
      some (v :: more, r) := by
  intro more
  induction more with
  | nil =>
    intro v hv _ n r hn
    obtain ⟨m, rfl⟩ : ∃ m, n = m + 1 := ⟨n - 1, by omega⟩
    have hone := hv m (ascii ']' :: r) (endsNumber_cons r (by simp)) (by omega)
    rw [show bytes (compactItems []) = [] by decide, List.nil_append, itemsWithin, hone]
    simp only [Option.bind_eq_bind, Option.bind_some,
      skipBlanks_cons r (show isBlank (ascii ']') = false by decide), ↓reduceIte]
    rfl
  | cons w more ih =>
    intro v hv hw n r hn
    obtain ⟨m, rfl⟩ : ∃ m, n = m + 1 := ⟨n - 1, by omega⟩
    obtain ⟨b, bs, hb, hblank, -⟩ := compact_head w
    have hcomma : bytes (compactItems (w :: more)) =
        ascii ',' :: (bytes w.compact ++ bytes (compactItems more)) := by
      rw [compactItems, String.append_assoc, bytes_comma, bytes_append]
    rw [hcomma] at hn ⊢
    simp only [List.length_cons, List.length_append] at hn
    have hrest := ih w (hw w (List.mem_cons_self ..))
      (fun x hx => hw x (List.mem_cons_of_mem _ hx)) m r (by omega)
    have hone := hv m (ascii ',' :: (bytes w.compact ++ (bytes (compactItems more) ++ ascii ']' :: r)))
      (endsNumber_cons _ (by simp)) (by omega)
    rw [List.cons_append, List.append_assoc, itemsWithin, hone]
    simp only [Option.bind_eq_bind, Option.bind_some,
      skipBlanks_cons _ (show isBlank (ascii ',') = false by decide),
      show ascii ',' ≠ ascii ']' by decide, ↓reduceIte]
    have hskip : skipBlanks (bytes w.compact ++ (bytes (compactItems more) ++ ascii ']' :: r)) =
        bytes w.compact ++ (bytes (compactItems more) ++ ascii ']' :: r) := by
      rw [hb]; exact skipBlanks_cons _ hblank
    rw [hskip, hrest]
    rfl

/-- An entry is read: its name, the colon and its value. What stands behind it decides how
the table goes on. -/
theorem entriesWithin_entry (name : String) {v : Value} (hv : ReadsBack v) (n : Nat) {r : Bytes}
    (hr : EndsNumber r) (hn : 2 * (bytes v.compact).length ≤ n) :
    entriesWithin (n + 1) (bytes (quoted name) ++ (ascii ':' :: (bytes v.compact ++ r))) =
      match skipBlanks r with
      | [] => none
      | b :: rest =>
        if b = ascii '\x7d' then some ([(some name, v)], rest)
        else if b = ascii ',' then
          (entriesWithin n (skipBlanks rest)).map fun p => ((some name, v) :: p.1, p.2)
        else none := by
  obtain ⟨inside, hi, hs⟩ := string?_quoted name (ascii ':' :: (bytes v.compact ++ r))
  obtain ⟨b, bs, hb, hblank, -⟩ := compact_head v
  have hquote : afterWord? ['"'] (ascii '"' :: inside) = some inside := by
    simp [afterWord?]
  have hcolon : afterWord? [':'] (skipBlanks (ascii ':' :: (bytes v.compact ++ r))) =
      some (bytes v.compact ++ r) := by
    rw [skipBlanks_cons _ (by decide)]
    simp [afterWord?]
  have hskip : skipBlanks (bytes v.compact ++ r) = bytes v.compact ++ r := by
    rw [hb]; exact skipBlanks_cons _ hblank
  rw [hi, entriesWithin]
  simp only [hquote, hs, hcolon, hskip, hv n r hr hn, Option.bind_eq_bind, Option.bind_some]
  cases skipBlanks r with
  | nil => rfl
  | cons b rest =>
    simp only [Option.pure_def]
    cases entriesWithin n (skipBlanks rest) <;> rfl

/-- A named value and the entries behind it are read up to the closing brace, if the value is
read back and so is that of each entry. -/
theorem entriesWithin_compact : ∀ (more : List (Option String × Value)) (name : String) (v : Value),
    ReadsBack v → (∀ e ∈ more, e.1.isSome ∧ ReadsBack e.2) → ∀ (n : Nat) (r : Bytes),
    2 * (bytes v.compact).length + 2 * (bytes (compactEntries more)).length + 1 ≤ n →
    entriesWithin n (bytes (quoted name) ++ (ascii ':' :: (bytes v.compact
        ++ (bytes (compactEntries more) ++ ascii '\x7d' :: r)))) =
      some ((some name, v) :: more, r) := by
  intro more
  induction more with
  | nil =>
    intro name v hv _ n r hn
    obtain ⟨m, rfl⟩ : ∃ m, n = m + 1 := ⟨n - 1, by omega⟩
    rw [show bytes (compactEntries []) = [] by decide, List.nil_append,
      entriesWithin_entry name hv m (endsNumber_cons r (by simp)) (by omega),
      skipBlanks_cons r (by decide)]
    rfl
  | cons e more ih =>
    intro name v hv he n r hn
    obtain ⟨m, rfl⟩ : ∃ m, n = m + 1 := ⟨n - 1, by omega⟩
    obtain ⟨⟨hname, hw⟩, hmore⟩ := List.forall_mem_cons.mp he
    obtain ⟨name', w⟩ := e
    obtain ⟨name', rfl⟩ := Option.isSome_iff_exists.mp hname
    have hcomma : bytes (compactEntries ((some name', w) :: more)) =
        ascii ',' :: (bytes (quoted name') ++ (ascii ':' :: (bytes w.compact
          ++ bytes (compactEntries more)))) := by
      rw [compactEntries, String.append_assoc, String.append_assoc, String.append_assoc, bytes_comma,
        bytes_append, bytes_append ":", bytes_append w.compact]
      rfl
    rw [hcomma] at hn ⊢
    simp only [List.length_cons, List.length_append] at hn
    have hrest := ih name' w hw hmore m r (by omega)
    obtain ⟨inside, hi, -⟩ := string?_quoted name' (ascii ':' :: (bytes w.compact
      ++ (bytes (compactEntries more) ++ ascii '\x7d' :: r)))
    rw [List.cons_append, entriesWithin_entry name hv m (endsNumber_cons _ (by simp)) (by omega),
      skipBlanks_cons _ (by decide)]
    simp only [List.append_assoc, List.cons_append, show ascii ',' ≠ ascii '\x7d' by decide, ↓reduceIte]
    rw [hi, skipBlanks_cons _ (by decide), ← hi, hrest]
    rfl

/-- A list is read back if its items are. -/
theorem readsBack_list : ∀ vs : List Value, (∀ v ∈ vs, ReadsBack v) → ReadsBack (list vs)
  | [], _ => by
    intro n r _ hn
    rw [show bytes (list []).compact = [ascii '[', ascii ']'] by decide] at hn ⊢
    obtain ⟨m, rfl⟩ : ∃ m, n = m + 1 := ⟨n - 1, by simp at hn; omega⟩
    rw [List.cons_append, List.cons_append, valueWithin.eq_def]
    simp only [show ascii '[' ≠ ascii '"' by decide, ↓reduceIte,
      skipBlanks_cons _ (show isBlank (ascii ']') = false by decide)]
    rfl
  | v :: more, h => by
    intro n r _ hn
    obtain ⟨hv, hmore⟩ := List.forall_mem_cons.mp h
    obtain ⟨b, bs, hb, hblank, hclose⟩ := compact_head v
    have hlist : bytes (list (v :: more)).compact =
        ascii '[' :: (bytes v.compact ++ (bytes (compactItems more) ++ [ascii ']'])) := by
      rw [compact, String.append_assoc, String.append_assoc, bytes_append, bytes_append v.compact,
        bytes_append (compactItems more), show bytes "[" = [ascii '['] by decide,
        show bytes "]" = [ascii ']'] by decide]
      rfl
    rw [hlist] at hn ⊢
    simp only [List.length_cons, List.length_append, List.length_nil] at hn
    obtain ⟨m, rfl⟩ : ∃ m, n = m + 1 := ⟨n - 1, by omega⟩
    have hitems := itemsWithin_compact more v hv hmore m r (by omega)
    simp only [List.cons_append, List.append_assoc, List.nil_append]
    rw [hb, List.cons_append] at hitems ⊢
    rw [valueWithin.eq_def]
    simp only [show ascii '[' ≠ ascii '"' by decide, ↓reduceIte, skipBlanks_cons _ hblank, hclose,
      hitems]
    rfl

/-- A table is read back if all its names are texts and its values are read back. -/
theorem readsBack_table : ∀ es : List (Option String × Value),
    (∀ e ∈ es, e.1.isSome ∧ ReadsBack e.2) → ReadsBack (table es)
  | [], _ => by
    intro n r _ hn
    rw [show bytes (table []).compact = [ascii '\x7b', ascii '\x7d'] by decide] at hn ⊢
    obtain ⟨m, rfl⟩ : ∃ m, n = m + 1 := ⟨n - 1, by simp at hn; omega⟩
    rw [List.cons_append, List.cons_append, valueWithin.eq_def]
    simp only [show ascii '\x7b' ≠ ascii '"' by decide, show ascii '\x7b' ≠ ascii '[' by decide,
      ↓reduceIte, skipBlanks_cons _ (show isBlank (ascii '\x7d') = false by decide)]
    rfl
  | (name, v) :: more, h => by
    intro n r _ hn
    obtain ⟨⟨hname, hv⟩, hmore⟩ := List.forall_mem_cons.mp h
    obtain ⟨name, rfl⟩ := Option.isSome_iff_exists.mp hname
    have htable : bytes (table ((some name, v) :: more)).compact =
        ascii '\x7b' :: (bytes (quoted name) ++ (ascii ':' :: (bytes v.compact
          ++ (bytes (compactEntries more) ++ [ascii '\x7d'])))) := by
      rw [compact]
      simp only [String.append_assoc]
      rw [bytes_append, bytes_append, bytes_append ":", bytes_append v.compact,
        bytes_append (compactEntries more), show bytes "\x7b" = [ascii '\x7b'] by decide,
        show bytes "\x7d" = [ascii '\x7d'] by decide, show bytes ":" = [ascii ':'] by decide]
      simp only [entryName, Option.getD_some, List.singleton_append]
    rw [htable] at hn ⊢
    simp only [List.length_cons, List.length_append, List.length_nil] at hn
    obtain ⟨m, rfl⟩ : ∃ m, n = m + 1 := ⟨n - 1, by omega⟩
    have hentries := entriesWithin_compact more name v hv hmore m r (by omega)
    obtain ⟨inside, hi, -⟩ := string?_quoted name (ascii ':' :: (bytes v.compact
      ++ (bytes (compactEntries more) ++ ascii '\x7d' :: r)))
    simp only [List.cons_append, List.append_assoc, List.nil_append]
    rw [hi] at hentries ⊢
    rw [valueWithin.eq_def]
    simp only [show ascii '\x7b' ≠ ascii '"' by decide, show ascii '\x7b' ≠ ascii '[' by decide,
      show ascii '"' ≠ ascii '\x7d' by decide, ↓reduceIte,
      skipBlanks_cons _ (show isBlank (ascii '"') = false by decide), hentries]
    rfl

mutual
/-- Every value that has a text is read back from it. -/
theorem readsBack_of_hasText : ∀ v : Value, v.HasText → ReadsBack v
  | .null, _ => readsBack_word _ (ascii 'n') ['u', 'l', 'l'] (by decide) fun _ _ => rfl
  | .bool true, _ => readsBack_word _ (ascii 't') ['r', 'u', 'e'] (by decide) fun _ _ => rfl
  | .bool false, _ => readsBack_word _ (ascii 'f') ['a', 'l', 's', 'e'] (by decide) fun _ _ => rfl
  | .natural n, _ => readsBack_natural n
  | .text s, _ => readsBack_text s
  | .list items, h => readsBack_list items (readsBack_of_allHaveText items h)
  | .table entries, h => readsBack_table entries (readsBack_of_entriesHaveText entries h)
  | .other, h => h.elim

theorem readsBack_of_allHaveText : ∀ vs : List Value, AllHaveText vs → ∀ v ∈ vs, ReadsBack v
  | [], _ => fun _ hv => by cases hv
  | v :: more, h =>
    List.forall_mem_cons.mpr ⟨readsBack_of_hasText v h.1, readsBack_of_allHaveText more h.2⟩

theorem readsBack_of_entriesHaveText : ∀ es : List (Option String × Value),
    EntriesHaveText es → ∀ e ∈ es, e.1.isSome ∧ ReadsBack e.2
  | [], _ => fun _ he => by cases he
  | (_, v) :: more, h =>
    List.forall_mem_cons.mpr
      ⟨⟨h.1, readsBack_of_hasText v h.2.1⟩, readsBack_of_entriesHaveText more h.2.2⟩
end

/-- **A value is read back from one line.** -/
theorem parse?_compact (v : Value) (hv : v.HasText) : parse? (bytes v.compact) = some v := by
  obtain ⟨b, bs, hb, hblank, -⟩ := compact_head v
  have hskip : skipBlanks (bytes v.compact) = bytes v.compact := by
    rw [hb]; exact skipBlanks_cons _ hblank
  have hread := readsBack_of_hasText v hv (2 * (bytes v.compact).length + 2) [] endsNumber_nil
    (by omega)
  rw [List.append_nil] at hread
  rw [parse?, hskip, hread]
  rfl

end Json
end Data
end ScriptHost
