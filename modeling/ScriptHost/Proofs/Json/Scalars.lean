/-
# Written texts and numbers are read back

A text is written with its quotes, backslashes and control characters escaped, and the
scanner of strings takes it apart again: each character leaves pieces whose bytes are its
encoding (`scanString_escape`), so the pieces of a quoted text stand for that text
(`string?_quoted`). A natural is written by its digits, and read back when no byte behind
it goes on with a number (`number?_digits`).

Key definitions: `Json.EndsNumber`.
Key theorems: `Json.length_le_quoted`, `Json.string?_quoted`, `Json.number?_digits`.
-/
import Mathlib.Tactic.SplitIfs
import ScriptHost.Data.Json.Parser
import ScriptHost.Data.Json.Printer
import ScriptHost.Proofs.Bytes.Utf8

namespace ScriptHost

namespace Utf8

theorem bytes_append (s t : String) : bytes (s ++ t) = bytes s ++ bytes t := by
  simp [bytes, encode_append]

theorem bytes_ofList (cs : List Char) : bytes (String.ofList cs) = encode cs := by
  simp [bytes]

end Utf8

namespace Data
namespace Json

open Utf8

/-! ### Texts -/

/-- A byte that stands for itself inside quotes. -/
def IsPlainByte (b : UInt8) : Prop := b ≠ ascii '"' ∧ b ≠ ascii '\\' ∧ ¬ b < 32

theorem scanString_plain (r : Bytes) : ∀ bs : Bytes, (∀ b ∈ bs, IsPlainByte b) →
    scanString (bs ++ r) = (scanString r).map fun p => (bs.map .byte ++ p.1, p.2)
  | [], _ => by simp
  | b :: bs, h => by
    obtain ⟨h1, h2, h3⟩ := h b (List.mem_cons_self ..)
    have ih := scanString_plain r bs fun x hx => h x (List.mem_cons_of_mem _ hx)
    rw [List.cons_append, scanString.eq_def]
    simp only [h1, h2, h3, ↓reduceIte, ih]
    cases scanString r <;> rfl

theorem piecesBytes?_plain (more : List StringPiece) : ∀ bs : Bytes,
    piecesBytes? (bs.map .byte ++ more) = (piecesBytes? more).map (bs ++ ·)
  | [] => by simp
  | b :: bs => by
    rw [List.map_cons, List.cons_append, piecesBytes?, piecesBytes?_plain more bs]
    cases piecesBytes? more <;> rfl

/-- The bytes of a character that is not escaped stand for themselves. -/
theorem plain_encodeChar {c : Char} (h1 : c ≠ '"') (h2 : c ≠ '\\') (h3 : ¬ c.toNat < 32) :
    ∀ b ∈ String.utf8EncodeChar c, IsPlainByte b := by
  have hv := toNat_lt c
  have n1 : c.toNat ≠ 34 := fun h => h1 (Char.toNat_inj.mp h)
  have n2 : c.toNat ≠ 92 := fun h => h2 (Char.toNat_inj.mp h)
  have hp : ∀ b : UInt8, b.toNat ≠ 34 → b.toNat ≠ 92 → 32 ≤ b.toNat → IsPlainByte b := by
    intro b e1 e2 e3
    refine ⟨fun h => e1 ?_, fun h => e2 ?_, ?_⟩
    · rw [h]; rfl
    · rw [h]; rfl
    · simpa [UInt8.lt_iff_toNat_lt] using e3
  intro b hb
  rw [String.utf8EncodeChar.eq_1] at hb
  simp only [show c.val.toNat = c.toNat from rfl] at hb
  split at hb
  · simp only [List.mem_singleton] at hb
    subst hb
    refine hp _ ?_ ?_ ?_ <;> simp only [UInt8.toNat_ofNat'] <;> omega
  split at hb
  · simp only [List.mem_cons, List.not_mem_nil, or_false] at hb
    rcases hb with rfl | rfl <;> refine hp _ ?_ ?_ ?_ <;> simp only [UInt8.toNat_ofNat'] <;> omega
  split at hb
  · simp only [List.mem_cons, List.not_mem_nil, or_false] at hb
    rcases hb with rfl | rfl | rfl <;> refine hp _ ?_ ?_ ?_ <;>
      simp only [UInt8.toNat_ofNat'] <;> omega
  · simp only [List.mem_cons, List.not_mem_nil, or_false] at hb
    rcases hb with rfl | rfl | rfl | rfl <;> refine hp _ ?_ ?_ ?_ <;>
      simp only [UInt8.toNat_ofNat'] <;> omega

/-- The six bytes of an escaped control character, and the number that is read from them. -/
theorem control_escape : ∀ n < 32, ∃ h0 h1 h2 h3,
    encode (['\\', 'u'] ++ hexDigits 4 n) = [ascii '\\', ascii 'u', h0, h1, h2, h3]
      ∧ hexUnit? h0 h1 h2 h3 = some n := by
  intro n hn
  have key : ∀ n < 32, encode (hexDigits 4 n) =
      [(encode (hexDigits 4 n)).getD 0 0, (encode (hexDigits 4 n)).getD 1 0,
        (encode (hexDigits 4 n)).getD 2 0, (encode (hexDigits 4 n)).getD 3 0]
      ∧ hexUnit? ((encode (hexDigits 4 n)).getD 0 0) ((encode (hexDigits 4 n)).getD 1 0)
        ((encode (hexDigits 4 n)).getD 2 0) ((encode (hexDigits 4 n)).getD 3 0) = some n := by
    decide
  refine ⟨_, _, _, _, ?_, (key n hn).2⟩
  rw [encode_append, (key n hn).1]
  rfl

/-- A character is not longer than what stands for it inside quotes. -/
theorem length_le_escape (c : Char) :
    (String.utf8EncodeChar c).length ≤ (encode (escape c)).length := by
  unfold escape
  split_ifs with h1 h2 h3 h4 h5 h6 h7 h8
  · subst h1; decide
  · subst h2; decide
  · subst h3; decide
  · subst h4; decide
  · subst h5; decide
  · subst h6; decide
  · subst h7; decide
  · -- no character has more than four bytes
    obtain ⟨_, _, _, _, he, -⟩ := control_escape c.toNat h8
    rw [he, String.utf8EncodeChar.eq_1]
    split_ifs <;> simp
  · simp

/-- A text is not longer than it is in quotes. -/
theorem length_le_quoted (s : String) : (bytes s).length ≤ (bytes (quoted s)).length := by
  have hinside : ∀ cs : List Char, (encode cs).length ≤ (encode (cs.flatMap escape)).length := by
    intro cs
    induction cs with
    | nil => exact Nat.le_refl _
    | cons c cs ih =>
      rw [List.flatMap_cons, encode_append, encode_cons, List.length_append, List.length_append]
      exact Nat.add_le_add (length_le_escape c) ih
  simp only [quoted, bytes_append, bytes_ofList, List.length_append]
  exact Nat.le_add_right_of_le (Nat.le_add_left_of_le (hinside s.toList))

/-- The bytes of a character inside quotes leave pieces that stand for the character. -/
theorem scanString_escape (c : Char) : ∃ ps : List StringPiece,
    (∀ r, scanString (encode (escape c) ++ r) = (scanString r).map fun p => (ps ++ p.1, p.2)) ∧
      ∀ more, piecesBytes? (ps ++ more) =
        (piecesBytes? more).map (String.utf8EncodeChar c ++ ·) := by
  -- the short escapes are a backslash and one letter
  have short : ∀ (letter : UInt8) (b : UInt8), letter ≠ ascii 'u' → unescape? letter = some b →
      encode (escape c) = [ascii '\\', letter] → String.utf8EncodeChar c = [b] →
      ∃ ps : List StringPiece,
        (∀ r, scanString (encode (escape c) ++ r) = (scanString r).map fun p => (ps ++ p.1, p.2)) ∧
          ∀ more, piecesBytes? (ps ++ more) =
            (piecesBytes? more).map (String.utf8EncodeChar c ++ ·) := by
    intro letter b hu hb he hc
    refine ⟨[.byte b], fun r => ?_, fun more => ?_⟩
    · rw [he, List.cons_append, List.cons_append, List.nil_append, scanString.eq_def]
      simp only [show ascii '\\' ≠ ascii '"' by decide, hu, ↓reduceIte, hb]
      cases scanString r <;> rfl
    · rw [hc]
      exact piecesBytes?_plain more [b]
  by_cases h1 : c = '"'
  · subst h1; exact short (ascii '"') _ (by decide) rfl (by decide) (by decide)
  by_cases h2 : c = '\\'
  · subst h2; exact short (ascii '\\') _ (by decide) rfl (by decide) (by decide)
  by_cases h3 : c = '\n'
  · subst h3; exact short (ascii 'n') _ (by decide) rfl (by decide) (by decide)
  by_cases h4 : c = '\r'
  · subst h4; exact short (ascii 'r') _ (by decide) rfl (by decide) (by decide)
  by_cases h5 : c = '\t'
  · subst h5; exact short (ascii 't') _ (by decide) rfl (by decide) (by decide)
  by_cases h6 : c = '\x08'
  · subst h6; exact short (ascii 'b') _ (by decide) rfl (by decide) (by decide)
  by_cases h7 : c = '\x0c'
  · subst h7; exact short (ascii 'f') _ (by decide) rfl (by decide) (by decide)
  by_cases h8 : c.toNat < 32
  · obtain ⟨x0, x1, x2, x3, he, hx⟩ := control_escape c.toNat h8
    refine ⟨[.unit c.toNat], fun r => ?_, fun more => ?_⟩
    · simp only [escape, h1, h2, h3, h4, h5, h6, h7, h8, ↓reduceIte]
      rw [he]
      simp only [List.cons_append, List.nil_append]
      rw [scanString.eq_def]
      simp only [show ascii '\\' ≠ ascii '"' by decide, ↓reduceIte, hx]
      cases scanString r <;> rfl
    · rw [List.cons_append, List.nil_append, piecesBytes?.eq_def]
      have hs : c.toNat < 0xD800 ∨ 0xE000 ≤ c.toNat := Or.inl (by omega)
      simp only [hs, ↓reduceIte, Char.ofNat_toNat]
  · refine ⟨(String.utf8EncodeChar c).map .byte, fun r => ?_, fun more => ?_⟩
    · simp only [escape, h1, h2, h3, h4, h5, h6, h7, h8, ↓reduceIte, encode_cons, encode_nil,
        List.append_nil]
      exact scanString_plain r _ (plain_encodeChar h1 h2 h8)
    · exact piecesBytes?_plain more _

/-- The inside of a quoted text is scanned up to its closing quote, and its pieces stand for
the text. -/
theorem scanString_escapes (r : Bytes) : ∀ cs : List Char, ∃ ps : List StringPiece,
    scanString (encode (cs.flatMap escape) ++ ascii '"' :: r) = some (ps, r) ∧
      piecesBytes? ps = some (encode cs)
  | [] => ⟨[], by rw [scanString.eq_def]; simp, rfl⟩
  | c :: cs => by
    obtain ⟨qs, hq, hqb⟩ := scanString_escapes r cs
    obtain ⟨ps, hp, hpb⟩ := scanString_escape c
    refine ⟨ps ++ qs, ?_, ?_⟩
    · rw [List.flatMap_cons, encode_append, List.append_assoc, hp, hq]; rfl
    · rw [hpb, hqb, encode_cons]; rfl

/-- **A quoted text is read as that text.** -/
theorem string?_quoted (s : String) (r : Bytes) :
    ∃ inside : Bytes, bytes (quoted s) ++ r = ascii '"' :: inside ∧
      string? inside = some (some s, r) := by
  obtain ⟨ps, hs, hb⟩ := scanString_escapes r s.toList
  refine ⟨encode (s.toList.flatMap escape) ++ ascii '"' :: r, ?_, ?_⟩
  · simp only [quoted, bytes_append, bytes_ofList, List.append_assoc]
    rfl
  · rw [string?, hs]
    simp [piecesText?, hb, Utf8.string?, decode_encode]

/-! ### Naturals -/

/-- What stands behind a number does not go on with it. -/
def EndsNumber (r : Bytes) : Prop :=
  ∀ b ∈ r.head?, isDigit b = false ∧ b ≠ ascii '.' ∧ b ≠ ascii 'e' ∧ b ≠ ascii 'E'

theorem digits_append {r : Bytes} (hr : EndsNumber r) : ∀ ds : Bytes, (∀ d ∈ ds, isDigit d) →
    digits (ds ++ r) = (ds, r) := by
  intro ds hd
  have h1 : r.takeWhile isDigit = [] := by
    cases r with
    | nil => rfl
    | cons b r => simp [(hr b (by simp)).1]
  have h2 : r.dropWhile isDigit = r := by
    cases r with
    | nil => rfl
    | cons b r => simp [(hr b (by simp)).1]
  rw [digits, List.takeWhile_append_of_pos hd, List.dropWhile_append_of_pos hd, h1, h2,
    List.append_nil]

theorem fraction?_end {r : Bytes} (hr : EndsNumber r) : fraction? r = some (false, r) := by
  cases r with
  | nil => rfl
  | cons b r => simp [fraction?, (hr b (by simp)).2.1]

theorem exponent?_end {r : Bytes} (hr : EndsNumber r) : exponent? r = some (false, r) := by
  cases r with
  | nil => rfl
  | cons b r => simp [exponent?, (hr b (by simp)).2.2.1, (hr b (by simp)).2.2.2]

theorem encode_isDigit {c : Char} (h : c.isDigit) : String.utf8EncodeChar c = [ascii c] := by
  have hc : c.toNat ≤ 0x39 := by
    simp only [Char.isDigit, Bool.and_eq_true, decide_eq_true_eq] at h
    exact h.2
  rw [String.utf8EncodeChar.eq_1]
  simp only [show c.val.toNat = c.toNat from rfl]
  rw [if_pos (by omega)]
  rfl

theorem isDigit_ascii {c : Char} (h : c.isDigit) :
    isDigit (ascii c) ∧ (ascii c).toNat = c.toNat := by
  simp only [Char.isDigit, Bool.and_eq_true, decide_eq_true_eq] at h
  have h1 : 48 ≤ c.toNat := h.1
  have h2 : c.toNat ≤ 57 := h.2
  have hn : (ascii c).toNat = c.toNat := by simp only [ascii, UInt8.toNat_ofNat']; omega
  refine ⟨?_, hn⟩
  simp only [isDigit, Bool.and_eq_true, decide_eq_true_eq, UInt8.le_iff_toNat_le, hn]
  exact ⟨h1, h2⟩

theorem encode_digits : ∀ cs : List Char, (∀ c ∈ cs, c.isDigit) → encode cs = cs.map ascii
  | [], _ => rfl
  | c :: cs, h => by
    rw [encode_cons, encode_isDigit (h c (List.mem_cons_self ..)),
      encode_digits cs fun x hx => h x (List.mem_cons_of_mem _ hx)]
    rfl

theorem digitsValue_ascii (cs : List Char) (h : ∀ c ∈ cs, c.isDigit) :
    digitsValue (cs.map ascii) = Nat.ofDigitChars 10 cs 0 := by
  have go : ∀ (cs : List Char) (n : Nat), (∀ c ∈ cs, c.isDigit) →
      (cs.map ascii).foldl (fun n d => n * 10 + (d.toNat - 48)) n = Nat.ofDigitChars 10 cs n := by
    intro cs
    induction cs with
    | nil => intro n _; simp
    | cons c cs ih =>
      intro n h
      have hc := (isDigit_ascii (h c (List.mem_cons_self ..))).2
      rw [List.map_cons, List.foldl_cons, ih _ fun x hx => h x (List.mem_cons_of_mem _ hx),
        Nat.ofDigitChars_cons, hc, Nat.mul_comm]
      rfl
  exact go cs 0 h

/-- Only the digits of zero start with a zero. -/
theorem head?_toDigits (n : Nat) (hn : 0 < n) : (Nat.toDigits 10 n).head? ≠ some '0' := by
  induction n using Nat.strongRecOn with
  | ind n ih =>
    rw [Nat.toDigits_eq_if (by decide)]
    split
    · next h =>
      have : ∀ m < 10, 0 < m → Nat.digitChar m ≠ '0' := by decide
      simpa using this n h hn
    · next h =>
      have hd := ih (n / 10) (by omega) (by omega)
      cases hc : Nat.toDigits 10 (n / 10) with
      | nil => exact absurd hc Nat.toDigits_ne_nil
      | cons c cs => rwa [hc] at hd

theorem wholeNumber?_digits (n : Nat) {r : Bytes} (hr : EndsNumber r) :
    wholeNumber? ((Nat.toDigits 10 n).map ascii ++ r) =
      some ((Nat.toDigits 10 n).map ascii, r) := by
  have hall : ∀ c ∈ Nat.toDigits 10 n, c.isDigit := fun c hc =>
    Nat.isDigit_of_mem_toDigits (by decide) (by decide) hc
  rw [wholeNumber?, digits_append hr]
  · rcases Nat.eq_zero_or_pos n with rfl | hn
    · rfl
    · have hz := head?_toDigits n hn
      cases hd : Nat.toDigits 10 n with
      | nil => exact absurd hd Nat.toDigits_ne_nil
      | cons c cs =>
        have hc : ascii c ≠ ascii '0' := by
          intro he
          have hcd := (isDigit_ascii (hall c (by rw [hd]; exact List.mem_cons_self ..))).2
          rw [he] at hcd
          exact hz (by rw [hd]; exact congrArg some (Char.toNat_inj.mp hcd.symm))
        simp [hc]
  · intro d hd
    obtain ⟨c, hc, rfl⟩ := List.mem_map.mp hd
    exact (isDigit_ascii (hall c hc)).1

/-- **The digits of a natural are read as that natural.** -/
theorem number?_digits (n : Nat) {r : Bytes} (hr : EndsNumber r) :
    number? (bytes (toString n) ++ r) = some (.natural n, r) := by
  have hall : ∀ c ∈ Nat.toDigits 10 n, c.isDigit := fun c hc =>
    Nat.isDigit_of_mem_toDigits (by decide) (by decide) hc
  have hw := wholeNumber?_digits n hr
  have hv := digitsValue_ascii _ hall
  rw [Nat.ofDigitChars_ten_toDigits] at hv
  rw [Nat.toString_eq_ofList_toDigits, bytes_ofList, encode_digits _ hall]
  cases hd : Nat.toDigits 10 n with
  | nil => exact absurd hd Nat.toDigits_ne_nil
  | cons c cs =>
    have hc : ascii c ≠ ascii '-' := by
      intro he
      have hdigit := (isDigit_ascii (hall c (by rw [hd]; exact List.mem_cons_self ..))).1
      rw [he] at hdigit
      exact absurd hdigit (by decide)
    rw [hd] at hw hv
    simp only [List.map_cons, List.cons_append] at hw hv ⊢
    rw [number?]
    simp only [hc, ↓reduceIte, hw, Option.bind_eq_bind, Option.bind_some, fraction?_end hr,
      exponent?_end hr, hv, Bool.or_false, Bool.false_eq_true]
    rfl

end Json
end Data
end ScriptHost
