/-
# Every text is read back from its bytes

A character is encoded in one to four bytes, and the first of them tells `Utf8.decode` how
many follow. So decoding the encoding of a character, whatever stands behind it, gives the
character and goes on with what stands behind (`decode_encodeChar`), and decoding the bytes
of a text gives the text (`string?_bytes`).

Key theorems: `Utf8.decode_encodeChar`, `Utf8.decode_encode`, `Utf8.string?_bytes`.
-/
import ScriptHost.Bytes.Utf8

namespace ScriptHost
namespace Utf8

/-- A code point is the character it was taken from, if the bytes are that character's. -/
theorem char?_of_encode {c : Char} {n : Nat} {bs : Bytes} (hn : n = c.toNat)
    (hb : String.utf8EncodeChar c = bs) : char? n bs = some c := by
  subst hn hb
  simp [char?, Char.ofNat_toNat]

/-! ### The four lengths of an encoding -/

variable {c : Char} {a b d e : UInt8}

theorem decode_one (r : Bytes) (ha : a.toNat < 0x80) (hn : a.toNat = c.toNat)
    (he : String.utf8EncodeChar c = [a]) : decode (a :: r) = (decode r).map (c :: ·) := by
  have h1 : a < 0x80 := by simpa [UInt8.lt_iff_toNat_lt] using ha
  rw [decode.eq_def]
  simp only [h1, ↓reduceIte, char?_of_encode hn he]
  cases decode r <;> rfl

theorem decode_two (r : Bytes) (ha : 0x80 ≤ a.toNat ∧ a.toNat < 0xE0)
    (hn : a.toNat % 32 * 64 + payload b = c.toNat) (he : String.utf8EncodeChar c = [a, b]) :
    decode (a :: b :: r) = (decode r).map (c :: ·) := by
  have h1 : ¬ a < 0x80 := by simpa [UInt8.lt_iff_toNat_lt] using ha.1
  have h2 : a < 0xE0 := by simpa [UInt8.lt_iff_toNat_lt] using ha.2
  rw [decode.eq_def]
  simp only [h1, h2, ↓reduceIte, char?_of_encode hn he]
  cases decode r <;> rfl

theorem decode_three (r : Bytes) (ha : 0xE0 ≤ a.toNat ∧ a.toNat < 0xF0)
    (hn : (a.toNat % 16 * 64 + payload b) * 64 + payload d = c.toNat)
    (he : String.utf8EncodeChar c = [a, b, d]) :
    decode (a :: b :: d :: r) = (decode r).map (c :: ·) := by
  have h1 : ¬ a < 0x80 := by simp only [UInt8.lt_iff_toNat_lt, UInt8.reduceToNat]; omega
  have h2 : ¬ a < 0xE0 := by simpa [UInt8.lt_iff_toNat_lt] using ha.1
  have h3 : a < 0xF0 := by simpa [UInt8.lt_iff_toNat_lt] using ha.2
  rw [decode.eq_def]
  simp only [h1, h2, h3, ↓reduceIte, char?_of_encode hn he]
  cases decode r <;> rfl

theorem decode_four (r : Bytes) (ha : 0xF0 ≤ a.toNat)
    (hn : ((a.toNat % 8 * 64 + payload b) * 64 + payload d) * 64 + payload e = c.toNat)
    (he : String.utf8EncodeChar c = [a, b, d, e]) :
    decode (a :: b :: d :: e :: r) = (decode r).map (c :: ·) := by
  have h1 : ¬ a < 0x80 := by simp only [UInt8.lt_iff_toNat_lt, UInt8.reduceToNat]; omega
  have h2 : ¬ a < 0xE0 := by simp only [UInt8.lt_iff_toNat_lt, UInt8.reduceToNat]; omega
  have h3 : ¬ a < 0xF0 := by simpa [UInt8.lt_iff_toNat_lt] using ha
  rw [decode.eq_def]
  simp only [h1, h2, h3, ↓reduceIte, char?_of_encode hn he]
  cases decode r <;> rfl

/-! ### Texts -/

/-- Code points end below `0x110000`. -/
theorem toNat_lt (c : Char) : c.toNat < 0x110000 := by
  rcases c.valid with h | ⟨-, h⟩
  · exact Nat.lt_of_lt_of_le h (by decide)
  · exact h

/-- The encoding of a character is read as that character, whatever stands behind it. -/
theorem decode_encodeChar (c : Char) (r : Bytes) :
    decode (String.utf8EncodeChar c ++ r) = (decode r).map (c :: ·) := by
  have hv := toNat_lt c
  have he := String.utf8EncodeChar.eq_1 c
  simp only [show c.val.toNat = c.toNat from rfl] at he
  by_cases h1 : c.toNat ≤ 0x7f
  · rw [if_pos h1] at he
    rw [he]
    exact decode_one r (by simp; omega) (by simp; omega) he
  rw [if_neg h1] at he
  by_cases h2 : c.toNat ≤ 0x7ff
  · rw [if_pos h2] at he
    rw [he]
    exact decode_two r (by simp; omega) (by simp [payload]; omega) he
  rw [if_neg h2] at he
  by_cases h3 : c.toNat ≤ 0xffff
  · rw [if_pos h3] at he
    rw [he]
    exact decode_three r (by simp; omega) (by simp [payload]; omega) he
  · rw [if_neg h3] at he
    rw [he]
    exact decode_four r (by simp; omega) (by simp [payload]; omega) he

/-- A text has as many bytes as its string is long. -/
theorem length_bytes (s : String) : (bytes s).length = s.utf8ByteSize := by
  have hencode : (encode s.toList).toByteArray = s.toByteArray := by
    rw [← String.utf8Encode_toList]
    rfl
  rw [← String.size_toByteArray, ← hencode, List.size_toByteArray]
  rfl

theorem decode_encode : ∀ cs : List Char, decode (encode cs) = some cs
  | [] => rfl
  | c :: cs => by rw [encode_cons, decode_encodeChar, decode_encode cs]; rfl

/-- **A text is read back from its bytes.** -/
theorem string?_bytes (s : String) : string? (bytes s) = some s := by
  simp [string?, bytes, decode_encode]

end Utf8
end ScriptHost
