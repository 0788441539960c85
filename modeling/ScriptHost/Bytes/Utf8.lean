/-
# Text as bytes

Texts are stored and hashed as UTF-8. Encoding is one character after the other; decoding
reads the bytes that a first byte promises and accepts them only if they are the encoding
of the character they spell, so that a text has one encoding and nothing else is one.

Key definitions: `Utf8.encode`, `Utf8.decode`, `Utf8.bytes`.
Key theorems: `Utf8.encode_append`, `Utf8.encode_of_decode`.
-/
namespace ScriptHost

/-- A run of bytes. -/
abbrev Bytes := List UInt8

namespace Utf8

/-- The UTF-8 encoding of a text. -/
def encode (cs : List Char) : Bytes :=
  cs.flatMap String.utf8EncodeChar

/-- The bytes of a string. -/
def bytes (s : String) : Bytes := encode s.toList

@[simp] theorem encode_nil : encode [] = [] := rfl

@[simp] theorem encode_cons (c : Char) (cs : List Char) :
    encode (c :: cs) = String.utf8EncodeChar c ++ encode cs := by
  simp [encode]

theorem encode_append (a b : List Char) : encode (a ++ b) = encode a ++ encode b := by
  simp [encode]

/-- The payload of a byte that continues a character. -/
def payload (b : UInt8) : Nat := b.toNat % 64

/-- The character of the code point `n`, if `bs` is its encoding. -/
def char? (n : Nat) (bs : Bytes) : Option Char :=
  if String.utf8EncodeChar (Char.ofNat n) = bs then some (Char.ofNat n) else none

/-- The text that the bytes encode, if they encode one. -/
def decode : Bytes → Option (List Char)
  | [] => some []
  | a :: r =>
    if a < 0x80 then do
      let c ← char? a.toNat [a]
      let cs ← decode r
      pure (c :: cs)
    else if a < 0xE0 then
      match r with
      | b :: r => do
        let c ← char? (a.toNat % 32 * 64 + payload b) [a, b]
        let cs ← decode r
        pure (c :: cs)
      | _ => none
    else if a < 0xF0 then
      match r with
      | b :: d :: r => do
        let c ← char? ((a.toNat % 16 * 64 + payload b) * 64 + payload d) [a, b, d]
        let cs ← decode r
        pure (c :: cs)
      | _ => none
    else
      match r with
      | b :: d :: e :: r => do
        let c ← char? (((a.toNat % 8 * 64 + payload b) * 64 + payload d) * 64 + payload e)
          [a, b, d, e]
        let cs ← decode r
        pure (c :: cs)
      | _ => none

/-- The string that the bytes encode, if they encode one. -/
def string? (bs : Bytes) : Option String := (decode bs).map String.ofList

theorem char?_eq_some {n : Nat} {bs : Bytes} {c : Char} (h : char? n bs = some c) :
    String.utf8EncodeChar c = bs := by
  unfold char? at h
  split at h
  · next he => cases h; exact he
  · cases h

/-- What decodes to a text is the encoding of that text. -/
theorem encode_of_decode {bs : Bytes} {cs : List Char} (h : decode bs = some cs) :
    encode cs = bs := by
  fun_induction decode bs generalizing cs with
  | case1 => cases h; rfl
  | case2 a r _ ih =>
    simp only [bind, Option.bind_eq_some_iff, pure, Option.some.injEq] at h
    obtain ⟨c, hc, t, ht, rfl⟩ := h
    simp [char?_eq_some hc, ih ht]
  | case3 a _ _ b r ih =>
    simp only [bind, Option.bind_eq_some_iff, pure, Option.some.injEq] at h
    obtain ⟨c, hc, t, ht, rfl⟩ := h
    simp [char?_eq_some hc, ih ht]
  | case4 => cases h
  | case5 a _ _ _ b d r ih =>
    simp only [bind, Option.bind_eq_some_iff, pure, Option.some.injEq] at h
    obtain ⟨c, hc, t, ht, rfl⟩ := h
    simp [char?_eq_some hc, ih ht]
  | case6 => cases h
  | case7 a _ _ _ b d e r ih =>
    simp only [bind, Option.bind_eq_some_iff, pure, Option.some.injEq] at h
    obtain ⟨c, hc, t, ht, rfl⟩ := h
    simp [char?_eq_some hc, ih ht]
  | case8 => cases h

end Utf8

end ScriptHost
