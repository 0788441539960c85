/-
# Numbers as bytes and digits

Numbers of a fixed width are stored with the lowest byte first. In text, a 64-bit number
is sixteen hexadecimal digits.

Key definitions: `littleEndian`, `ofLittleEndian`, `hexDigits`, `hex64`.
Key theorems: `length_littleEndian`.
-/
import ScriptHost.Bytes.Utf8

namespace ScriptHost

/-- The `width` lowest bytes of a number, the lowest first. -/
def littleEndian : Nat → Nat → Bytes
  | 0, _ => []
  | width + 1, n => UInt8.ofNat n :: littleEndian width (n / 256)

/-- The number that bytes stand for, the lowest byte first. -/
def ofLittleEndian (bs : Bytes) : Nat :=
  bs.foldr (fun b n => b.toNat + 256 * n) 0

@[simp] theorem length_littleEndian (width n : Nat) : (littleEndian width n).length = width := by
  induction width generalizing n with
  | zero => rfl
  | succ w ih => simp [littleEndian, ih]

/-- The lowercase digit of a number below sixteen. -/
def hexDigit (n : Nat) : Char :=
  if n < 10 then Char.ofNat (n + 48) else Char.ofNat (n + 87)

/-- The `width` lowest hexadecimal digits of a number, the highest first. -/
def hexDigits : Nat → Nat → List Char
  | 0, _ => []
  | width + 1, n => hexDigits width (n / 16) ++ [hexDigit (n % 16)]

/-- The sixteen digits of a 64-bit number. -/
def hex64 (n : UInt64) : String := String.ofList (hexDigits 16 n.toNat)

end ScriptHost
