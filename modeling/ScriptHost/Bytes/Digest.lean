/-
# The xxh64 digest

The 64-bit xxHash of a run of bytes, with seed 0. Stripes of thirty-two bytes go through
four lanes that are merged at the end; what is left is folded in by eight bytes, four
bytes and single bytes, and a final mix spreads every bit.

Key definitions: `Digest.xxh64`.
-/
import ScriptHost.Bytes.Word

namespace ScriptHost.Digest

def prime1 : UInt64 := 0x9E3779B185EBCA87
def prime2 : UInt64 := 0xC2B2AE3D27D4EB4F
def prime3 : UInt64 := 0x165667B19E3779F9
def prime4 : UInt64 := 0x85EBCA77C2B2AE63
def prime5 : UInt64 := 0x27D4EB2F165667C5

/-- Rotation to the left. -/
def rotate (x : UInt64) (n : UInt64) : UInt64 :=
  (x <<< n) ||| (x >>> (64 - n))

/-- The bytes as a word, the lowest first. -/
def word (bs : Bytes) : UInt64 := UInt64.ofNat (ofLittleEndian bs)

/-- A lane after one word of input. -/
def mixWord (lane input : UInt64) : UInt64 :=
  rotate (lane + input * prime2) 31 * prime1

/-- The four lanes of the stripe part. -/
structure Lanes where
  a : UInt64
  b : UInt64
  c : UInt64
  d : UInt64

namespace Lanes

def start : Lanes := ⟨prime1 + prime2, prime2, 0, 0 - prime1⟩

/-- The lanes after a stripe of thirty-two bytes. -/
def absorb (l : Lanes) (stripe : Bytes) : Lanes :=
  ⟨mixWord l.a (word (stripe.take 8)), mixWord l.b (word ((stripe.drop 8).take 8)),
    mixWord l.c (word ((stripe.drop 16).take 8)), mixWord l.d (word ((stripe.drop 24).take 8))⟩

/-- A merged value with one lane folded in. -/
def fold (h lane : UInt64) : UInt64 :=
  (h ^^^ mixWord 0 lane) * prime1 + prime4

/-- The lanes as one value. -/
def merge (l : Lanes) : UInt64 :=
  let h := rotate l.a 1 + rotate l.b 7 + rotate l.c 12 + rotate l.d 18
  fold (fold (fold (fold h l.a) l.b) l.c) l.d

end Lanes

/-- The lanes after `n` stripes, and the bytes behind them. -/
def stripes : Nat → Lanes → Bytes → Lanes × Bytes
  | 0, l, bs => (l, bs)
  | n + 1, l, bs => stripes n (l.absorb (bs.take 32)) (bs.drop 32)

/-- Folds in `n` groups of eight bytes. -/
def foldEights : Nat → UInt64 → Bytes → UInt64 × Bytes
  | 0, h, bs => (h, bs)
  | n + 1, h, bs =>
    foldEights n (rotate (h ^^^ mixWord 0 (word (bs.take 8))) 27 * prime1 + prime4) (bs.drop 8)

/-- Folds in a group of four bytes, if there are as many. -/
def foldFour (h : UInt64) (bs : Bytes) : UInt64 × Bytes :=
  if 4 ≤ bs.length then
    (rotate (h ^^^ (word (bs.take 4) * prime1)) 23 * prime2 + prime3, bs.drop 4)
  else (h, bs)

/-- Folds in single bytes. -/
def foldOnes (h : UInt64) (bs : Bytes) : UInt64 :=
  bs.foldl (fun h b => rotate (h ^^^ (b.toUInt64 * prime5)) 11 * prime1) h

/-- The last mix. -/
def finish (h : UInt64) : UInt64 :=
  let h := (h ^^^ (h >>> 33)) * prime2
  let h := (h ^^^ (h >>> 29)) * prime3
  h ^^^ (h >>> 32)

/-- The xxh64 digest of a run of bytes, with seed 0. -/
def xxh64 (bs : Bytes) : UInt64 :=
  let size := bs.length
  let (lanes, tail) := stripes (size / 32) .start bs
  let h := (if size < 32 then prime5 else lanes.merge) + UInt64.ofNat size
  let (h, tail) := foldEights (tail.length / 8) h tail
  let (h, tail) := foldFour h tail
  finish (foldOnes h tail)

end ScriptHost.Digest
