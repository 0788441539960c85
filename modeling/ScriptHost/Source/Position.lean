/-
# Places in a source text

A script is a list of characters; a place in it is the number of UTF-8 bytes before it
together with the line and the column a reader would give. Columns and lengths count
bytes, lines and columns start at one, and only the newline character ends a line.
A span is what a message shows of a stretch of text: where it starts and how many bytes
it has.

All these numbers are naturals, without a bound. A lexer that keeps them in words of 32
bits, and adds to them without a check, has the same ones as long as they stay below
`2 ^ 32`. In a source of that many bytes or more its words would overflow, and nothing is
said here of what it does then.

Key definitions: `Position`, `Position.advance`, `Span`, `Span.merge`, `byteLength`,
`dropBytes`, `sliceBytes`.
-/
namespace ScriptHost.Source

/-- A place in a source: the bytes before it, and its line and column. None of them is bounded,
unlike words of 32 bits. -/
structure Position where
  offset : Nat
  line : Nat
  column : Nat
deriving DecidableEq, Repr, Inhabited

namespace Position

/-- The place before the first character. -/
def start : Position := ⟨0, 1, 1⟩

/-- The place after the character `c` read at `p`. -/
def step (p : Position) (c : Char) : Position :=
  if c = '\n' then ⟨p.offset + 1, p.line + 1, 1⟩
  else ⟨p.offset + c.utf8Size, p.line, p.column + c.utf8Size⟩

/-- The place after the text `cs` read at `p`. -/
def advance (p : Position) (cs : List Char) : Position :=
  cs.foldl step p

@[simp] theorem advance_nil (p : Position) : p.advance [] = p := rfl

@[simp] theorem advance_cons (p : Position) (c : Char) (cs : List Char) :
    p.advance (c :: cs) = (p.step c).advance cs := rfl

theorem advance_append (p : Position) (a b : List Char) :
    p.advance (a ++ b) = (p.advance a).advance b :=
  List.foldl_append

end Position

/-- The start of a stretch of source text and its length in bytes, unbounded like the numbers of a
`Position`. -/
structure Span where
  line : Nat
  column : Nat
  length : Nat
deriving DecidableEq, Repr, Inhabited

namespace Span

/-- The empty span at a place. -/
def point (p : Position) : Span := ⟨p.line, p.column, 0⟩

/-- A span of `length` bytes that starts at `p`. -/
def ofPosition (p : Position) (length : Nat) : Span := ⟨p.line, p.column, length⟩

def isEmpty (s : Span) : Bool := s.length == 0

/-- The span that covers both. Spans of one line give the smallest stretch that holds
them; of different lines, the first span's start and the sum of the lengths. -/
def merge (s t : Span) : Span :=
  if s.line = t.line then
    let left := min s.column t.column
    let right := max (t.column + t.length) (s.column + s.length)
    ⟨s.line, left, right - left⟩
  else ⟨s.line, s.column, s.length + t.length⟩

/-- Messages name a span by its line and column, `3:15`. -/
def text (s : Span) : String := s!"{s.line}:{s.column}"

end Span

/-- The number of UTF-8 bytes of a text. -/
def byteLength (cs : List Char) : Nat :=
  cs.foldr (fun c n => c.utf8Size + n) 0

@[simp] theorem byteLength_nil : byteLength [] = 0 := rfl

@[simp] theorem byteLength_cons (c : Char) (cs : List Char) :
    byteLength (c :: cs) = c.utf8Size + byteLength cs := rfl

@[simp] theorem byteLength_append (a b : List Char) :
    byteLength (a ++ b) = byteLength a + byteLength b := by
  induction a with
  | nil => simp
  | cons c a ih => simp [ih, Nat.add_assoc]

/-- The text after its first `n` bytes, if a character starts or the text ends there. -/
def dropBytes : Nat → List Char → Option (List Char)
  | 0, cs => some cs
  | _ + 1, [] => none
  | n + 1, c :: cs => if c.utf8Size ≤ n + 1 then dropBytes (n + 1 - c.utf8Size) cs else none

/-- The first `n` bytes of the text, if a character ends there. -/
def takeBytes : Nat → List Char → Option (List Char)
  | 0, _ => some []
  | _ + 1, [] => none
  | n + 1, c :: cs =>
    if c.utf8Size ≤ n + 1 then (takeBytes (n + 1 - c.utf8Size) cs).map (c :: ·) else none

/-- The bytes from `start` up to `stop`, if both lie on character boundaries of the text
and in order. -/
def sliceBytes (start stop : Nat) (cs : List Char) : Option (List Char) :=
  if start ≤ stop then (dropBytes start cs).bind (takeBytes (stop - start)) else none

end ScriptHost.Source
