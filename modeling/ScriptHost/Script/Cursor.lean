/-
# Reading a list of tokens

A cursor is the tokens still to read and the place where the source ends. A reader takes
a cursor and gives a value or a problem, and in both cases the cursor behind what it
read: recovery and the next attempt go on from there. Going back is using an older cursor.

Key definitions: `Cursor`, `Reply`, `Parse`, `Cursor.spanSince`, `expect`,
`expectIdentifier`, `commaSeparated`.
-/
import ScriptHost.Script.ParseError
import ScriptHost.Item.Basic

namespace ScriptHost

open Source

/-- The tokens still to read, and where the source ends. -/
structure Cursor where
  rest : List Token
  finish : Position
deriving DecidableEq, Repr

namespace Cursor

/-- The cursor at the rest `r` of its tokens. -/
def goto (c : Cursor) (r : List Token) : Cursor := { c with rest := r }

/-- The cursor behind the next token; at the end it stays. -/
def tail (c : Cursor) : Cursor := c.goto c.rest.tail

/-- The kind of the token `n` places ahead. -/
def kindAt? (c : Cursor) (n : Nat) : Option TokenKind := c.rest[n]?.map (·.kind)

/-- The kind of the next token. -/
def kind? (c : Cursor) : Option TokenKind := c.rest.head?.map (·.kind)

/-- Whether the next token is of the kind. -/
def isAt (c : Cursor) (kind : TokenKind) : Bool := c.kind? == some kind

/-- Whether the next token is the identifier `word`. -/
def isAtWord (c : Cursor) (word : String) : Bool := c.rest.head?.any (·.isWord word)

/-- Where the next token starts, or where the source ends. -/
def place (c : Cursor) : Position :=
  match c.rest with
  | [] => c.finish
  | t :: _ => t.start

/-- The span of the next token, or the empty span at the end. -/
def span (c : Cursor) : Span :=
  match c.rest with
  | [] => .point c.finish
  | t :: _ => t.span

/-- The tokens read between the cursor `c` and the later cursor `d`. -/
def readUpTo (c d : Cursor) : List Token :=
  c.rest.take (c.rest.length - d.rest.length)

/-- The byte just past the last token read since `c`. -/
def stopSince (c d : Cursor) : Nat :=
  ((c.readUpTo d).getLast?.map Token.stop).getD c.place.offset

/-- The span from the token at `c` to the last one read since. -/
def spanSince (c d : Cursor) : Span :=
  .ofPosition c.place (c.stopSince d - c.place.offset)

/-- What was read between two cursors, as a range of the source. -/
def bodySince (kind : BodyKind) (c d : Cursor) : Body :=
  ⟨kind, c.place.offset, max (c.stopSince d) c.place.offset, c.spanSince d⟩

end Cursor

/-- What a reader gives: a value or a problem, and the cursor behind what it read. -/
inductive Reply (α : Type) where
  | done (value : α) (next : Cursor)
  | failed (error : ParseError) (next : Cursor)
deriving Repr

namespace Reply

def next {α : Type} : Reply α → Cursor
  | done _ c => c
  | failed _ c => c

def isDone {α : Type} : Reply α → Bool
  | done _ _ => true
  | failed _ _ => false

end Reply

/-- A reader of tokens. -/
def Parse (α : Type) : Type := Cursor → Reply α

namespace Parse

/-- Runs `p`, and the reader that `f` makes of its value from there on. -/
def andThen {α β : Type} (p : Parse α) (f : α → Parse β) : Parse β := fun c =>
  match p c with
  | .done a d => f a d
  | .failed e d => .failed e d

instance : Monad Parse where
  pure a := fun c => .done a c
  bind := andThen

@[simp] theorem pure_apply {α : Type} (a : α) (c : Cursor) : (pure a : Parse α) c = .done a c :=
  rfl

@[simp] theorem bind_apply {α β : Type} (p : Parse α) (f : α → Parse β) (c : Cursor) :
    (p >>= f) c = match p c with
      | .done a d => f a d
      | .failed e d => .failed e d :=
  rfl

@[simp] theorem map_apply {α β : Type} (f : α → β) (p : Parse α) (c : Cursor) :
    (f <$> p) c = match p c with
      | .done a d => .done (f a) d
      | .failed e d => .failed e d :=
  rfl

/-- Where the reader stands. -/
def here : Parse Cursor := fun c => .done c c

/-- Reports a problem at the next token. -/
def complain {α : Type} (complaint : Complaint) : Parse α := fun c =>
  .failed ⟨complaint, c.span⟩ c

/-- Takes the next token if it is of the kind, and says whether it was. -/
def eat (kind : TokenKind) : Parse Bool := fun c =>
  if c.isAt kind then .done true c.tail else .done false c

/-- Takes the next token, which has to be of the kind. -/
def expect (kind : TokenKind) : Parse Token := fun c =>
  match c.rest with
  | [] => complain .unexpectedEnd c
  | t :: r => if t.kind = kind then .done t (c.goto r) else complain (.expectedToken kind t.kind) c

/-- Takes the next token, which has to be an identifier. -/
def expectIdentifier : Parse Ident := fun c =>
  match c.rest with
  | [] => complain .unexpectedEnd c
  | t :: r =>
    if t.kind = .identifier then .done (.ofToken t) (c.goto r)
    else complain (.expectedIdentifier t.kind) c

/-- `item`s with commas between them, at most `n` commas. -/
def commaSeparatedWithin {α : Type} (item : Parse α) : Nat → Parse (List α)
  | 0 => do
    let a ← item
    pure [a]
  | n + 1 => do
    let a ← item
    if ← eat .comma then
      let more ← commaSeparatedWithin item n
      pure (a :: more)
    else pure [a]

/-- One `item` or several with commas between them. There are no more commas than tokens. -/
def commaSeparated {α : Type} (item : Parse α) : Parse (List α) := fun c =>
  commaSeparatedWithin item c.rest.length c

end Parse

end ScriptHost
