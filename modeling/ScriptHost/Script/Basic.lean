/-
# Scripts

A script is read to its end whatever is wrong with it: the items that could be read and
every problem, lexical ones first. The strict reading accepts a script without problems.

Key definitions: `Script`, `Script.parseLenient`, `Script.parse`.
-/
import ScriptHost.Item.Parser

namespace ScriptHost

open Source

/-- The items of a source text, and the span from its first token to its last. -/
structure Script where
  items : List Item
  span : Span
deriving Repr, Inhabited

/-- The items and problems of at most `n` turns. -/
def itemsWithin : Nat → Bool → Cursor → List Item × List ParseError
  | 0, _, _ => ([], [])
  | n + 1, declared, c =>
    match c.rest with
    | [] => ([], [])
    | t :: _ =>
      let now := turn declared c
      match itemsWithin n (declared || declares t.kind) now.next with
      | (items, errors) => (now.item?.toList ++ items, now.error?.toList ++ errors)

namespace Cursor

/-- The cursor at the first token of a source. -/
def ofLexed (l : Lexed) : Cursor := ⟨l.tokens, l.finish⟩

/-- The items and problems of the tokens. Each turn reads a token, so there are no more
turns than tokens. -/
def items (c : Cursor) : List Item × List ParseError :=
  itemsWithin c.rest.length false c

end Cursor

namespace Script

/-- Reads a source to its end: what could be read, and every problem. -/
def parseLenient (source : String) : Script × List ParseError :=
  let lexed := lex source
  let c := Cursor.ofLexed lexed
  match c.items with
  | (items, errors) =>
    (⟨items, c.spanSince (c.goto [])⟩, lexed.errors.map .ofLexError ++ errors)

/-- Reads a source that has no problem. -/
def parse (source : String) : Except (List ParseError) Script :=
  match parseLenient source with
  | (script, []) => .ok script
  | (_, errors) => .error errors

/-- The references of the `#r` directives, in order. -/
def references (s : Script) : List ReferenceDirective :=
  s.items.filterMap fun
    | .reference d => some d
    | _ => none

/-- The using directives, in order. -/
def usings (s : Script) : List UsingDirective :=
  s.items.filterMap fun
    | .usingDirective d => some d
    | _ => none

end Script

end ScriptHost
