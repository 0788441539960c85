/-
# Bracketed groups and recovery

Bodies, attributes, default values and constraints are not read but skipped, by matching
brackets: a group runs from an opening bracket to the one that closes it, with groups of
any kind nested inside. After a problem, reading resumes at the next place where an item
may start.

Key definitions: `closeGroup`, `skipGroup`, `skipUntil`, `skipAttributes`, `resume`.
-/
import ScriptHost.Script.Cursor

namespace ScriptHost

open Source

/-- How the search for the end of a group comes out. -/
inductive GroupEnd where
  | closed (closer : Token) (rest : List Token)
  | mismatched (closer : Token) (pair : Delimiter) (rest : List Token)
  | unclosed
deriving DecidableEq, Repr

/-- Searches the end of a group: `pair` is the bracket to be closed next, `outer` those
around it, from the inside out. -/
def closeGroup : Delimiter → List Delimiter → List Token → GroupEnd
  | _, _, [] => .unclosed
  | pair, outer, t :: r =>
    match t.kind with
    | .opening inner => closeGroup inner (pair :: outer) r
    | .closing other =>
      if other = pair then
        match outer with
        | [] => .closed t r
        | next :: outer => closeGroup next outer r
      else .mismatched t other r
    | _ => closeGroup pair outer r

namespace Parse

/-- Reads the group that starts at the next token, and gives its closing bracket. A group
that is never closed is reported at its opening bracket, a bracket that closes another
kind at that bracket. -/
def skipGroup : Parse Token := fun c =>
  match c.rest with
  | [] => complain .unexpectedEnd c
  | t :: r =>
    match t.kind with
    | .opening pair =>
      match closeGroup pair [] r with
      | .closed closer rest => .done closer (c.goto rest)
      | .mismatched closer other rest => .failed ⟨.unexpectedCloser other, closer.span⟩ (c.goto rest)
      | .unclosed => .failed ⟨.unclosed pair, t.span⟩ (c.goto [])
    | kind => complain (.expectedToken (.opening .brace) kind) c

/-- Reads at most `n` tokens and groups, up to a token that `stops`. -/
def skipUntilWithin (stops : TokenKind → Bool) : Nat → Parse Unit
  | 0 => fun c => .done () c
  | n + 1 => fun c =>
    match c.rest with
    | [] => complain .unexpectedEnd c
    | t :: r =>
      if stops t.kind then .done () c
      else match t.kind with
        | .opening _ =>
          match skipGroup c with
          | .done _ d => skipUntilWithin stops n d
          | .failed e d => .failed e d
        | .closing pair => complain (.unexpectedCloser pair) c
        | _ => skipUntilWithin stops n (c.goto r)

/-- Reads tokens and whole groups up to a token that `stops`, which stays. Neither a
closing bracket nor the end may come before it. -/
def skipUntil (stops : TokenKind → Bool) : Parse Unit := fun c =>
  skipUntilWithin stops (c.rest.length + 1) c

/-- Reads at most `n` attribute groups. -/
def skipAttributesWithin : Nat → Parse Unit
  | 0 => pure ()
  | n + 1 => fun c =>
    if c.isAt (.opening .bracket) then
      match skipGroup c with
      | .done _ d => skipAttributesWithin n d
      | .failed e d => .failed e d
    else .done () c

/-- Reads the attribute groups, such as `[FunctionName("Run")]`, that stand next. -/
def skipAttributes : Parse Unit := fun c =>
  skipAttributesWithin c.rest.length c

end Parse

/-- The kinds of token that only start an item. -/
def startsItem (kind : TokenKind) : Bool :=
  kind.isModifier || kind.isTypeWord || kind == .hash || kind == .usingWord

/-- The tokens from which to read on after a problem, inside `depth` open brackets: those
behind the next `;` outside them, behind the `}` that closes the last of them, behind a
closing bracket that has no partner, or from a word that only starts an item. -/
def resume : Nat → List Token → List Token
  | _, [] => []
  | depth, t :: r =>
    match t.kind with
    | .opening _ => resume (depth + 1) r
    | .closing pair =>
      match depth with
      | 0 => r
      | 1 => if pair = .brace then r else resume 0 r
      | depth + 1 => resume depth r
    | .semicolon => if depth = 0 then r else resume depth r
    | kind => if depth = 0 ∧ startsItem kind then t :: r else resume depth r

end ScriptHost
