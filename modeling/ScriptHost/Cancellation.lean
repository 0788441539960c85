/-
# Cancellation tokens

Cancelling one token cancels all tokens of its family: those that were cloned from it or
that it was cloned from, directly or not. A cancelled family stays cancelled.

Key definitions: `CancelTokens`, `CancelStep`, `CancelTokens.apply`, `CancelTokens.flags`.
-/
namespace ScriptHost

/-- The tokens handed out so far: for each its family, and for each family whether it is
cancelled. -/
structure CancelTokens where
  familyOf : List Nat
  cancelled : List Bool
deriving DecidableEq, Repr, Inhabited

inductive CancelStep where
  | fresh
  | clone (token : Nat)
  | cancel (token : Nat)
deriving DecidableEq, Repr

namespace CancelTokens

def none : CancelTokens := ⟨[], []⟩

/-- The tokens after a step. A step on a token that was never handed out changes nothing. -/
def apply (ts : CancelTokens) : CancelStep → CancelTokens
  | .fresh => ⟨ts.familyOf ++ [ts.cancelled.length], ts.cancelled ++ [false]⟩
  | .clone i =>
    match ts.familyOf[i]? with
    | some family => ⟨ts.familyOf ++ [family], ts.cancelled⟩
    | .none => ts
  | .cancel i =>
    match ts.familyOf[i]? with
    | some family => ⟨ts.familyOf, ts.cancelled.set family true⟩
    | .none => ts

/-- For each token, in the order they were handed out, whether it is cancelled. -/
def flags (ts : CancelTokens) : List Bool :=
  ts.familyOf.map fun family => ts.cancelled.getD family false

end CancelTokens

end ScriptHost
