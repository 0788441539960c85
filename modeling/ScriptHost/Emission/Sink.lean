/-
# Sinks

A sink takes the bytes that are written to it, perhaps only so many of them: it takes what
fits and refuses the rest. The host may cancel the emission while it runs; here a sink
cancels when it has taken so many bytes. Nothing that was taken is given back.

Key definitions: `Sink`, `Sink.put`, `Outputs`, `EmitStep`, `Outputs.run`.
Key theorems: `Sink.accepted_of_fits`, `Outputs.run_append`.
-/
import ScriptHost.Image.Basic

namespace ScriptHost

/-- What a sink has taken, how many bytes it takes in all, and at how many it cancels; it
takes all bytes, or never cancels, where there is no number. -/
structure Sink where
  taken : Bytes
  capacity? : Option Nat
  cancelsAt? : Option Nat
deriving DecidableEq, Repr, Inhabited

namespace Sink

/-- A sink that takes everything and never cancels. -/
def unlimited : Sink := ⟨[], none, none⟩

/-- What fits of the bytes. -/
def accepted (s : Sink) (bs : Bytes) : Bytes :=
  match s.capacity? with
  | some n => bs.take (n - s.taken.length)
  | none => bs

/-- The sink after bytes were written to it. -/
def put (s : Sink) (bs : Bytes) : Sink := { s with taken := s.taken ++ s.accepted bs }

/-- Whether the sink takes all of the bytes. -/
def fits (s : Sink) (bs : Bytes) : Bool := (s.accepted bs).length == bs.length

/-- Whether taking the bytes cancels: some are taken, and the number of bytes taken in all
is reached. -/
def cancels (s : Sink) (bs : Bytes) : Bool :=
  !(s.accepted bs).isEmpty && s.cancelsAt?.any fun n => n ≤ (s.put bs).taken.length

@[simp] theorem taken_put (s : Sink) (bs : Bytes) :
    (s.put bs).taken = s.taken ++ s.accepted bs := rfl

/-- A sink takes the first of the bytes. -/
theorem accepted_isPrefix (s : Sink) (bs : Bytes) : s.accepted bs <+: bs := by
  unfold accepted
  split
  · exact List.take_prefix _ _
  · exact List.prefix_rfl

/-- What fits is taken as it is. -/
theorem accepted_of_fits {s : Sink} {bs : Bytes} (h : s.fits bs) : s.accepted bs = bs :=
  (s.accepted_isPrefix bs).eq_of_length (by simpa [fits] using h)

end Sink

/-- Why an emission stopped. -/
inductive EmitError where
  | cancelled
  | io (fault : WriteFault)
deriving DecidableEq, Repr

def EmitError.message : EmitError → String
  | cancelled => "emission was cancelled"
  | io fault => fault.message

/-- The sinks of an emission, and whether it was cancelled. -/
structure Outputs where
  image : Sink
  symbols? : Option Sink
  cancelled : Bool
deriving DecidableEq, Repr, Inhabited

/-- One step of an emission: bytes for the image, a point where cancelling takes effect,
something that cannot be written, or bytes for the debug symbols. -/
inductive EmitStep where
  | image (bs : Bytes)
  | checkpoint
  | refuse (fault : WriteFault)
  | symbols (bs : Bytes)
deriving DecidableEq, Repr

namespace Outputs

/-- The outputs after one step, and whether it went through. Without a sink for debug
symbols these go nowhere. -/
def step (o : Outputs) : EmitStep → Except EmitError Unit × Outputs
  | .image bs =>
    (if o.image.fits bs then .ok () else .error (.io .sinkFull),
      { o with image := o.image.put bs, cancelled := o.cancelled || o.image.cancels bs })
  | .checkpoint => (if o.cancelled then .error .cancelled else .ok (), o)
  | .refuse fault => (.error (.io fault), o)
  | .symbols bs =>
    match o.symbols? with
    | none => (.ok (), o)
    | some sink =>
      (if sink.fits bs then .ok () else .error (.io .sinkFull),
        { o with symbols? := some (sink.put bs), cancelled := o.cancelled || sink.cancels bs })

/-- The outputs after the steps up to the first that does not go through. -/
def run (o : Outputs) : List EmitStep → Except EmitError Unit × Outputs
  | [] => (.ok (), o)
  | s :: more =>
    match o.step s with
    | (.ok (), o) => run o more
    | (.error e, o) => (.error e, o)

@[simp] theorem run_nil (o : Outputs) : o.run [] = (.ok (), o) := rfl

/-- Steps behind others run if those went through. -/
theorem run_append (o : Outputs) (a b : List EmitStep) :
    o.run (a ++ b) =
      match o.run a with
      | (.ok (), o) => o.run b
      | (.error e, o) => (.error e, o) := by
  induction a generalizing o with
  | nil => rfl
  | cons s more ih =>
    simp only [List.cons_append, run]
    split
    · exact ih _
    · rfl

end Outputs

end ScriptHost
