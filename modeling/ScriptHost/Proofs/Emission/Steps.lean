/-
# What a run of emission steps leaves in its sinks

A list of steps has the bytes that it writes to the image, up to the first step that cannot
be written. Whatever the sinks do, a run leaves a prefix of these bytes in the image, and all
of them if it goes through. A run that stops as cancelled stops at a checkpoint, and
everything in front of that checkpoint has been taken.

Key definitions: `EmitStep.imageBytes`, `EmitStep.Writable`, `Outputs.symbolsTaken`,
`Outputs.IsUndisturbed`, `Outputs.CancelsAt`.
Key theorems: `Outputs.run_image`, `Outputs.run_cancelled`, `Outputs.run_undisturbed`.
-/
import ScriptHost.Emission.Plan

namespace ScriptHost
namespace EmitStep

/-- The bytes that the steps write to the image, up to a step that cannot be written. -/
def imageBytes : List EmitStep → Bytes
  | [] => []
  | .image bs :: more => bs ++ imageBytes more
  | .refuse _ :: _ => []
  | .checkpoint :: more => imageBytes more
  | .symbols _ :: more => imageBytes more

/-- No step refuses to be written. -/
def Writable (steps : List EmitStep) : Prop := ∀ fault, .refuse fault ∉ steps

theorem Writable.nil : Writable [] := fun _ => List.not_mem_nil

theorem Writable.of_cons {s : EmitStep} {more : List EmitStep} (h : Writable (s :: more)) :
    Writable more := fun fault hf => h fault (List.mem_cons_of_mem _ hf)

theorem writable_append {a b : List EmitStep} : Writable (a ++ b) ↔ Writable a ∧ Writable b := by
  simp only [Writable, List.mem_append, not_or, forall_and]

theorem writable_images (chunks : List Bytes) : Writable (chunks.map .image) := by
  intro fault h
  obtain ⟨bs, -, hb⟩ := List.mem_map.mp h
  cases hb

theorem imageBytes_append : ∀ {a b : List EmitStep}, Writable a →
    imageBytes (a ++ b) = imageBytes a ++ imageBytes b
  | [], _, _ => rfl
  | s :: a, b, h => by
    have ih := imageBytes_append (b := b) h.of_cons
    cases s with
    | image bs => simp [imageBytes, ih]
    | checkpoint => simpa [imageBytes] using ih
    | refuse fault => exact absurd (List.mem_cons_self ..) (h fault)
    | symbols bs => simpa [imageBytes] using ih

/-- Behind a step that refuses nothing is written. -/
theorem imageBytes_append_of_refuses : ∀ {a b : List EmitStep}, ¬ Writable a →
    imageBytes (a ++ b) = imageBytes a
  | [], _, h => absurd .nil h
  | s :: a, b, h => by
    have ih (hs : ∀ fault, s ≠ .refuse fault) : imageBytes (a ++ b) = imageBytes a := by
      refine imageBytes_append_of_refuses fun ha => h fun fault hf => ?_
      rcases List.mem_cons.mp hf with he | hf
      · exact hs fault he.symm
      · exact ha fault hf
    cases s with
    | image bs => simp [imageBytes, ih]
    | checkpoint => simpa [imageBytes] using ih
    | refuse fault => rfl
    | symbols bs => simpa [imageBytes] using ih

theorem imageBytes_images (chunks : List Bytes) : imageBytes (chunks.map .image) = chunks.flatten := by
  induction chunks with
  | nil => rfl
  | cons bs chunks ih => simp [imageBytes, ih]

end EmitStep

namespace Outputs

open EmitStep

/-- What the sink for debug symbols has taken. -/
def symbolsTaken (o : Outputs) : Bytes := (o.symbols?.map (·.taken)).getD []

/-- The sinks take everything and nobody cancels. -/
structure IsUndisturbed (o : Outputs) : Prop where
  imageTakesAll : o.image.capacity? = none
  imageGoesOn : o.image.cancelsAt? = none
  symbolsTakeAll : ∀ sink ∈ o.symbols?, sink.capacity? = none
  symbolsGoOn : ∀ sink ∈ o.symbols?, sink.cancelsAt? = none
  goesOn : o.cancelled = false

/-- The image's sink cancels when it has taken so many bytes, or never, and nobody else does. -/
structure CancelsAt (n? : Option Nat) (o : Outputs) : Prop where
  image : o.image.cancelsAt? = n?
  symbols : ∀ sink ∈ o.symbols?, sink.cancelsAt? = none
  cancelled : o.cancelled = true ↔ ∃ n ∈ n?, n ≤ o.image.taken.length

/-! ### One step -/

/-- A step leaves a prefix of its bytes in the image, and all of them if it goes through. -/
theorem step_image (o : Outputs) (s : EmitStep) :
    ∃ w, w <+: imageBytes [s] ∧ (o.step s).2.image.taken = o.image.taken ++ w ∧
      ((o.step s).1 = .ok () → w = imageBytes [s] ∧ Writable [s]) := by
  cases s with
  | image bs =>
    refine ⟨o.image.accepted bs, ?_, rfl, fun h => ⟨?_, fun _ => by simp⟩⟩
    · simpa [imageBytes] using o.image.accepted_isPrefix bs
    · simp only [step] at h
      split at h
      · next hf => simpa [imageBytes] using Sink.accepted_of_fits hf
      · cases h
  | checkpoint => exact ⟨[], List.nil_prefix, by simp [step], fun _ => ⟨rfl, fun _ => by simp⟩⟩
  | refuse fault => exact ⟨[], List.nil_prefix, by simp [step], fun h => by simp [step] at h⟩
  | symbols bs =>
    refine ⟨[], List.nil_prefix, ?_, fun _ => ⟨rfl, fun _ => by simp⟩⟩
    simp only [step]
    split <;> simp

/-- A step for the debug symbols leaves a prefix of its bytes there, and the image alone. -/
theorem step_symbols (o : Outputs) (bs : Bytes) :
    (o.step (.symbols bs)).2.image = o.image ∧
      ∃ w, w <+: bs ∧ (o.step (.symbols bs)).2.symbolsTaken = o.symbolsTaken ++ w := by
  cases hs : o.symbols? with
  | none => exact ⟨by simp [step, hs], [], List.nil_prefix, by simp [step, hs]⟩
  | some sink =>
    exact ⟨by simp [step, hs], sink.accepted bs, sink.accepted_isPrefix bs,
      by simp [step, hs, symbolsTaken]⟩

/-- Other steps leave the debug symbols alone. -/
theorem symbols?_step {s : EmitStep} (o : Outputs) (h : ∀ bs, s ≠ .symbols bs) :
    (o.step s).2.symbols? = o.symbols? := by
  cases s with
  | image bs => rfl
  | checkpoint => rfl
  | refuse fault => rfl
  | symbols bs => exact absurd rfl (h bs)

/-- Only a checkpoint stops a run as cancelled. -/
theorem step_cancelled {o : Outputs} {s : EmitStep} (h : (o.step s).1 = .error .cancelled) :
    s = .checkpoint ∧ o.cancelled ∧ (o.step s).2 = o := by
  cases s with
  | image bs =>
    simp only [step] at h
    split at h <;> cases h
  | checkpoint =>
    simp only [step] at h
    split at h
    · next hc => exact ⟨rfl, hc, rfl⟩
    · cases h
  | refuse fault => cases h
  | symbols bs =>
    simp only [step] at h
    split at h
    · cases h
    · simp only at h
      split at h <;> cases h

theorem fits_of_unlimited {s : Sink} (h : s.capacity? = none) (bs : Bytes) : s.fits bs := by
  simp [Sink.fits, Sink.accepted, h]

/-- **A step cancels if it fills the image's sink up to the number of bytes.** -/
theorem CancelsAt.step {o : Outputs} {n? : Option Nat} (h : o.CancelsAt n?) (s : EmitStep) :
    (o.step s).2.CancelsAt n? := by
  obtain ⟨himage, hsymbols, hcancelled⟩ := h
  cases s with
  | image bs =>
    refine ⟨himage, hsymbols, ?_⟩
    have hcancels : o.image.cancels bs = true ↔ o.image.accepted bs ≠ [] ∧
        ∃ n ∈ n?, n ≤ (o.image.taken ++ o.image.accepted bs).length := by
      simp [Sink.cancels, himage, Option.any_eq_true]
    show (o.cancelled || o.image.cancels bs) = true ↔
      ∃ n ∈ n?, n ≤ (o.image.taken ++ o.image.accepted bs).length
    rw [Bool.or_eq_true, hcancelled, hcancels]
    by_cases hnil : o.image.accepted bs = []
    · simp [hnil]
    · constructor
      · rintro (⟨n, hn, hle⟩ | ⟨-, h⟩)
        · refine ⟨n, hn, Nat.le_trans hle ?_⟩
          rw [List.length_append]
          exact Nat.le_add_right _ _
        · exact h
      · intro h
        exact .inr ⟨hnil, h⟩
  | checkpoint => exact ⟨himage, hsymbols, hcancelled⟩
  | refuse fault => exact ⟨himage, hsymbols, hcancelled⟩
  | symbols bs =>
    cases hx : o.symbols? with
    | none =>
      simp only [Outputs.step, hx]
      exact ⟨himage, hsymbols, hcancelled⟩
    | some sink =>
      have hsink := hsymbols sink (by simp [hx])
      simp only [Outputs.step, hx]
      refine ⟨himage, fun t ht => ?_, ?_⟩
      · obtain rfl : sink.put bs = t := by simpa using ht
        exact hsink
      · simpa [Sink.cancels, hsink] using hcancelled

/-- Nobody has cancelled where nobody does. -/
theorem CancelsAt.goesOn {o : Outputs} (h : o.CancelsAt none) : o.cancelled = false := by
  have hnever : ¬ o.cancelled = true := by
    rw [h.cancelled]
    rintro ⟨n, hn, -⟩
    cases hn
  exact Bool.eq_false_iff.mpr hnever

theorem IsUndisturbed.cancelsAt {o : Outputs} (h : o.IsUndisturbed) : o.CancelsAt none where
  image := h.imageGoesOn
  symbols := h.symbolsGoOn
  cancelled := by simp [h.goesOn]

/-- Undisturbed outputs stay so, and a step that can be written goes through. -/
theorem IsUndisturbed.step {o : Outputs} (h : o.IsUndisturbed) (s : EmitStep) :
    (o.step s).2.IsUndisturbed ∧ (Writable [s] → (o.step s).1 = .ok ()) := by
  have hcalm := (h.cancelsAt.step s).goesOn
  obtain ⟨hstays, hgoesOn, -⟩ := h.cancelsAt.step s
  have himage := h.imageTakesAll
  have hsymbols := h.symbolsTakeAll
  cases s with
  | image bs =>
    refine ⟨⟨himage, hstays, hsymbols, hgoesOn, hcalm⟩, fun _ => ?_⟩
    simp [Outputs.step, fits_of_unlimited himage]
  | checkpoint =>
    refine ⟨⟨himage, hstays, hsymbols, hgoesOn, hcalm⟩, fun _ => ?_⟩
    simp [Outputs.step, h.goesOn]
  | refuse fault =>
    exact ⟨⟨himage, hstays, hsymbols, hgoesOn, hcalm⟩,
      fun hw => absurd (List.mem_singleton_self _) (hw fault)⟩
  | symbols bs =>
    cases hs : o.symbols? with
    | none =>
      simp only [Outputs.step, hs]
      exact ⟨h, fun _ => trivial⟩
    | some sink =>
      have hsink := hsymbols sink (by simp [hs])
      simp only [Outputs.step, hs] at hgoesOn hcalm ⊢
      refine ⟨⟨himage, h.imageGoesOn, fun t ht => ?_, hgoesOn, hcalm⟩, fun _ => ?_⟩
      · obtain rfl : sink.put bs = t := by simpa using ht
        exact hsink
      · simp [fits_of_unlimited hsink]

/-! ### A whole run -/

/-- **A run leaves a prefix of its bytes in the image**, and all of them if it goes through. -/
theorem run_image : ∀ (o : Outputs) (steps : List EmitStep),
    ∃ w, w <+: imageBytes steps ∧ (o.run steps).2.image.taken = o.image.taken ++ w ∧
      ((o.run steps).1 = .ok () → w = imageBytes steps ∧ Writable steps)
  | o, [] => ⟨[], List.nil_prefix, by simp, fun _ => ⟨rfl, .nil⟩⟩
  | o, s :: more => by
    obtain ⟨w, hw, ht, hok⟩ := o.step_image s
    simp only [run]
    rcases hs : o.step s with ⟨e | _, o'⟩
    · rw [hs] at ht
      refine ⟨w, hw.trans ?_, ht, fun h => by cases h⟩
      by_cases hwr : Writable [s]
      · exact ⟨imageBytes more, (imageBytes_append hwr).symm⟩
      · exact (imageBytes_append_of_refuses (b := more) hwr) ▸ List.prefix_rfl
    · rw [hs] at ht hok
      obtain ⟨rfl, hwr⟩ := hok rfl
      obtain ⟨v, hv, hvt, hvok⟩ := run_image o' more
      have happ : imageBytes (s :: more) = imageBytes [s] ++ imageBytes more := imageBytes_append hwr
      refine ⟨imageBytes [s] ++ v, ?_, ?_, fun h => ?_⟩
      · rw [happ]
        exact (List.prefix_append_right_inj _).mpr hv
      · rw [hvt, ht, List.append_assoc]
      · obtain ⟨rfl, hm⟩ := hvok h
        exact ⟨happ.symm, writable_append.mpr ⟨hwr, hm⟩⟩

/-- **A run that stops as cancelled stops at a checkpoint.** -/
theorem run_cancelled : ∀ {o o' : Outputs} {steps : List EmitStep},
    o.run steps = (.error .cancelled, o') →
      ∃ a b, steps = a ++ .checkpoint :: b ∧ o.run a = (.ok (), o') ∧ o'.cancelled
  | o, o', [], h => by simp at h
  | o, o', s :: more, h => by
    simp only [run] at h
    rcases hs : o.step s with ⟨e | _, o1⟩
    · rw [hs] at h
      obtain ⟨rfl, rfl⟩ : e = .cancelled ∧ o1 = o' := by simpa using h
      obtain ⟨rfl, hc, ho⟩ := step_cancelled (o := o) (s := s) (by rw [hs])
      obtain rfl : o1 = o := by rw [← ho, hs]
      exact ⟨[], more, rfl, rfl, hc⟩
    · rw [hs] at h
      obtain ⟨a, b, rfl, ha, hc⟩ := run_cancelled h
      exact ⟨s :: a, b, rfl, by simp only [run, hs, ha], hc⟩

/-- Undisturbed outputs take the bytes of all steps, and a run goes through if all can be
written. -/
theorem run_undisturbed : ∀ {o : Outputs} (steps : List EmitStep), o.IsUndisturbed →
    (o.run steps).2.image.taken = o.image.taken ++ imageBytes steps ∧
      (Writable steps → (o.run steps).1 = .ok ())
  | o, [], _ => ⟨by simp [imageBytes], fun _ => rfl⟩
  | o, s :: more, h => by
    obtain ⟨hu, hok⟩ := h.step s
    obtain ⟨w, hw, ht, htok⟩ := o.step_image s
    simp only [run]
    by_cases hwr : Writable [s]
    · rcases hs : o.step s with ⟨e | _, o'⟩
      · rw [hs] at hok
        cases hok hwr
      · rw [hs] at hu ht htok
        obtain ⟨rfl, -⟩ := htok rfl
        obtain ⟨hr, hrok⟩ := run_undisturbed more hu
        refine ⟨?_, fun hm => hrok hm.of_cons⟩
        rw [hr, ht, List.append_assoc, ← imageBytes_append hwr]
        rfl
    · cases s with
      | refuse fault =>
        exact ⟨by simp [Outputs.step, imageBytes],
          fun hm => absurd (List.mem_cons_self ..) (hm fault)⟩
      | image bs => exact absurd (fun _ => by simp) hwr
      | checkpoint => exact absurd (fun _ => by simp) hwr
      | symbols bs => exact absurd (fun _ => by simp) hwr

/-- A run without steps for the debug symbols leaves them alone. -/
theorem symbols?_run : ∀ (o : Outputs) (steps : List EmitStep), (∀ bs, .symbols bs ∉ steps) →
    (o.run steps).2.symbols? = o.symbols?
  | o, [], _ => rfl
  | o, s :: more, h => by
    have hs := o.symbols?_step (s := s) fun bs he => h bs (he ▸ List.mem_cons_self ..)
    simp only [run]
    rcases ho : o.step s with ⟨e | _, o'⟩
    · rwa [ho] at hs
    · rw [ho] at hs
      rw [symbols?_run o' more fun bs hb => h bs (List.mem_cons_of_mem _ hb)]
      exact hs

end Outputs
end ScriptHost
