/-
# What an emission leaves behind when it is stopped

An emission can be stopped by an analyzer that fails, by an error among the findings, by a
full sink, or by the host that cancels it. Whatever stops it, the bytes in the sinks are
those of an undisturbed emission, cut somewhere: a cancelled one is cut in front of
everything or behind whole bodies, and debug symbols only follow a complete image.

Key definitions: `Outputs.IsFresh`, `Outputs.undisturbed`, `CompilationUnit.LeavesPrefix`.
Key theorems: `Compilation.run_plan_cancelled`, `Compilation.run_plan_symbols`,
`CompilationUnit.leavesPrefix_emit`.
-/
import ScriptHost.CompilationUnit
import ScriptHost.Proofs.Image.Layout

namespace ScriptHost

open EmitStep

namespace Outputs

/-- Nothing was written yet. -/
structure IsFresh (o : Outputs) : Prop where
  image : o.image.taken = []
  symbols : o.symbolsTaken = []

/-- New sinks in place of these, which take everything, and nobody cancels. -/
def undisturbed (o : Outputs) : Outputs := ⟨.unlimited, o.symbols?.map fun _ => .unlimited, false⟩

theorem undisturbed_isUndisturbed (o : Outputs) : o.undisturbed.IsUndisturbed where
  imageTakesAll := rfl
  imageGoesOn := rfl
  symbolsTakeAll sink hs := by
    obtain ⟨t, -, rfl⟩ := Option.map_eq_some_iff.mp hs
    rfl
  symbolsGoOn sink hs := by
    obtain ⟨t, -, rfl⟩ := Option.map_eq_some_iff.mp hs
    rfl
  goesOn := rfl

end Outputs

namespace Compilation

variable {c : Compilation} {o o' : Outputs} {ws : Bool}

theorem writesSymbols_undisturbed (c : Compilation) (o : Outputs) :
    c.writesSymbols o.undisturbed = c.writesSymbols o := by
  simp [writesSymbols, Outputs.undisturbed]

/-- The steps for debug symbols. -/
def symbolSteps (c : Compilation) (ws : Bool) : List EmitStep :=
  if ws then [.symbols c.debugSymbols.bytes] else []

theorem plan_eq (c : Compilation) (ws : Bool) :
    c.plan ws = (.checkpoint :: (c.image ws).steps) ++ c.symbolSteps ws := rfl

theorem checkpoint_not_mem_symbolSteps (c : Compilation) (ws : Bool) :
    .checkpoint ∉ c.symbolSteps ws := by
  unfold symbolSteps
  split <;> simp

theorem symbols_not_mem_steps (i : Image) (bs : Bytes) : .symbols bs ∉ .checkpoint :: i.steps := by
  have hblob (b : Bytes) : .symbols bs ∉ blobSteps b := by
    unfold blobSteps
    split <;> simp
  have hcount (n : Nat) : .symbols bs ≠ countStep n := by
    unfold countStep
    split <;> simp
  simp [Image.steps, hblob, hcount]

/-! ### Where a plan can stop -/

/-- **A plan that is cancelled is cut in front of everything or behind whole bodies.** -/
theorem run_plan_cancelled (hf : o.image.taken = []) (h : o.run (c.plan ws) = (.error .cancelled, o')) :
    o'.image.taken = [] ∨ ∃ j < c.bodies.length, o'.image.taken = (c.image ws).cut j := by
  obtain ⟨a, b, hab, ha, -⟩ := Outputs.run_cancelled h
  obtain ⟨w, -, hw, hok⟩ := o.run_image a
  rw [ha] at hw hok
  rw [hf, List.nil_append] at hw
  obtain ⟨rfl, hwr⟩ := hok rfl
  rw [plan_eq, List.cons_append] at hab
  rcases List.cons_eq_append_iff.mp hab with ⟨rfl, -⟩ | ⟨a', rfl, ha'⟩
  · exact .inl hw
  · obtain ⟨d, hd⟩ :=
      Image.append_split_of_not_mem_right (c.checkpoint_not_mem_symbolSteps ws) ha'
    obtain ⟨j, hj, hcut⟩ := Image.checkpoint_of_steps hd hwr.of_cons
    refine .inr ⟨j, by simpa [image] using hj, ?_⟩
    rw [hw]
    exact hcut

/-- **Debug symbols follow a complete image**, and what was taken of them is a prefix. -/
theorem run_plan_symbols (ws : Bool) (hf : o.IsFresh) :
    (o.run (c.plan ws)).2.symbolsTaken <+: c.debugSymbols.bytes ∧
      ((o.run (c.plan ws)).2.symbolsTaken ≠ [] ∨ (o.run (c.plan ws)).1 = .ok () →
        (c.image ws).bytes? = .ok (o.run (c.plan ws)).2.image.taken) := by
  obtain ⟨w, -, hw, hok⟩ := o.run_image (.checkpoint :: (c.image ws).steps)
  have hsym := o.symbols?_run _ (symbols_not_mem_steps (c.image ws))
  have hfresh := hf.symbols
  rw [plan_eq, Outputs.run_append]
  rcases ho : o.run (.checkpoint :: (c.image ws).steps) with ⟨e | _, o1⟩
  · -- the image did not go through: nothing follows it
    rw [ho] at hsym
    have hnil : o1.symbolsTaken = [] := by rw [← hfresh, Outputs.symbolsTaken, hsym]; rfl
    simp [hnil]
  · rw [ho] at hsym hw hok
    have hnil : o1.symbolsTaken = [] := by rw [← hfresh, Outputs.symbolsTaken, hsym]; rfl
    obtain ⟨rfl, hwr⟩ := hok rfl
    have hfits := Image.writable_steps.mp hwr.of_cons
    have himage : (c.image ws).bytes? = .ok o1.image.taken := by
      rw [Image.bytes?_of_fits hfits, hw, hf.image]
      exact congrArg Except.ok (Image.imageBytes_steps hfits).symm
    simp only [symbolSteps]
    split
    · obtain ⟨hi, v, hv, hvt⟩ := o1.step_symbols c.debugSymbols.bytes
      rw [hnil, List.nil_append] at hvt
      simp only [Outputs.run]
      split
      · next hs =>
        rw [hs] at hi hvt
        exact ⟨hvt ▸ hv, fun _ => hi ▸ himage⟩
      · next hs =>
        rw [hs] at hi hvt
        exact ⟨hvt ▸ hv, fun _ => hi ▸ himage⟩
    · exact ⟨by simp [hnil], fun _ => himage⟩

theorem writable_plan (h : (c.image ws).Fits) : Writable (c.plan ws) := by
  have hsym : Writable (c.symbolSteps ws) := by
    intro fault hf
    unfold symbolSteps at hf
    split at hf <;> simp at hf
  rw [plan_eq, ← List.singleton_append, writable_append, writable_append]
  exact ⟨⟨fun _ => by simp, Image.writable_steps.mpr h⟩, hsym⟩

/-- What a plan writes to the image, if the lengths fit, is the image. -/
theorem imageBytes_plan_of_fits (h : (c.image ws).Fits) :
    imageBytes (c.plan ws) = (c.image ws).layout := by
  have hw : Writable (.checkpoint :: (c.image ws).steps) := by
    rw [← List.singleton_append, writable_append]
    exact ⟨fun _ => by simp, Image.writable_steps.mpr h⟩
  have hsym : imageBytes (c.symbolSteps ws) = [] := by
    unfold symbolSteps
    split <;> rfl
  rw [plan_eq, imageBytes_append hw, hsym, List.append_nil]
  exact Image.imageBytes_steps h

/-- An undisturbed run of a plan that can be written writes the whole image. -/
theorem run_plan_undisturbed {bs : Bytes} (hu : o.IsUndisturbed) (hf : o.image.taken = [])
    (h : (c.image ws).bytes? = .ok bs) : (o.run (c.plan ws)).2.image.taken = bs := by
  obtain ⟨hfits, rfl⟩ := Image.bytes?_eq_ok.mp h
  rw [(Outputs.run_undisturbed _ hu).1, hf, List.nil_append, imageBytes_plan_of_fits hfits]

end Compilation

namespace CompilationUnit

/-- What the sinks `left` of an emission hold, and how it relates to its `result`. -/
structure LeavesPrefix (u : CompilationUnit) (fs : FileTree) (o : Outputs)
    (result : Except CompilationError (List Diagnostic)) (left : Outputs) : Prop where
  /-- The image is cut from what the same emission writes if nothing disturbs it. -/
  image : left.image.taken <+: (u.emit fs o.undisturbed).2.image.taken
  symbols : left.symbolsTaken <+: u.compilation.debugSymbols.bytes
  /-- Undisturbed, an emission that gets to write and whose lengths fit writes the image. -/
  undisturbed : ∀ found, analyze fs u.compilation u.analyzers = .ok found →
    hasErrors u.compilation.findings = false →
      ∀ bs, (u.compilation.image (u.compilation.writesSymbols o)).bytes? = .ok bs →
        (u.emit fs o.undisturbed).2.image.taken = bs
  /-- Nothing is written if an analyzer fails, if the compilation has errors of its own, or
  if the emission is cancelled before it starts. -/
  untouched : (∃ fault, analyze fs u.compilation u.analyzers = .error fault) ∨
      hasErrors u.compilation.findings ∨ o.cancelled →
    left.image.taken = [] ∧ left.symbolsTaken = []
  /-- A cancelled emission is cut in front of everything, or behind whole bodies, not all. -/
  cancelled : result = .error .cancelled → left.image.taken = [] ∨
    ∃ j < u.compilation.bodies.length,
      left.image.taken = (u.compilation.image (u.compilation.writesSymbols o)).cut j
  /-- Debug symbols are only written behind a complete image. -/
  symbolsLast : left.symbolsTaken ≠ [] →
    (u.compilation.image (u.compilation.writesSymbols o)).bytes? = .ok left.image.taken
  /-- An emission that is not stopped leaves a complete image. -/
  complete : result.isOk →
    (u.compilation.image (u.compilation.writesSymbols o)).bytes? = .ok left.image.taken
  /-- So does one that fails only for what the analyzers found. -/
  completeWithErrors : ∀ ds, result = .error (.diagnostics ds) →
    hasErrors u.compilation.findings = false →
      (u.compilation.image (u.compilation.writesSymbols o)).bytes? = .ok left.image.taken

variable {u : CompilationUnit} {fs : FileTree} {o : Outputs} {found : List Diagnostic}

theorem emit_of_fault {fault : AnalyzerFault}
    (ha : analyze fs u.compilation u.analyzers = .error fault) :
    u.emit fs o = (.error (.analyzer fault), o) := by
  simp [emit, ha]

theorem emit_of_errors (ha : analyze fs u.compilation u.analyzers = .ok found)
    (hn : hasErrors u.compilation.findings = true) :
    u.emit fs o = (.error (.diagnostics (found ++ u.compilation.findings)), o) := by
  simp [emit, ha, Compilation.emit, hn, hasErrors_append]

/-- What an emission comes to that found something and whose plan came to an outcome. -/
def conclude (u : CompilationUnit) (found : List Diagnostic) :
    Except EmitError Unit → Except CompilationError (List Diagnostic)
  | .error e => .error (.ofEmitError e)
  | .ok () =>
    if hasErrors (found ++ u.compilation.findings) then
      .error (.diagnostics (found ++ u.compilation.findings))
    else .ok (found ++ u.compilation.findings)

/-- Without a fault and without errors of its own, a compilation is written by its plan. -/
theorem emit_of_run (ha : analyze fs u.compilation u.analyzers = .ok found)
    (hn : hasErrors u.compilation.findings = false) :
    u.emit fs o =
      (u.conclude found (o.run (u.compilation.plan (u.compilation.writesSymbols o))).1,
        (o.run (u.compilation.plan (u.compilation.writesSymbols o))).2) := by
  simp only [emit, ha, Compilation.emit, hn, Bool.false_eq_true, ↓reduceIte]
  rcases o.run (u.compilation.plan (u.compilation.writesSymbols o)) with ⟨e | _, o'⟩ <;> rfl

/-- What was written is what the plan wrote. -/
theorem outputs_emit_of_run (ha : analyze fs u.compilation u.analyzers = .ok found)
    (hn : hasErrors u.compilation.findings = false) :
    (u.emit fs o).2 = (o.run (u.compilation.plan (u.compilation.writesSymbols o))).2 := by
  rw [emit_of_run ha hn]

/-- Only a plan that stops as cancelled makes a cancelled emission. -/
theorem cancelled_of_conclude {outcome : Except EmitError Unit}
    (h : u.conclude found outcome = .error .cancelled) : outcome = .error .cancelled := by
  unfold conclude at h
  split at h
  · next e =>
    cases e with
    | cancelled => rfl
    | io fault => simp [CompilationError.ofEmitError] at h
  · split at h
    · simp at h
    · simp at h

/-- An emission that ends in findings, or well, ran its plan to the end. -/
theorem ok_of_conclude {outcome : Except EmitError Unit}
    (h : (u.conclude found outcome).isOk ∨ ∃ ds, u.conclude found outcome = .error (.diagnostics ds)) :
    outcome = .ok () := by
  cases outcome with
  | error e =>
    rcases h with h | ⟨ds, h⟩
    · simp [conclude, Except.isOk, Except.toBool] at h
    · cases e <;> simp [conclude, CompilationError.ofEmitError] at h
  | ok u => rfl

/-- Sinks that nobody wrote to hold nothing. -/
theorem leavesPrefix_of_untouched (hf : o.IsFresh) {e : CompilationError} (he : e ≠ .cancelled)
    (hd : hasErrors u.compilation.findings = false →
      (∃ fault, analyze fs u.compilation u.analyzers = .error fault) ∧
        ∀ ds, e ≠ .diagnostics ds) :
    u.LeavesPrefix fs o (.error e) o where
  image := by simp [hf.image]
  symbols := by simp [hf.symbols]
  undisturbed found ha hn := by
    obtain ⟨⟨fault, hfault⟩, -⟩ := hd hn
    simp [ha] at hfault
  untouched _ := ⟨hf.image, hf.symbols⟩
  cancelled h := absurd (Except.error.inj h) he
  symbolsLast h := absurd hf.symbols h
  complete h := by simp [Except.isOk, Except.toBool] at h
  completeWithErrors ds h hn := absurd (Except.error.inj h) ((hd hn).2 ds)

/-- **Whatever stops an emission, the sinks hold an undisturbed emission cut short.** -/
theorem leavesPrefix_emit (u : CompilationUnit) (fs : FileTree) (o : Outputs) (hf : o.IsFresh) :
    u.LeavesPrefix fs o (u.emit fs o).1 (u.emit fs o).2 := by
  rcases ha : analyze fs u.compilation u.analyzers with fault | found
  · rw [emit_of_fault ha]
    exact leavesPrefix_of_untouched hf (by simp) fun _ => ⟨⟨fault, ha⟩, by simp⟩
  rcases hn : hasErrors u.compilation.findings with _ | _
  · have hu := o.undisturbed_isUndisturbed
    obtain ⟨w, hw, htaken, -⟩ := o.run_image (u.compilation.plan (u.compilation.writesSymbols o))
    obtain ⟨hsym, hcomplete⟩ := u.compilation.run_plan_symbols (u.compilation.writesSymbols o) hf
    have hresult := congrArg Prod.fst (emit_of_run (o := o) ha hn)
    have hleft := outputs_emit_of_run (o := o) ha hn
    have hfull := outputs_emit_of_run (o := o.undisturbed) ha hn
    rw [Compilation.writesSymbols_undisturbed] at hfull
    rw [← hleft] at hsym hcomplete htaken
    rw [hresult]
    refine ⟨?_, hsym, fun _ _ _ bs hbs => ?_, ?_, fun h => ?_, fun h => hcomplete (.inl h),
      fun h => hcomplete (.inr (ok_of_conclude (.inl h))),
      fun ds h _ => hcomplete (.inr (ok_of_conclude (.inr ⟨ds, h⟩)))⟩
    · rw [hfull, (Outputs.run_undisturbed _ hu).1, htaken, hf.image]
      exact hw
    · rw [hfull]
      exact Compilation.run_plan_undisturbed hu rfl hbs
    · rintro (⟨fault, h⟩ | h | h)
      · simp [ha] at h
      · simp [hn] at h
      · -- the first step of the plan is a checkpoint
        rw [hleft]
        have hrun : o.run (u.compilation.plan (u.compilation.writesSymbols o)) =
            (.error .cancelled, o) := by
          simp [Compilation.plan_eq, Outputs.run, Outputs.step, h]
        rw [hrun]
        exact ⟨hf.image, hf.symbols⟩
    · rw [hleft]
      exact Compilation.run_plan_cancelled hf.image (Prod.ext (cancelled_of_conclude h) rfl)
  · rw [emit_of_errors ha hn]
    exact leavesPrefix_of_untouched hf (by simp) fun h => by simp [hn] at h

end CompilationUnit
end ScriptHost
