/-
# At whatever moment an emission is cancelled

A sink cancels when it has taken a number of bytes. Somebody else may cancel at a moment of
his own, which is noticed at the next checkpoint. But in a plan bytes of the image stand
between any two checkpoints, so that a number of bytes tells the checkpoints apart: a plan
that is cancelled at some moment runs as it does into sinks that take as much and cancel at
a number of bytes, or that are cancelled from the start.

Key definitions: `Outputs.runWhile`, `Outputs.stock`, `EmitStep.Spaced`,
`CompilationUnit.emitWhile`.
Key theorems: `Outputs.runWhile_cases`, `Outputs.run_of_cancelsAt`, `Compilation.spaced_plan`,
`Compilation.run_plan_whenever`, `CompilationUnit.emitWhile_never`,
`CompilationUnit.emit_leavesPrefix`.
-/
import ScriptHost.Proofs.Emission.Cut

namespace ScriptHost

open EmitStep

/-! ### What the sinks hold and take -/

/-- What the sink holds, and how much it takes. -/
def Sink.stock (s : Sink) : Bytes × Option Nat := (s.taken, s.capacity?)

theorem Sink.accepted_of_stock {s s' : Sink} (h : s.stock = s'.stock) (bs : Bytes) :
    s.accepted bs = s'.accepted bs := by
  obtain ⟨ht, hc⟩ := Prod.mk.inj h
  unfold accepted
  rw [ht, hc]

theorem Sink.fits_of_stock {s s' : Sink} (h : s.stock = s'.stock) (bs : Bytes) :
    s.fits bs = s'.fits bs := by
  unfold fits
  rw [Sink.accepted_of_stock h]

theorem Sink.put_of_stock {s s' : Sink} (h : s.stock = s'.stock) (bs : Bytes) :
    (s.put bs).stock = (s'.put bs).stock := by
  have haccepted := Sink.accepted_of_stock h bs
  obtain ⟨ht, hc⟩ := Prod.mk.inj h
  unfold stock put
  rw [ht, hc, haccepted]

namespace Outputs

variable {o o' o1 : Outputs} {n : Nat}

/-- What the sinks hold, and how much they take. -/
def stock (o : Outputs) : (Bytes × Option Nat) × Option (Bytes × Option Nat) :=
  (o.image.stock, o.symbols?.map Sink.stock)

/-- But for checkpoints, a step does the same with sinks that hold and take the same. -/
theorem step_of_stock (h : o.stock = o'.stock) {s : EmitStep} (hs : s ≠ .checkpoint) :
    (o.step s).1 = (o'.step s).1 ∧ (o.step s).2.stock = (o'.step s).2.stock := by
  obtain ⟨himage, hsymbols⟩ := Prod.mk.inj h
  cases s with
  | image bs =>
    have hfits := Sink.fits_of_stock himage bs
    have hput := Sink.put_of_stock himage bs
    refine ⟨?_, ?_⟩
    · simp only [step, hfits]
    · simp only [step, stock, hput, hsymbols]
  | checkpoint => exact absurd rfl hs
  | refuse fault => exact ⟨rfl, h⟩
  | symbols bs =>
    cases hx : o.symbols? with
    | none =>
      have hy : o'.symbols? = none := by
        rw [hx] at hsymbols
        exact Option.map_eq_none_iff.mp hsymbols.symm
      simp only [step, hx, hy]
      exact ⟨trivial, h⟩
    | some sink =>
      rw [hx] at hsymbols
      obtain ⟨sink', hy, hstock⟩ := Option.map_eq_some_iff.mp hsymbols.symm
      have hfits := Sink.fits_of_stock hstock bs
      have hput := Sink.put_of_stock hstock bs
      simp only [step, hx, hy]
      refine ⟨by rw [hfits], ?_⟩
      simp only [stock, himage, Option.map_some, hput]

/-! ### Runs that somebody else cancels -/

/-- A run during which somebody else may cancel: `sets n` says whether he has done so when
step number `n` is next. -/
def runWhile (sets : Nat → Bool) : Nat → Outputs → List EmitStep → Except EmitError Unit × Outputs
  | _, o, [] => (.ok (), o)
  | n, o, s :: more =>
    match step { o with cancelled := o.cancelled || sets n } s with
    | (.ok (), o) => runWhile sets (n + 1) o more
    | (.error e, o) => (.error e, o)

/-- If nobody else cancels, this is a run. -/
theorem runWhile_never : ∀ (n : Nat) (o : Outputs) (steps : List EmitStep),
    runWhile (fun _ => false) n o steps = o.run steps
  | n, o, [] => rfl
  | n, o, s :: more => by
    have hsame : { o with cancelled := o.cancelled || false } = o := by rw [Bool.or_false]
    unfold runWhile run
    rw [hsame]
    rcases o.step s with ⟨e | _, o1⟩
    · rfl
    · exact runWhile_never (n + 1) o1 more

/-- **A run goes on as if nobody cancelled, or it stops as cancelled at a checkpoint** that a
run that nobody cancels comes to. -/
theorem runWhile_cases (sets : Nat → Bool) : ∀ (n : Nat) (steps : List EmitStep) {o o' : Outputs},
    o'.CancelsAt none → o'.stock = o.stock →
      ((o'.run steps).1 = (runWhile sets n o steps).1 ∧
          (o'.run steps).2.stock = (runWhile sets n o steps).2.stock) ∨
        ∃ a b o1, steps = a ++ .checkpoint :: b ∧ o'.run a = (.ok (), o1) ∧
          (runWhile sets n o steps).1 = .error .cancelled ∧
            o1.stock = (runWhile sets n o steps).2.stock
  | n, [], o, o', hcalm, hstock => .inl ⟨rfl, hstock⟩
  | n, s :: more, o, o', hcalm, hstock => by
    have hset : o'.stock = stock { o with cancelled := o.cancelled || sets n } := hstock
    unfold runWhile
    generalize { o with cancelled := o.cancelled || sets n } = o2 at hset
    by_cases hs : s = .checkpoint
    · subst hs
      have hpass : o'.step .checkpoint = (.ok (), o') := by simp [step, hcalm.goesOn]
      by_cases hc : o2.cancelled = true
      · right
        refine ⟨[], more, o', rfl, rfl, ?_, ?_⟩
        · simp [step, hc]
        · simpa [step, hc] using hset
      · have hgoes : o2.step .checkpoint = (.ok (), o2) := by simp [step, hc]
        rw [hgoes]
        unfold run
        rw [hpass]
        rcases runWhile_cases sets (n + 1) more hcalm hset with h | ⟨a, b, o1, rfl, ha, hr, ho⟩
        · exact .inl h
        · refine .inr ⟨.checkpoint :: a, b, o1, rfl, ?_, hr, ho⟩
          simp only [hpass, ha]
    · obtain ⟨hresult, hleft⟩ := step_of_stock hset hs
      have hcalm' := hcalm.step s
      unfold run
      rcases ho2 : o2.step s with ⟨e | _, o3⟩
      · rw [ho2] at hresult hleft
        rcases ho' : o'.step s with ⟨e' | _, o4⟩
        · rw [ho'] at hresult hleft
          exact .inl ⟨hresult, hleft⟩
        · rw [ho'] at hresult
          cases hresult
      · rw [ho2] at hresult hleft
        rcases ho' : o'.step s with ⟨e' | _, o4⟩
        · rw [ho'] at hresult
          cases hresult
        · rw [ho'] at hleft hcalm'
          rcases runWhile_cases sets (n + 1) more hcalm' hleft with h | ⟨a, b, o1, rfl, ha, hr, ho⟩
          · exact .inl h
          · refine .inr ⟨s :: a, b, o1, rfl, ?_, hr, ho⟩
            simp only [ho', ha]

/-- Sinks that hold and take as much and never cancel. -/
def calm (o : Outputs) : Outputs :=
  ⟨{ o.image with cancelsAt? := none },
    o.symbols?.map fun sink => { sink with cancelsAt? := none }, false⟩

theorem cancelsAt_calm (o : Outputs) : o.calm.CancelsAt none := by
  refine ⟨rfl, fun sink hs => ?_, by simp [calm]⟩
  obtain ⟨t, -, rfl⟩ := Option.map_eq_some_iff.mp hs
  rfl

theorem stock_calm (o : Outputs) : o.calm.stock = o.stock := by
  have hsymbols : (o.symbols?.map fun sink => { sink with cancelsAt? := none }).map Sink.stock =
      o.symbols?.map Sink.stock := by
    cases o.symbols? <;> rfl
  unfold calm stock
  rw [hsymbols]
  rfl

/-! ### Sinks that cancel at a number of bytes -/

/-- Sinks that hold and take as much, of which the image's cancels at `n` bytes. -/
def cancelling (n : Nat) (o : Outputs) : Outputs :=
  { o.calm with image := { o.image with cancelsAt? := some n } }

theorem stock_cancelling (n : Nat) (o : Outputs) : (o.cancelling n).stock = o.stock := o.stock_calm

theorem cancelsAt_cancelling (h : o.image.taken.length < n) :
    (o.cancelling n).CancelsAt (some n) where
  image := rfl
  symbols := o.cancelsAt_calm.symbols
  cancelled := by
    show false = true ↔ ∃ m ∈ some n, m ≤ o.image.taken.length
    simp only [Bool.false_eq_true, Option.mem_def, Option.some.injEq, exists_eq_left', false_iff]
    omega

/-- **Sinks that cancel at a number of bytes go through where nobody cancels**, if there are
fewer bytes in front of every checkpoint. -/
theorem run_of_cancelsAt : ∀ {steps : List EmitStep} {o o' o1 : Outputs}, o.CancelsAt (some n) →
    o'.CancelsAt none → o.stock = o'.stock → o'.run steps = (.ok (), o1) →
      (∀ a b, steps = a ++ .checkpoint :: b → o.image.taken.length + (imageBytes a).length < n) →
        ∃ o2, o.run steps = (.ok (), o2) ∧ o2.CancelsAt (some n) ∧ o2.stock = o1.stock
  | [], o, o', o1, hat, hcalm, hstock, hrun, hfew => by
    obtain ⟨-, rfl⟩ := Prod.mk.inj hrun
    exact ⟨o, rfl, hat, hstock⟩
  | s :: more, o, o', o1, hat, hcalm, hstock, hrun, hfew => by
    obtain ⟨w, -, htaken, hall⟩ := o.step_image s
    have hpasses : ∃ o3 o4, o'.step s = (.ok (), o3) ∧ o.step s = (.ok (), o4) ∧
        o4.stock = o3.stock := by
      by_cases hs : s = .checkpoint
      · subst hs
        have hlt := hfew [] more rfl
        have hgoesOn : ¬ o.cancelled = true := by
          rw [hat.cancelled]
          rintro ⟨m, hm, hle⟩
          obtain rfl := Option.some.inj hm
          exact absurd hlt (Nat.not_lt_of_le hle)
        exact ⟨o', o, by simp [Outputs.step, hcalm.goesOn], by simp [Outputs.step, hgoesOn], hstock⟩
      · obtain ⟨hresult, hleft⟩ := step_of_stock hstock hs
        unfold run at hrun
        rcases ho' : o'.step s with ⟨e | _, o3⟩
        · rw [ho'] at hrun
          cases hrun
        · rcases ho : o.step s with ⟨e | _, o4⟩
          · rw [ho, ho'] at hresult
            cases hresult
          · rw [ho, ho'] at hleft
            exact ⟨o3, o4, rfl, rfl, hleft⟩
    obtain ⟨o3, o4, ho', ho, hleft⟩ := hpasses
    have hcalm' := hcalm.step s
    have hat' := hat.step s
    unfold run at hrun ⊢
    rw [ho'] at hrun hcalm'
    rw [ho] at htaken hall hat' ⊢
    obtain ⟨rfl, hwritable⟩ := hall rfl
    refine run_of_cancelsAt hat' hcalm' hleft hrun fun a b hab => ?_
    have hlt := hfew (s :: a) b (by rw [hab]; rfl)
    have hbytes : imageBytes (s :: a) = imageBytes [s] ++ imageBytes a :=
      imageBytes_append hwritable
    rw [hbytes, List.length_append] at hlt
    rw [htaken, List.length_append]
    omega

end Outputs

/-! ### Bytes between checkpoints -/

namespace EmitStep

/-- Behind every checkpoint bytes are written to the image, or something cannot be written. -/
inductive Spaced : List EmitStep → Prop
  | nil : Spaced []
  | plain {s : EmitStep} {more : List EmitStep} (hs : s ≠ .checkpoint) (h : Spaced more) :
    Spaced (s :: more)
  | bytes {bs : Bytes} {more : List EmitStep} (hbs : bs ≠ []) (h : Spaced more) :
    Spaced (.checkpoint :: .image bs :: more)
  | refusal {fault : WriteFault} {more : List EmitStep} (h : Spaced more) :
    Spaced (.checkpoint :: .refuse fault :: more)

theorem Spaced.append {a b : List EmitStep} (ha : Spaced a) (hb : Spaced b) : Spaced (a ++ b) := by
  induction ha with
  | nil => exact hb
  | plain hs _ ih => exact .plain hs ih
  | bytes hbs _ ih => exact .bytes hbs ih
  | refusal _ ih => exact .refusal ih

theorem Spaced.of_plain : ∀ {steps : List EmitStep}, .checkpoint ∉ steps → Spaced steps
  | [], _ => .nil
  | s :: more, h => by
    have hs : s ≠ .checkpoint := fun he => h (he ▸ List.mem_cons_self)
    exact .plain hs (Spaced.of_plain fun hm => h (List.mem_cons_of_mem _ hm))

theorem Spaced.of_cons {s : EmitStep} {more : List EmitStep} (h : Spaced (s :: more)) :
    Spaced more := by
  cases h with
  | plain _ h => exact h
  | bytes _ h => exact .plain (by simp) h
  | refusal h => exact .plain (by simp) h

/-- **Between two checkpoints bytes are written**, if everything there can be. -/
theorem Spaced.length_lt {b : List EmitStep} : ∀ {a a' : List EmitStep},
    Spaced (a ++ .checkpoint :: (a' ++ .checkpoint :: b)) → Writable (a ++ .checkpoint :: a') →
      (imageBytes a).length < (imageBytes (a ++ .checkpoint :: a')).length
  | [], a', h, hw => by
    cases a' with
    | nil =>
      rw [List.nil_append, List.nil_append] at h
      cases h with
      | plain hs _ => exact absurd rfl hs
    | cons s a' =>
      rw [List.nil_append, List.cons_append] at h
      cases h with
      | plain hs _ => exact absurd rfl hs
      | @bytes bs _ hbs _ =>
        have hpos := List.length_pos_iff.mpr hbs
        simp only [imageBytes, List.nil_append, List.length_nil, List.length_append]
        omega
      | @refusal fault _ _ => exact absurd (by simp) (hw fault)
  | s :: a, a', h, hw => by
    have ih : (imageBytes a).length < (imageBytes (a ++ .checkpoint :: a')).length :=
      Spaced.length_lt h.of_cons hw.of_cons
    have hs : Writable [s] := fun fault hf => hw fault (by simp [List.mem_singleton.mp hf])
    have hbytes (r : List EmitStep) : imageBytes (s :: r) = imageBytes [s] ++ imageBytes r :=
      imageBytes_append hs
    rw [List.cons_append, hbytes a, hbytes (a ++ .checkpoint :: a'), List.length_append,
      List.length_append]
    omega

end EmitStep

namespace Compilation

variable {c : Compilation} {o : Outputs} {ws : Bool}

theorem spaced_blobSteps (bs : Bytes) : Spaced (.checkpoint :: blobSteps bs) := by
  unfold blobSteps blobChunks
  by_cases h : bs.length < wordBound
  · rw [if_pos h]
    have hlength : littleEndian 4 bs.length ≠ [] := by
      intro hnil
      have hlen := congrArg List.length hnil
      rw [length_littleEndian] at hlen
      cases hlen
    exact .bytes hlength (.of_plain (by simp))
  · rw [if_neg h]
    exact .refusal .nil

theorem spaced_plan (c : Compilation) (ws : Bool) : Spaced (c.plan ws) := by
  have hblob (bs : Bytes) : .checkpoint ∉ blobSteps bs := by
    unfold blobSteps
    split <;> simp
  have hcount (n : Nat) : .checkpoint ≠ countStep n := by
    unfold countStep
    split <;> simp
  have hbodies : ∀ bodies : List String,
      Spaced (bodies.flatMap fun body => .checkpoint :: blobSteps (Utf8.bytes body)) := by
    intro bodies
    induction bodies with
    | nil => exact .nil
    | cons body bodies ih =>
      rw [List.flatMap_cons]
      exact (spaced_blobSteps _).append ih
  have hsymbols : Spaced (c.symbolSteps ws) :=
    .of_plain (c.checkpoint_not_mem_symbolSteps ws)
  rw [plan_eq]
  unfold Image.steps ImageHeader.chunks
  refine Spaced.append ?_ hsymbols
  simp only [List.map_cons, List.map_nil, List.cons_append, List.nil_append, List.append_assoc]
  refine .bytes (by decide) (.plain (by simp) (.plain (by simp) (.plain (by simp) ?_)))
  refine Spaced.append (.of_plain (hblob _)) (.plain (hcount _).symm (hbodies _))

/-- **At whatever moment somebody cancels, a plan runs as it does into sinks that cancel at a
number of bytes**, or that were cancelled before: it has the same outcome and leaves the same. -/
theorem run_plan_whenever (c : Compilation) (ws : Bool) (hf : o.image.taken = [])
    (sets : Nat → Bool) :
    ∃ o' : Outputs, o'.stock = o.stock ∧
      (o'.run (c.plan ws)).1 = (o.runWhile sets 0 (c.plan ws)).1 ∧
      (o'.run (c.plan ws)).2.stock = (o.runWhile sets 0 (c.plan ws)).2.stock := by
  rcases Outputs.runWhile_cases sets 0 (c.plan ws) o.cancelsAt_calm o.stock_calm with
    ⟨hresult, hleft⟩ | ⟨a, b, o1, hab, ha, hresult, hleft⟩
  · exact ⟨o.calm, o.stock_calm, hresult, hleft⟩
  rw [hresult, ← hleft]
  cases a with
  | nil =>
    -- nothing was written in front of the first checkpoint
    obtain ⟨-, rfl⟩ := Prod.mk.inj ha
    exact ⟨{ o.calm with cancelled := true }, o.stock_calm, rfl, rfl⟩
  | cons s a =>
    obtain rfl : s = .checkpoint := by
      rw [plan_eq] at hab
      exact (List.cons.inj hab).1.symm
    have hspaced := c.spaced_plan ws
    rw [hab] at hspaced
    obtain ⟨w, -, htaken, hall⟩ := o.calm.run_image (.checkpoint :: a)
    rw [ha] at htaken hall
    obtain ⟨rfl, hwritable⟩ := hall rfl
    have hnone : o.calm.image.taken = [] := hf
    rw [hnone, List.nil_append] at htaken
    have hfew : ∀ a1 a2, .checkpoint :: a = a1 ++ .checkpoint :: a2 →
        (imageBytes a1).length < o1.image.taken.length := by
      intro a1 a2 hsplit
      rw [hsplit, List.append_assoc] at hspaced
      rw [htaken, hsplit]
      exact hspaced.length_lt (hsplit ▸ hwritable)
    have hat : (o.cancelling o1.image.taken.length).CancelsAt
        (some o1.image.taken.length) := by
      apply Outputs.cancelsAt_cancelling
      rw [hf]
      exact hfew [] a rfl
    have hbelow : ∀ a1 a2, .checkpoint :: a = a1 ++ .checkpoint :: a2 →
        o.image.taken.length + (imageBytes a1).length < o1.image.taken.length := by
      intro a1 a2 hsplit
      rw [hf, List.length_nil, Nat.zero_add]
      exact hfew a1 a2 hsplit
    have hsame : (o.cancelling o1.image.taken.length).stock = o.calm.stock :=
      (o.stock_cancelling _).trans o.stock_calm.symm
    obtain ⟨o2, hrun, hat', hstock⟩ :=
      Outputs.run_of_cancelsAt hat o.cancelsAt_calm hsame ha hbelow
    have hcancelled : o2.cancelled = true := by
      have himage : o2.image.taken = o1.image.taken := congrArg (fun x => x.1.1) hstock
      exact hat'.cancelled.mpr ⟨_, rfl, Nat.le_of_eq (congrArg List.length himage.symm)⟩
    refine ⟨o.cancelling o1.image.taken.length, o.stock_cancelling _, ?_, ?_⟩
    · rw [hab, Outputs.run_append, hrun]
      simp [Outputs.run, Outputs.step, hcancelled]
    · rw [hab, Outputs.run_append, hrun]
      simpa [Outputs.run, Outputs.step, hcancelled] using hstock

end Compilation

/-! ### Emissions that somebody else cancels -/

namespace Outputs

variable {o o' : Outputs}

theorem image_of_stock (h : o'.stock = o.stock) : o'.image.taken = o.image.taken :=
  congrArg (fun x => x.1.1) h

theorem symbolsTaken_of_stock (h : o'.stock = o.stock) : o'.symbolsTaken = o.symbolsTaken := by
  have htaken (x : Outputs) : x.symbolsTaken = (x.stock.2.map Prod.fst).getD [] := by
    unfold symbolsTaken stock
    rw [Option.map_map]
    rfl
  rw [htaken, htaken, h]

theorem undisturbed_of_stock (h : o'.stock = o.stock) : o'.undisturbed = o.undisturbed := by
  have hfresh (x : Outputs) : x.undisturbed = ⟨.unlimited, x.stock.2.map fun _ => .unlimited, false⟩ := by
    unfold undisturbed stock
    rw [Option.map_map]
    rfl
  rw [hfresh, hfresh, h]

end Outputs

theorem Compilation.writesSymbols_of_stock {o o' : Outputs} (c : Compilation)
    (h : o'.stock = o.stock) : c.writesSymbols o' = c.writesSymbols o := by
  rw [← c.writesSymbols_undisturbed, Outputs.undisturbed_of_stock h, c.writesSymbols_undisturbed]

namespace CompilationUnit

variable {u : CompilationUnit} {fs : FileTree} {o o' left left' : Outputs} {found : List Diagnostic}
  {result : Except CompilationError (List Diagnostic)}

/-- An emission during which somebody else may cancel: `sets n` says whether he has done so when
step number `n` of the plan is next. -/
def emitWhile (sets : Nat → Bool) (u : CompilationUnit) (fs : FileTree) (o : Outputs) :
    Except CompilationError (List Diagnostic) × Outputs :=
  match analyze fs u.compilation u.analyzers with
  | .error fault => (.error (.analyzer fault), o)
  | .ok found =>
    if hasErrors u.compilation.findings then
      (.error (.diagnostics (found ++ u.compilation.findings)), o)
    else
      let out := o.runWhile sets 0 (u.compilation.plan (u.compilation.writesSymbols o))
      (u.conclude found out.1, out.2)

/-- If nobody else cancels, this is an emission. -/
theorem emitWhile_never (u : CompilationUnit) (fs : FileTree) (o : Outputs) :
    u.emitWhile (fun _ => false) fs o = u.emit fs o := by
  unfold emitWhile
  rcases ha : analyze fs u.compilation u.analyzers with fault | found
  · rw [emit_of_fault ha]
  rcases hn : hasErrors u.compilation.findings with _ | _
  · rw [emit_of_run ha hn]
    simp only [Outputs.runWhile_never, Bool.false_eq_true, ↓reduceIte]
  · rw [emit_of_errors ha hn]
    rfl

/-- What an emission leaves does not depend on when its sinks cancel. -/
theorem LeavesPrefix.of_stock (h : u.LeavesPrefix fs o' result left') (ho : o'.stock = o.stock)
    (hleft : left'.stock = left.stock)
    (hc : o.cancelled → left.image.taken = [] ∧ left.symbolsTaken = []) :
    u.LeavesPrefix fs o result left := by
  have himage := Outputs.image_of_stock hleft
  have hsymbols := Outputs.symbolsTaken_of_stock hleft
  have hundisturbed := Outputs.undisturbed_of_stock ho
  have hwrites := u.compilation.writesSymbols_of_stock ho
  obtain ⟨h1, h2, h3, h4, h5, h6, h7, h8⟩ := h
  rw [himage, hundisturbed] at h1
  rw [hwrites, hundisturbed] at h3
  rw [himage, hsymbols] at h4
  rw [himage, hwrites] at h5 h7 h8
  rw [himage, hsymbols, hwrites] at h6
  rw [hsymbols] at h2
  refine ⟨h1, h2, h3, ?_, h5, h6, h7, h8⟩
  rintro (hfault | herrors | hcancelled)
  · exact h4 (.inl hfault)
  · exact h4 (.inr (.inl herrors))
  · exact hc hcancelled

/-- **Whatever stops an emission, the sinks hold an undisturbed emission cut short**, also if
somebody else cancels it, at whatever moment. -/
theorem emit_leavesPrefix (u : CompilationUnit) (fs : FileTree) (o : Outputs) (hf : o.IsFresh) :
    u.LeavesPrefix fs o (u.emit fs o).1 (u.emit fs o).2 ∧
      ∀ sets : Nat → Bool,
        u.LeavesPrefix fs o (u.emitWhile sets fs o).1 (u.emitWhile sets fs o).2 := by
  refine ⟨leavesPrefix_emit u fs o hf, fun sets => ?_⟩
  have hemit := leavesPrefix_emit u fs o hf
  unfold emitWhile
  rcases ha : analyze fs u.compilation u.analyzers with fault | found
  · rwa [emit_of_fault ha] at hemit
  rcases hn : hasErrors u.compilation.findings with _ | _
  · obtain ⟨o', ho, hresult, hleft⟩ := u.compilation.run_plan_whenever
      (u.compilation.writesSymbols o) hf.image sets
    have hfresh : o'.IsFresh := by
      refine ⟨?_, ?_⟩
      · rw [Outputs.image_of_stock ho, hf.image]
      · rw [Outputs.symbolsTaken_of_stock ho, hf.symbols]
    have hwrites := u.compilation.writesSymbols_of_stock ho
    have hother := leavesPrefix_emit u fs o' hfresh
    rw [emit_of_run ha hn, hwrites, hresult] at hother
    refine hother.of_stock ho hleft fun hc => ?_
    have hstops : (o.runWhile sets 0 (u.compilation.plan (u.compilation.writesSymbols o))).2 =
        { o with cancelled := o.cancelled || sets 0 } := by
      rw [Compilation.plan_eq, List.cons_append]
      simp [Outputs.runWhile, Outputs.step, hc]
    show (o.runWhile sets 0 _).2.image.taken = [] ∧ (o.runWhile sets 0 _).2.symbolsTaken = []
    rw [hstops]
    exact ⟨hf.image, hf.symbols⟩
  · rwa [emit_of_errors ha hn] at hemit

/-- A unit of one script with one method. -/
def sample : CompilationUnit where
  compilation := .create .standard [⟨"run.csx", "void M() { }"⟩] ⟨[], [], fun _ _ => none⟩
  analyzers := hostAnalyzers

/-- An emission into an image sink that takes twenty bytes and is cancelled behind ten. -/
theorem sample_leavesPrefix :
    Outputs.IsFresh ⟨⟨[], some 20, some 10⟩, some .unlimited, false⟩ ∧
      sample.LeavesPrefix .empty ⟨⟨[], some 20, some 10⟩, some .unlimited, false⟩
        (sample.emit .empty ⟨⟨[], some 20, some 10⟩, some .unlimited, false⟩).1
        (sample.emit .empty ⟨⟨[], some 20, some 10⟩, some .unlimited, false⟩).2 :=
  ⟨⟨rfl, rfl⟩, (emit_leavesPrefix sample .empty _ ⟨rfl, rfl⟩).1⟩

end CompilationUnit
end ScriptHost
