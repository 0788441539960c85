/-
# The layout of an image

The bytes of an image, as one expression: a header, the manifest behind its length, the
number of bodies, and the bodies, each behind its length. `Image.cut` stops behind some of
the bodies, which is where a cancelled emission stops. An image has bytes if and only if all
its lengths are words of four bytes (`Image.bytes?_eq_ok`).

Key definitions: `blob`, `Image.Fits`, `Image.cut`, `Image.layout`.
Key theorems: `Image.bytes?_eq_ok`, `Image.imageBytes_steps`, `Image.writable_steps`,
`Image.checkpoint_of_steps`.
-/
import ScriptHost.Proofs.Bytes.Utf8
import ScriptHost.Proofs.Emission.Steps

namespace ScriptHost

/-- A run of bytes behind its length. -/
def blob (bs : Bytes) : Bytes := littleEndian 4 bs.length ++ bs

namespace Image

variable {i : Image}

/-- The lengths and the number of bodies are words of four bytes. -/
structure Fits (i : Image) : Prop where
  manifest : i.manifest.bytes.length < wordBound
  count : i.bodies.length < wordBound
  bodies : ∀ body ∈ i.bodies, (Utf8.bytes body).length < wordBound

/-- Lengths are the sizes of strings, which do not take their bytes apart. -/
theorem fits_iff : i.Fits ↔ i.manifest.value.compact.utf8ByteSize < wordBound ∧
    i.bodies.length < wordBound ∧ ∀ body ∈ i.bodies, body.utf8ByteSize < wordBound := by
  constructor
  · rintro ⟨hmanifest, hcount, hbodies⟩
    rw [Manifest.bytes, Utf8.length_bytes] at hmanifest
    simp only [Utf8.length_bytes] at hbodies
    exact ⟨hmanifest, hcount, hbodies⟩
  · rintro ⟨hmanifest, hcount, hbodies⟩
    rw [← Utf8.length_bytes, ← Manifest.bytes] at hmanifest
    simp only [← Utf8.length_bytes] at hbodies
    exact ⟨hmanifest, hcount, hbodies⟩

instance (i : Image) : Decidable i.Fits := decidable_of_iff' _ fits_iff

/-- What stands in front of the bodies. -/
def front (i : Image) : Bytes :=
  i.header.bytes ++ blob i.manifest.bytes ++ littleEndian 4 i.bodies.length

/-- An image cut behind its first `j` bodies. -/
def cut (i : Image) (j : Nat) : Bytes :=
  i.front ++ (i.bodies.take j).flatMap fun body => blob (Utf8.bytes body)

/-- All bytes of an image. -/
def layout (i : Image) : Bytes :=
  i.front ++ i.bodies.flatMap fun body => blob (Utf8.bytes body)

theorem cut_length (i : Image) : i.cut i.bodies.length = i.layout := by simp [cut, layout]

/-- An image with fewer bodies is a prefix of one with more. -/
theorem cut_isPrefix (i : Image) (j : Nat) : i.cut j <+: i.layout := by
  refine ⟨(i.bodies.drop j).flatMap fun body => blob (Utf8.bytes body), ?_⟩
  rw [cut, layout, List.append_assoc, ← List.flatMap_append, List.take_append_drop]

/-! ### The bytes that are written -/

theorem blobChunks_eq_ok {bs : Bytes} (h : bs.length < wordBound) :
    blobChunks bs = .ok [littleEndian 4 bs.length, bs] := if_pos h

theorem mapM_blobChunks : ∀ {bodies : List String},
    (∀ body ∈ bodies, (Utf8.bytes body).length < wordBound) →
      (bodies.mapM fun body => blobChunks (Utf8.bytes body)) = .ok (bodies.map fun body =>
        [littleEndian 4 (Utf8.bytes body).length, Utf8.bytes body])
  | [], _ => rfl
  | body :: bodies, h => by
    obtain ⟨hb, hbs⟩ := List.forall_mem_cons.mp h
    simp only [List.mapM_cons, blobChunks_eq_ok hb, mapM_blobChunks hbs]
    rfl

theorem length_lt_of_mapM : ∀ {bodies : List String} {chunks : List (List Bytes)},
    (bodies.mapM fun body => blobChunks (Utf8.bytes body)) = .ok chunks →
      ∀ body ∈ bodies, (Utf8.bytes body).length < wordBound
  | [], _, _ => fun _ h => absurd h List.not_mem_nil
  | body :: bodies, chunks, h => by
    simp only [List.mapM_cons, bind, Except.bind, pure, Except.pure] at h
    rcases hc : blobChunks (Utf8.bytes body) with e | c
    · simp [hc] at h
    rcases hm : bodies.mapM fun body => blobChunks (Utf8.bytes body) with e | cs
    · simp [hc, hm] at h
    refine List.forall_mem_cons.mpr ⟨?_, length_lt_of_mapM hm⟩
    simp only [blobChunks] at hc
    split at hc
    · assumption
    · cases hc

theorem bytes?_of_fits (h : i.Fits) : i.bytes? = .ok i.layout := by
  simp only [bytes?, mapM_blobChunks h.bodies, blobChunks_eq_ok h.manifest, countChunk, h.count,
    ↓reduceIte, bind, Except.bind, pure, Except.pure]
  simp [layout, front, blob, List.flatMap_def, Function.comp_def]

theorem fits_of_bytes? {bs : Bytes} (h : i.bytes? = .ok bs) : i.Fits := by
  simp only [bytes?, bind, Except.bind] at h
  rcases hm : blobChunks i.manifest.bytes with e | m
  · simp [hm] at h
  rcases hc : countChunk i.bodies.length with e | c
  · simp [hm, hc] at h
  rcases hb : i.bodies.mapM fun body => blobChunks (Utf8.bytes body) with e | b
  · simp [hm, hc, hb] at h
  refine ⟨?_, ?_, length_lt_of_mapM hb⟩
  · simp only [blobChunks] at hm
    split at hm
    · assumption
    · cases hm
  · simp only [countChunk] at hc
    split at hc
    · assumption
    · cases hc

/-- **An image has bytes if and only if its lengths fit**, and then these are its layout. -/
theorem bytes?_eq_ok {bs : Bytes} : i.bytes? = .ok bs ↔ i.Fits ∧ bs = i.layout := by
  constructor
  · intro h
    have hf := fits_of_bytes? h
    rw [bytes?_of_fits hf] at h
    exact ⟨hf, (Except.ok.inj h).symm⟩
  · rintro ⟨h, rfl⟩
    exact bytes?_of_fits h

/-! ### The steps that write it -/

open EmitStep

theorem blobSteps_of_fits {bs : Bytes} (h : bs.length < wordBound) :
    blobSteps bs = [.image (littleEndian 4 bs.length), .image bs] := by
  simp [blobSteps, blobChunks_eq_ok h]

theorem writable_blobSteps {bs : Bytes} : Writable (blobSteps bs) ↔ bs.length < wordBound := by
  by_cases h : bs.length < wordBound
  · simp [blobSteps_of_fits h, Writable, h]
  · simp [blobSteps, blobChunks, h, Writable]

theorem imageBytes_blobSteps {bs : Bytes} (h : bs.length < wordBound) :
    imageBytes (blobSteps bs) = blob bs := by
  simp [blobSteps_of_fits h, imageBytes, blob]

theorem writable_countStep {n : Nat} : Writable [countStep n] ↔ n < wordBound := by
  by_cases h : n < wordBound <;> simp [countStep, countChunk, h, Writable]

theorem imageBytes_countStep {n : Nat} (h : n < wordBound) :
    imageBytes [countStep n] = littleEndian 4 n := by
  simp [countStep, countChunk, h, imageBytes]

/-- The steps that write the header, the manifest and the number of bodies. -/
def frontSteps (i : Image) : List EmitStep :=
  i.header.chunks.map .image ++ blobSteps i.manifest.bytes ++ [countStep i.bodies.length]

/-- The steps that write bodies, each behind a checkpoint. -/
def bodySteps (bodies : List String) : List EmitStep :=
  bodies.flatMap fun body => .checkpoint :: blobSteps (Utf8.bytes body)

theorem steps_eq (i : Image) : i.steps = i.frontSteps ++ bodySteps i.bodies := rfl

theorem bodySteps_cons (body : String) (bodies : List String) :
    bodySteps (body :: bodies) = .checkpoint :: blobSteps (Utf8.bytes body) ++ bodySteps bodies := rfl

theorem writable_frontSteps :
    Writable i.frontSteps ↔ i.manifest.bytes.length < wordBound ∧ i.bodies.length < wordBound := by
  simp only [frontSteps, writable_append, writable_images, true_and, writable_blobSteps,
    writable_countStep]

theorem imageBytes_frontSteps (h : Writable i.frontSteps) : imageBytes i.frontSteps = i.front := by
  obtain ⟨hm, hc⟩ := writable_frontSteps.mp h
  obtain ⟨h1, -⟩ := writable_append.mp h
  rw [frontSteps, imageBytes_append h1, imageBytes_append (writable_images _),
    imageBytes_images, imageBytes_blobSteps hm, imageBytes_countStep hc]
  rfl

theorem writable_bodySteps : ∀ {bodies : List String},
    Writable (bodySteps bodies) ↔ ∀ body ∈ bodies, (Utf8.bytes body).length < wordBound
  | [] => by simp [bodySteps, Writable.nil]
  | body :: bodies => by
    have hcp : Writable [.checkpoint] := fun _ => by simp
    rw [bodySteps_cons, ← List.singleton_append, writable_append, writable_append,
      writable_blobSteps, writable_bodySteps, List.forall_mem_cons]
    exact ⟨fun h => ⟨h.1.2, h.2⟩, fun h => ⟨⟨hcp, h.1⟩, h.2⟩⟩

theorem imageBytes_bodySteps : ∀ {bodies : List String}, Writable (bodySteps bodies) →
    imageBytes (bodySteps bodies) = bodies.flatMap fun body => blob (Utf8.bytes body)
  | [], _ => rfl
  | body :: bodies, h => by
    rw [bodySteps_cons] at h ⊢
    obtain ⟨h1, h2⟩ := writable_append.mp h
    rw [imageBytes_append h1, imageBytes_bodySteps h2, imageBytes,
      imageBytes_blobSteps (writable_blobSteps.mp h1.of_cons), List.flatMap_cons]

/-- The steps of an image can be written if and only if its lengths fit. -/
theorem writable_steps : Writable i.steps ↔ i.Fits := by
  rw [steps_eq, writable_append, writable_frontSteps, writable_bodySteps]
  exact ⟨fun ⟨⟨hm, hc⟩, hb⟩ => ⟨hm, hc, hb⟩, fun ⟨hm, hc, hb⟩ => ⟨⟨hm, hc⟩, hb⟩⟩

/-- **The steps of an image write its layout.** -/
theorem imageBytes_steps (h : i.Fits) : imageBytes i.steps = i.layout := by
  have hw := writable_steps.mpr h
  rw [steps_eq] at hw ⊢
  obtain ⟨h1, h2⟩ := writable_append.mp hw
  rw [imageBytes_append h1, imageBytes_frontSteps h1, imageBytes_bodySteps h2, layout]

/-! ### Where an emission can be cancelled -/

theorem checkpoint_not_mem_blobSteps (bs : Bytes) : .checkpoint ∉ blobSteps bs := by
  unfold blobSteps
  split <;> simp

theorem checkpoint_not_mem_frontSteps (i : Image) : .checkpoint ∉ i.frontSteps := by
  simp only [frontSteps, List.mem_append, List.mem_map, not_or, List.mem_singleton]
  refine ⟨⟨?_, checkpoint_not_mem_blobSteps _⟩, fun h => ?_⟩
  · rintro ⟨bs, -, h⟩
    cases h
  · unfold countStep at h
    split at h <;> cases h

/-- An element that a list does not hold, behind it, stands in what follows the list. -/
theorem append_split_of_not_mem {α : Type} {x : α} {xs ys a b : List α} (hx : x ∉ xs)
    (h : xs ++ ys = a ++ x :: b) : ∃ c, a = xs ++ c ∧ ys = c ++ x :: b := by
  rcases List.append_eq_append_iff.mp h with ⟨c, ha, hy⟩ | ⟨c, ha, hy⟩
  · exact ⟨c, ha, hy⟩
  · cases c with
    | nil => exact ⟨[], by simpa using ha.symm, by simpa using hy.symm⟩
    | cons y c =>
      simp only [List.cons_append, List.cons.injEq] at hy
      exact absurd (ha ▸ List.mem_append_right _ (hy.1 ▸ List.mem_cons_self ..)) hx

/-- An element that a list does not hold, in front of it, stands in what comes before. -/
theorem append_split_of_not_mem_right {α : Type} {x : α} {xs ys a b : List α} (hx : x ∉ ys)
    (h : xs ++ ys = a ++ x :: b) : ∃ d, xs = a ++ x :: d := by
  rcases List.append_eq_append_iff.mp h with ⟨d, rfl, hd⟩ | ⟨d, rfl, hd⟩
  · exact absurd (hd ▸ List.mem_append_right _ (List.mem_cons_self ..)) hx
  · cases d with
    | nil =>
      rw [List.nil_append] at hd
      exact absurd (hd ▸ List.mem_cons_self ..) hx
    | cons y d =>
      obtain ⟨rfl, -⟩ := List.cons.inj hd
      exact ⟨d, rfl⟩

/-- In front of a checkpoint among the bodies stand whole bodies. -/
theorem checkpoint_of_bodySteps : ∀ {bodies : List String} {a b : List EmitStep},
    bodySteps bodies = a ++ .checkpoint :: b →
      ∃ j < bodies.length, a = bodySteps (bodies.take j)
  | [], a, b, h => by simp [bodySteps] at h
  | body :: bodies, a, b, h => by
    rw [bodySteps_cons, List.cons_append] at h
    rcases List.cons_eq_append_iff.mp h with ⟨rfl, -⟩ | ⟨a', rfl, ha⟩
    · exact ⟨0, by simp, rfl⟩
    · obtain ⟨c, rfl, hc⟩ := append_split_of_not_mem (checkpoint_not_mem_blobSteps _) ha
      obtain ⟨j, hj, rfl⟩ := checkpoint_of_bodySteps hc
      exact ⟨j + 1, by simpa using hj, by simp [bodySteps_cons]⟩

/-- **In front of a checkpoint of an image stand its front and whole bodies.** -/
theorem checkpoint_of_steps {a b : List EmitStep} (h : i.steps = a ++ .checkpoint :: b)
    (hw : Writable a) : ∃ j < i.bodies.length, imageBytes a = i.cut j := by
  rw [steps_eq] at h
  obtain ⟨c, rfl, hc⟩ := append_split_of_not_mem i.checkpoint_not_mem_frontSteps h
  obtain ⟨j, hj, rfl⟩ := checkpoint_of_bodySteps hc
  obtain ⟨h1, h2⟩ := writable_append.mp hw
  refine ⟨j, hj, ?_⟩
  rw [imageBytes_append h1, imageBytes_frontSteps h1, imageBytes_bodySteps h2, cut]

end Image
end ScriptHost
