/-
# Images are read back, and cut images are refused

What a reader was written for may be followed by anything, and if it is cut anywhere, even
in the middle of a number, the reader finds that the bytes end too early: the bytes are
*delimited* (`Delimits`). Two delimited runs of bytes in a row are delimited again, so it is
enough to look at the header, at a word, and at a run of bytes behind its length.

Key definitions: `ImageError.isUnexpectedEnd`, `Delimits`, `ImageHeader.known`.
Key theorems: `Delimits.bind`, `readBodies_delimits`, `Image.written_and_delimited`.
-/
import Mathlib.Algebra.Group.Nat.Defs
import ScriptHost.Proofs.Image.Layout
import ScriptHost.Proofs.Image.Manifest

namespace ScriptHost

/-- Whether an image is refused because its bytes end too early. -/
def ImageError.isUnexpectedEnd : ImageError → Bool
  | .truncated | .shortBlob _ _ => true
  | .badMagic _ | .unsupportedVersion _ | .invalidLevel _ | .invalidManifest | .invalidBody => false

/-- The reader takes exactly these bytes for `a`, whatever follows, and finds them too short
if anything is missing at their end. -/
structure Delimits {α : Type} (read : Bytes → Except ImageError (α × Bytes)) (bs : Bytes) (a : α) :
    Prop where
  whole : ∀ tail, read (bs ++ tail) = .ok (a, tail)
  cut : ∀ p, p <+: bs → p ≠ bs → ∃ e, read p = .error e ∧ e.isUnexpectedEnd

namespace Delimits

variable {α β : Type} {bs cs : Bytes} {a : α} {b : β}

theorem nil (a : α) : Delimits (fun bs => .ok (a, bs)) [] a where
  whole _ := rfl
  cut _ hp hne := absurd (List.prefix_nil.mp hp) hne

/-- **What is delimited piece by piece is delimited.** -/
theorem bind {read : Bytes → Except ImageError (α × Bytes)}
    (next : α → Bytes → Except ImageError (β × Bytes)) (h : Delimits read bs a)
    (hn : Delimits (next a) cs b) :
    Delimits (fun x => read x >>= fun (a, rest) => next a rest) (bs ++ cs) b where
  whole tail := by
    rw [List.append_assoc, h.whole]
    exact hn.whole tail
  cut p hp hne := by
    by_cases hfirst : p <+: bs ∧ p ≠ bs
    · obtain ⟨e, he, hend⟩ := h.cut p hfirst.1 hfirst.2
      exact ⟨e, by rw [he]; rfl, hend⟩
    · have hbs : bs <+: p := by
        rcases List.prefix_or_prefix_of_prefix hp (List.prefix_append bs cs) with h1 | h1
        · rcases Decidable.em (p = bs) with rfl | h2
          · exact List.prefix_rfl
          · exact absurd ⟨h1, h2⟩ hfirst
        · exact h1
      obtain ⟨q, rfl⟩ := hbs
      have hq : q <+: cs := (List.prefix_append_right_inj bs).mp hp
      obtain ⟨e, he, hend⟩ := hn.cut q hq fun hc => hne (by rw [hc])
      exact ⟨e, by rw [h.whole]; exact he, hend⟩

/-- A reader that only renames what it read. -/
theorem map {read : Bytes → Except ImageError (α × Bytes)} (f : α → β) (h : Delimits read bs a) :
    Delimits (fun x => do let (a, rest) ← read x; pure (f a, rest)) bs (f a) := by
  rw [← List.append_nil bs]
  exact bind (fun a rest => .ok (f a, rest)) h (nil (f a))

end Delimits

/-! ### Numbers and runs of bytes -/

/-- A number that fits the width is read back. -/
theorem ofLittleEndian_littleEndian (width n : Nat) (h : n < 256 ^ width) :
    ofLittleEndian (littleEndian width n) = n := by
  induction width generalizing n with
  | zero => simp at h; simp [h, littleEndian, ofLittleEndian]
  | succ w ih =>
    have hd : n / 256 < 256 ^ w := by
      rw [Nat.pow_succ] at h
      exact Nat.div_lt_of_lt_mul (by omega)
    have hi := ih (n / 256) hd
    simp only [ofLittleEndian] at hi
    simp only [littleEndian, ofLittleEndian, List.foldr_cons, UInt8.toNat_ofNat', hi]
    omega

theorem takeExactly_append (bs tail : Bytes) : takeExactly bs.length (bs ++ tail) = some (bs, tail) := by
  simp [takeExactly]

theorem takeExactly_short {n : Nat} {bs : Bytes} (h : bs.length < n) : takeExactly n bs = none := by
  rw [takeExactly, if_neg (by omega)]

/-- A strict prefix is shorter. -/
theorem length_lt_of_prefix {p bs : Bytes} (hp : p <+: bs) (hne : p ≠ bs) : p.length < bs.length :=
  Nat.lt_of_le_of_ne hp.length_le fun h => hne (hp.eq_of_length h)

theorem readWord_delimits {n : Nat} (h : n < wordBound) :
    Delimits readWord (littleEndian 4 n) n where
  whole tail := by
    have ht := takeExactly_append (littleEndian 4 n) tail
    rw [length_littleEndian] at ht
    simp only [readWord, ht]
    rw [ofLittleEndian_littleEndian 4 n h]
  cut p hp hne := by
    have hlt := length_lt_of_prefix hp hne
    rw [length_littleEndian] at hlt
    exact ⟨.truncated, by simp [readWord, takeExactly_short hlt], rfl⟩

/-- So many bytes behind their length, and those behind them. -/
def readSized (size : Nat) (rest : Bytes) : Except ImageError (Bytes × Bytes) :=
  match takeExactly size rest with
  | some found => pure found
  | none => throw (.shortBlob size rest.length)

theorem readBlob_delimits {bs : Bytes} (h : bs.length < wordBound) :
    Delimits readBlob (blob bs) bs := by
  refine .bind readSized (readWord_delimits h) ⟨fun tail => ?_, fun p hp hne => ?_⟩
  · simp only [readSized, takeExactly_append]
    rfl
  · have hlt := length_lt_of_prefix hp hne
    refine ⟨.shortBlob bs.length p.length, ?_, rfl⟩
    simp only [readSized, takeExactly_short hlt]
    rfl

/-- The body whose bytes were found, and `n` more behind it. -/
def readBodiesBehind (n : Nat) (found rest : Bytes) : Except ImageError (List String × Bytes) :=
  match Utf8.string? found with
  | none => throw .invalidBody
  | some body => do
    let (bodies, rest) ← readBodies n rest
    pure (body :: bodies, rest)

/-- **Bodies are delimited**, by induction on their number: each behind its length. -/
theorem readBodies_delimits : ∀ {bodies : List String},
    (∀ body ∈ bodies, (Utf8.bytes body).length < wordBound) →
      Delimits (readBodies bodies.length) (bodies.flatMap fun body => blob (Utf8.bytes body)) bodies
  | [], _ => .nil []
  | body :: bodies, h => by
    obtain ⟨hb, hbs⟩ := List.forall_mem_cons.mp h
    rw [List.flatMap_cons]
    refine .bind (readBodiesBehind bodies.length) (readBlob_delimits hb) ?_
    unfold readBodiesBehind
    simp only [Utf8.string?_bytes]
    exact (readBodies_delimits hbs).map (body :: ·)

/-! ### The header -/

namespace ImageHeader

/-- The header without the flags that mean nothing. -/
def known (h : ImageHeader) : ImageHeader := { h with flags := .ofByte h.flags.bits }

/-- A header whose flags all mean something. -/
theorem known_of_flags {h : ImageHeader} (hf : h.flags.bits &&& 7 = h.flags.bits) : h.known = h := by
  simp [known, ImageFlags.ofByte, hf]

theorem read_of_short {bs : Bytes} (h : bs.length < 16) : read bs = .error .truncated := by
  unfold read
  split
  · simp only [List.length_cons] at h
    omega
  · rfl

theorem read_bytes (h : ImageHeader) (hv : h.version = imageVersion) (tail : Bytes) :
    read (h.bytes ++ tail) = .ok (h.known, tail) := by
  obtain ⟨version, level, flags, mvid⟩ := h
  obtain rfl : version = imageVersion := hv
  have hmagic : imageMagic = [0x46, 0x53, 0x49, 0x4D] := by decide
  have hmvid := ofLittleEndian_littleEndian 8 mvid.toNat mvid.toNat_lt
  simp only [littleEndian] at hmvid
  simp only [bytes, chunks, hmagic, littleEndian, List.flatten_cons, List.flatten_nil,
    List.cons_append, List.nil_append, read, hmvid, UInt64.ofNat_toNat, ne_eq, not_true_eq_false,
    ↓reduceIte, OptimizationLevel.ofCode?_code]
  rfl

theorem read_delimits (h : ImageHeader) (hv : h.version = imageVersion) :
    Delimits read h.bytes h.known where
  whole := h.read_bytes hv
  cut p hp hne := by
    have hlt := length_lt_of_prefix hp hne
    rw [length_bytes] at hlt
    exact ⟨.truncated, read_of_short hlt, rfl⟩

end ImageHeader

/-! ### Images -/

namespace Image

variable {i : Image}

/-! What is read behind a header, behind the bytes of a manifest, and behind the number of the
bodies. -/

def readBehindCount (header : ImageHeader) (manifest : Manifest) (count : Nat) (rest : Bytes) :
    Except ImageError (Image × Bytes) := do
  let (bodies, rest) ← readBodies count rest
  pure (⟨header, manifest, bodies⟩, rest)

def readBehindManifest (header : ImageHeader) (found rest : Bytes) :
    Except ImageError (Image × Bytes) :=
  match Manifest.ofBytes? found with
  | none => throw .invalidManifest
  | some manifest => do
    let (count, rest) ← readWord rest
    readBehindCount header manifest count rest

def readBehindHeader (header : ImageHeader) (rest : Bytes) : Except ImageError (Image × Bytes) := do
  let (found, rest) ← readBlob rest
  readBehindManifest header found rest

/-- An image is read from its layout, up to flags that mean nothing. -/
theorem read_delimits (hv : i.header.version = imageVersion) (hn : i.manifest.NumbersFit)
    (hf : i.Fits) : Delimits read i.layout { i with header := i.header.known } := by
  have hl : i.layout = i.header.bytes ++ (blob i.manifest.bytes ++ (littleEndian 4 i.bodies.length ++
      i.bodies.flatMap fun body => blob (Utf8.bytes body))) := by
    simp [layout, front]
  have hbodies := (readBodies_delimits hf.bodies).map fun bodies =>
    Image.mk i.header.known i.manifest bodies
  rw [hl]
  refine .bind readBehindHeader (i.header.read_delimits hv) ?_
  refine .bind (readBehindManifest i.header.known) (readBlob_delimits hf.manifest) ?_
  unfold readBehindManifest
  simp only [Manifest.ofBytes?_bytes _ hn]
  exact .bind (readBehindCount i.header.known i.manifest) (readWord_delimits hf.count) hbodies

/-- **The format delimits itself.** An image whose lengths fit is written in full to a sink
that takes everything. What was written is read back, whatever stands behind it, as the same
image up to flags that mean nothing; and if anything is missing at its end, the reader says
that the bytes end too early. -/
theorem written_and_delimited (hv : i.header.version = imageVersion)
    (hn : i.manifest.NumbersFit) (hf : i.Fits) :
    ∃ bs, i.bytes? = .ok bs ∧
      (∀ o : Outputs, o.IsUndisturbed →
        (o.run i.steps).1 = .ok () ∧ (o.run i.steps).2.image.taken = o.image.taken ++ bs) ∧
      Delimits read bs { i with header := i.header.known } ∧
      (i.header.flags.bits &&& 7 = i.header.flags.bits → Delimits read bs i) := by
  refine ⟨i.layout, bytes?_of_fits hf, fun o ho => ?_, read_delimits hv hn hf, fun hk => ?_⟩
  · obtain ⟨ht, hok⟩ := Outputs.run_undisturbed i.steps ho
    exact ⟨hok (writable_steps.mpr hf), by rw [ht, imageBytes_steps hf]⟩
  · have hd := read_delimits hv hn hf
    rwa [ImageHeader.known_of_flags hk] at hd

/-- A small image, with any flags. -/
def sample (flags : UInt8) : Image where
  header := ⟨imageVersion, .release, ⟨flags⟩, 0x0123456789abcdef⟩
  manifest := ⟨"a", "0123456789abcdef", [], [], "C", [⟨.method, "M", "Void M()", true, false, some 0⟩], []⟩
  bodies := ["{ }"]

theorem sample_numbersFit (flags : UInt8) : (sample flags).manifest.NumbersFit where
  members := by simp [sample, bodyNumberBound]
  statements := by simp [sample]

theorem sample_fits (flags : UInt8) : (sample flags).Fits := by
  have hfits : (sample 0).Fits := by decide +kernel
  exact ⟨hfits.manifest, hfits.count, hfits.bodies⟩

/-- The sample without debug symbols delimits itself. -/
theorem sample_delimited :
    ∃ bs, (sample 0).bytes? = .ok bs ∧ Delimits read bs (sample 0) :=
  have ⟨bs, hb, _, _, hd⟩ :=
    written_and_delimited (i := sample 0) rfl (sample_numbersFit 0) (sample_fits 0)
  ⟨bs, hb, hd (by decide)⟩

/-- The reader drops a flag that means nothing: such an image fits, and is not read back as
it was. -/
theorem unknown_flag_not_read_back :
    (sample 8).header.version = imageVersion ∧ (sample 8).manifest.NumbersFit ∧ (sample 8).Fits ∧
      ∃ bs, (sample 8).bytes? = .ok bs ∧ read bs ≠ .ok (sample 8, []) := by
  refine ⟨rfl, sample_numbersFit 8, sample_fits 8, _, bytes?_of_fits (sample_fits 8), fun h => ?_⟩
  have hr := (read_delimits rfl (sample_numbersFit 8) (sample_fits 8)).whole []
  rw [List.append_nil, h] at hr
  have hf : (sample 8).header = (sample 8).header.known :=
    congrArg (fun r => r.1.header) (Except.ok.inj hr)
  exact absurd hf (by decide)

end Image
end ScriptHost
