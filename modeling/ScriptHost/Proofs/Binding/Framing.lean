/-
# What the identity of an assembly tells apart

The number that stands for the contents of an assembly is the digest of its sources' paths and
texts with a zero byte behind each. The zero bytes cut these bytes into fields, and the fields
are all that the bytes tell: two lists of sources have the same bytes exactly if they have the
same fields. A path holds no NUL. So where no text holds one either, or where there is only one
source, different sources have different bytes, and only the digest can confuse them. A text
with NULs, however, can stand for several sources.

Key definitions: `SourceText.framed`, `SourceText.fields`, `Digest.Collide`.
Key theorems: `splitOn_framed`, `framing_eq_iff`, `framing_ne`, `nul_text_not_told_apart`.
-/
import ScriptHost.Binding.Compilation
import ScriptHost.Proofs.Bytes.Utf8

namespace ScriptHost

/-! ### Bytes and characters -/

theorem Utf8.encode_inj {a b : List Char} : encode a = encode b ↔ a = b := by
  constructor
  · intro h
    have hdecode := congrArg decode h
    rw [decode_encode, decode_encode] at hdecode
    exact Option.some.inj hdecode
  · intro h
    rw [h]

namespace SourceText

/-- The characters that stand for a source: its path and its text, with a NUL behind each. -/
def framed (s : SourceText) : List Char :=
  s.path.toList ++ '\x00' :: (s.text.toList ++ ['\x00'])

/-- What stands between the NULs. -/
def fields (s : SourceText) : List (List Char) :=
  s.path.toList.splitOn '\x00' ++ s.text.toList.splitOn '\x00'

end SourceText

open SourceText

/-- The bytes of sources encode their characters. -/
theorem framing_eq_encode (sources : List SourceText) :
    framing sources = Utf8.encode (sources.flatMap framed) := by
  have hnul : Utf8.encode ['\x00'] = [0] := by decide
  induction sources with
  | nil => rfl
  | cons s more ih =>
    have hfirst : Utf8.encode s.framed =
        Utf8.bytes s.path ++ [0] ++ Utf8.bytes s.text ++ [0] := by
      rw [framed, Utf8.encode_append, ← List.singleton_append, Utf8.encode_append,
        Utf8.encode_append, hnul]
      simp only [Utf8.bytes, List.append_assoc]
    rw [List.flatMap_cons, Utf8.encode_append, ← ih, hfirst]
    rfl

/-! ### Fields -/

/-- **The NULs cut the characters of sources into their fields**, with nothing behind the last. -/
theorem splitOn_framed : ∀ sources : List SourceText,
    (sources.flatMap framed).splitOn '\x00' = sources.flatMap fields ++ [[]]
  | [] => rfl
  | s :: more => by
    have hall : (s :: more).flatMap framed =
        s.path.toList ++ '\x00' :: (s.text.toList ++ '\x00' :: more.flatMap framed) := by
      simp only [List.flatMap_cons, framed, List.append_assoc, List.cons_append, List.nil_append]
    rw [hall, List.splitOn_append_cons_self, List.splitOn_append_cons_self, splitOn_framed more,
      List.flatMap_cons, fields]
    simp only [List.append_assoc]

/-- **Sources have the same bytes exactly if they have the same fields.** -/
theorem framing_eq_iff {a b : List SourceText} :
    framing a = framing b ↔ a.flatMap fields = b.flatMap fields := by
  rw [framing_eq_encode, framing_eq_encode, Utf8.encode_inj]
  constructor
  · intro h
    have hsplit := congrArg (List.splitOn '\x00') h
    rw [splitOn_framed, splitOn_framed] at hsplit
    exact List.append_cancel_right hsplit
  · intro h
    calc a.flatMap framed
        = ['\x00'].intercalate ((a.flatMap framed).splitOn '\x00') :=
          (List.intercalate_splitOn '\x00').symm
      _ = ['\x00'].intercalate ((b.flatMap framed).splitOn '\x00') := by
          rw [splitOn_framed, splitOn_framed, h]
      _ = b.flatMap framed := List.intercalate_splitOn '\x00'

/-- A text without a NUL is one field. -/
theorem splitOn_of_not_mem {cs : List Char} (h : '\x00' ∉ cs) : cs.splitOn '\x00' = [cs] := by
  have hone : (['\x00'].intercalate [cs]).splitOn '\x00' = [cs] :=
    List.splitOn_intercalate '\x00' (List.forall_mem_singleton.mpr h) (List.cons_ne_nil cs [])
  rwa [List.intercalate_singleton] at hone

theorem splitOn_inj {a b : List Char} (h : a.splitOn '\x00' = b.splitOn '\x00') : a = b := by
  have hjoin := congrArg ['\x00'].intercalate h
  rwa [List.intercalate_splitOn, List.intercalate_splitOn] at hjoin

section

variable {s t : SourceText} {a b : List SourceText}

theorem fields_of_plain (hpath : '\x00' ∉ s.path.toList) (htext : '\x00' ∉ s.text.toList) :
    s.fields = [s.path.toList, s.text.toList] := by
  rw [fields, splitOn_of_not_mem hpath, splitOn_of_not_mem htext]
  rfl

theorem eq_of_lists (hpath : s.path.toList = t.path.toList) (htext : s.text.toList = t.text.toList) :
    s = t := by
  have hp := String.toList_inj.mp hpath
  have ht := String.toList_inj.mp htext
  cases s
  cases t
  rw [SourceText.mk.injEq]
  exact ⟨hp, ht⟩

/-- A single source is told by its fields, whatever its text holds. -/
theorem eq_of_fields (hs : '\x00' ∉ s.path.toList) (ht : '\x00' ∉ t.path.toList)
    (h : s.fields = t.fields) : s = t := by
  rw [fields, fields, splitOn_of_not_mem hs, splitOn_of_not_mem ht, List.singleton_append,
    List.singleton_append] at h
  obtain ⟨hpath, htext⟩ := List.cons.inj h
  exact eq_of_lists hpath (splitOn_inj htext)

/-- Without NULs, two fields each tell the sources, by induction on the sources. -/
theorem eq_of_flatMap_fields : ∀ {a b : List SourceText},
    (∀ s ∈ a, '\x00' ∉ s.path.toList ∧ '\x00' ∉ s.text.toList) →
      (∀ s ∈ b, '\x00' ∉ s.path.toList ∧ '\x00' ∉ s.text.toList) →
        a.flatMap fields = b.flatMap fields → a = b
  | [], [], _, _, _ => rfl
  | [], t :: b, _, hb, h => by
    obtain ⟨⟨hpath, htext⟩, -⟩ := List.forall_mem_cons.mp hb
    rw [List.flatMap_cons, fields_of_plain hpath htext] at h
    cases h
  | s :: a, [], ha, _, h => by
    obtain ⟨⟨hpath, htext⟩, -⟩ := List.forall_mem_cons.mp ha
    rw [List.flatMap_cons, fields_of_plain hpath htext] at h
    cases h
  | s :: a, t :: b, ha, hb, h => by
    obtain ⟨⟨hspath, hstext⟩, ha⟩ := List.forall_mem_cons.mp ha
    obtain ⟨⟨htpath, httext⟩, hb⟩ := List.forall_mem_cons.mp hb
    rw [List.flatMap_cons, List.flatMap_cons, fields_of_plain hspath hstext,
      fields_of_plain htpath httext] at h
    obtain ⟨hpath, h⟩ := List.cons.inj h
    obtain ⟨htext, hmore⟩ := List.cons.inj h
    rw [eq_of_lists hpath htext, eq_of_flatMap_fields ha hb hmore]

end

/-! ### Identities -/

/-- Different runs of bytes that the digest confuses. -/
def Digest.Collide (x y : Bytes) : Prop := x ≠ y ∧ xxh64 x = xxh64 y

/-- **What the identity of an assembly tells apart.** Lists of sources whose paths hold no NUL
have the same bytes exactly if they have the same fields. If no text holds a NUL, or if there is
one source in each list, different lists have different bytes, and their assemblies share a
number only where the digest confuses these. -/
theorem framing_ne {a b : List SourceText} (ha : ∀ s ∈ a, '\x00' ∉ s.path.toList)
    (hb : ∀ s ∈ b, '\x00' ∉ s.path.toList) :
    (framing a = framing b ↔ a.flatMap fields = b.flatMap fields) ∧
      ((∀ s ∈ a ++ b, '\x00' ∉ s.text.toList) ∨ (a.length = 1 ∧ b.length = 1) → a ≠ b →
        framing a ≠ framing b ∧
          ∀ (options options' : CompilationOptions) (source source' : ReferenceSource),
            (Compilation.create options a source).assembly.mvid =
                (Compilation.create options' b source').assembly.mvid →
              Digest.Collide (framing a) (framing b)) := by
  refine ⟨framing_eq_iff, fun hplain hne => ?_⟩
  have hbytes : framing a ≠ framing b := by
    intro h
    have hfields := framing_eq_iff.mp h
    rcases hplain with htexts | ⟨hone, hone'⟩
    · obtain ⟨hta, htb⟩ := List.forall_mem_append.mp htexts
      exact hne (eq_of_flatMap_fields (fun s hs => ⟨ha s hs, hta s hs⟩)
        (fun s hs => ⟨hb s hs, htb s hs⟩) hfields)
    · obtain ⟨s, rfl⟩ := List.length_eq_one_iff.mp hone
      obtain ⟨t, rfl⟩ := List.length_eq_one_iff.mp hone'
      rw [List.flatMap_singleton, List.flatMap_singleton] at hfields
      have hs := ha s (List.mem_singleton_self s)
      have ht := hb t (List.mem_singleton_self t)
      exact hne (congrArg (fun x => [x]) (eq_of_fields hs ht hfields))
  exact ⟨hbytes, fun _ _ _ _ hmvid => ⟨hbytes, hmvid⟩⟩

/-- Where a path ends and its text starts makes a difference. -/
theorem shifted_path_told_apart :
    (∀ s ∈ [SourceText.mk "a" "bc"], '\x00' ∉ s.path.toList) ∧
      (∀ s ∈ [SourceText.mk "ab" "c"], '\x00' ∉ s.path.toList) ∧
        framing [⟨"a", "bc"⟩] ≠ framing [⟨"ab", "c"⟩] := by
  have ha : ∀ s ∈ [SourceText.mk "a" "bc"], '\x00' ∉ s.path.toList := by decide
  have hb : ∀ s ∈ [SourceText.mk "ab" "c"], '\x00' ∉ s.path.toList := by decide
  exact ⟨ha, hb, ((framing_ne ha hb).2 (.inr ⟨rfl, rfl⟩) (by decide)).1⟩

/-- A comment with NULs in it. -/
def nulComment : List SourceText := [⟨"a.csx", "// \x00b.csx\x00"⟩]

/-- Two documents that have its bytes. -/
def nulSplit : List SourceText := [⟨"a.csx", "// "⟩, ⟨"b.csx", ""⟩]

/-- Different sources need not have different bytes: a text with NULs has those of several
sources. Nothing is wrong with either of them, and their assemblies have one identity. -/
theorem nul_text_not_told_apart :
    (¬ ∀ a b : List SourceText, (∀ s ∈ a ++ b, '\x00' ∉ s.path.toList) → a ≠ b →
        framing a ≠ framing b) ∧
      (Compilation.create .standard nulComment ⟨[], [], fun _ _ => none⟩).findings = [] ∧
      (Compilation.create .standard nulSplit ⟨[], [], fun _ _ => none⟩).findings = [] ∧
      Compilation.identityOf .standard nulComment = Compilation.identityOf .standard nulSplit := by
  have hpaths : ∀ s ∈ nulComment ++ nulSplit, '\x00' ∉ s.path.toList := by decide
  have hne : nulComment ≠ nulSplit := by decide
  have hbytes : framing nulComment = framing nulSplit := by decide
  refine ⟨fun h => h nulComment nulSplit hpaths hne hbytes, ?_, ?_, ?_⟩
  · decide +kernel
  · decide +kernel
  · unfold Compilation.identityOf fingerprint
    rw [hbytes]

end ScriptHost
