/-
# Manifests are read back

A manifest is stored as a record of JSON and read back as it was (`Manifest.ofBytes?_bytes`),
if its body numbers are machine words; a larger number is refused by the reader. Each record
of the manifest is read from the table that its fields were written to, and a list of records
is read item by item.

Key definitions: `Manifest.NumbersFit`.
Key theorems: `Manifest.ofValue?_value`, `Manifest.ofBytes?_bytes`,
`Manifest.length_assembly_le`.
-/
import ScriptHost.Image.Manifest
import ScriptHost.Proofs.Json.Values

namespace ScriptHost

open Data Json Value

/-- Items that are read back one by one are read back as a list. -/
theorem listOf?_map {α : Type} {write : α → Value} {read : Value → Option α} (xs : List α)
    (h : ∀ x ∈ xs, read (write x) = some x) : (Value.list (xs.map write)).listOf? read = some xs := by
  simp only [listOf?, list?, Option.bind_some]
  induction xs with
  | nil => rfl
  | cons x xs ih =>
    obtain ⟨hx, hxs⟩ := List.forall_mem_cons.mp h
    simp [List.mapM_cons, hx, ih hxs]

theorem hasText_list {α : Type} {write : α → Value} (xs : List α)
    (h : ∀ x ∈ xs, (write x).HasText) : (Value.list (xs.map write)).HasText := by
  simp only [HasText, allHaveText_iff, List.mem_map]
  rintro v ⟨x, hx, rfl⟩
  exact h x hx

namespace ManifestReference

theorem ofValue?_value (r : ManifestReference) : ofValue? r.value = some r := by
  simp [ofValue?, value, ofEntries, fields?, field?, recordFormat, Json.format, text?]

theorem hasText_value (r : ManifestReference) : r.value.HasText :=
  entriesHaveText_ofEntries _ (by simp [HasText])

end ManifestReference

namespace ManifestType

theorem ofValue?_value (t : ManifestType) : ofValue? t.value = some t := by
  simp [ofValue?, value, ofEntries, fields?, field?, recordFormat, Json.format, text?]

theorem hasText_value (t : ManifestType) : t.value.HasText :=
  entriesHaveText_ofEntries _ (by simp [HasText])

end ManifestType

namespace ManifestMember

theorem ofValue?_value (m : ManifestMember) (h : ∀ n, m.body? = some n → n < bodyNumberBound) :
    ofValue? m.value = some m := by
  obtain ⟨kind, name, signature, isPublic, isStatic, body?⟩ := m
  cases body? with
  | none =>
    simp [ofValue?, value, ofEntries, fields?, field?, recordFormat, Json.format, text?, bool?,
      choice?, body]
  | some n =>
    simp [ofValue?, value, ofEntries, fields?, field?, recordFormat, Json.format, text?, bool?,
      choice?, body, natural?, h n rfl]

theorem hasText_value (m : ManifestMember) : m.value.HasText := by
  refine entriesHaveText_ofEntries _ fun e he => ?_
  simp only [List.mem_append, List.mem_cons, List.not_mem_nil, or_false, Option.mem_toList,
    Option.map_eq_some_iff] at he
  rcases he with (rfl | rfl | rfl | rfl | rfl) | ⟨n, -, rfl⟩ <;> trivial

end ManifestMember

namespace Manifest

/-- The body numbers of a manifest are machine words. -/
structure NumbersFit (m : Manifest) : Prop where
  members : ∀ x ∈ m.members, ∀ n, x.body? = some n → n < bodyNumberBound
  statements : ∀ n ∈ m.statements, n < bodyNumberBound

theorem ofValue?_value (m : Manifest) (h : m.NumbersFit) : ofValue? m.value = some m := by
  have h1 := listOf?_map m.references fun r _ => r.ofValue?_value
  have h2 := listOf?_map m.types fun t _ => t.ofValue?_value
  have h3 := listOf?_map m.members fun x hx => x.ofValue?_value (h.members x hx)
  have h4 : (Value.list (m.statements.map .natural)).listOf? (·.natural? bodyNumberBound) =
      some m.statements :=
    listOf?_map m.statements fun n hn => by simp [natural?, h.statements n hn]
  simp [ofValue?, value, ofEntries, fields?, field?, recordFormat, Json.format, text?, h1, h2, h3, h4]

theorem hasText_value (m : Manifest) : m.value.HasText := by
  refine entriesHaveText_ofEntries _ fun e he => ?_
  simp only [List.mem_cons, List.not_mem_nil, or_false] at he
  rcases he with rfl | rfl | rfl | rfl | rfl | rfl | rfl
  · trivial
  · trivial
  · exact hasText_list _ fun r _ => r.hasText_value
  · exact hasText_list _ fun t _ => t.hasText_value
  · trivial
  · exact hasText_list _ fun x _ => x.hasText_value
  · exact hasText_list _ fun _ _ => trivial

/-- **A manifest is read back from its bytes.** -/
theorem ofBytes?_bytes (m : Manifest) (h : m.NumbersFit) : ofBytes? m.bytes = some m := by
  rw [ofBytes?, bytes, parse?_compact _ m.hasText_value]
  exact ofValue?_value m h

/-- The name of the assembly stands in the manifest, which is not shorter. -/
theorem length_assembly_le (m : Manifest) : (Utf8.bytes m.assembly).length ≤ m.bytes.length := by
  have hquoted := length_le_quoted m.assembly
  simp only [bytes, value, ofEntries, List.map_cons, compact, Utf8.bytes_append,
    List.length_append]
  omega

end Manifest
end ScriptHost
