/-
# The index of a catalog

An index of the positions of a catalog's entries gives, for a name and a number of type
parameters, the positions at which an entry has them, in order. So what is found through the
index of a catalog is what a search of the whole catalog finds: the entries of that name and
number, in the order of the catalog and as often as they are in it.

Key definitions: `TypeDefinition.key`, `AssemblyMetadata.IsIndexed`, `ReferenceSource.IsIndexed`.
Key theorems: `TypeIndex.positions_insert`, `TypeIndex.positions_ofTypes`,
`AssemblyMetadata.find_eq_filter`, `AssemblyMetadata.find_ofCatalog`.
-/
import Mathlib.Data.List.Basic
import ScriptHost.Assembly.Library

namespace ScriptHost

theorem mem_of_lookup_eq_some {α β : Type} [BEq α] [LawfulBEq α] {key : α} {value : β}
    {entries : List (α × β)} (h : entries.lookup key = some value) : (key, value) ∈ entries := by
  obtain ⟨front, back, rfl, -⟩ := List.lookup_eq_some_iff.mp h
  exact List.mem_append_right _ List.mem_cons_self

/-- What a definition is found by. -/
def TypeDefinition.key (d : TypeDefinition) : String × Nat := (d.name, d.arity)

namespace TypeIndex

theorem positions_cons (entry : (String × Nat) × List Nat) (index : TypeIndex)
    (key : String × Nat) :
    positions (entry :: index) key = if entry.1 = key then entry.2 else positions index key := by
  unfold positions
  by_cases h : entry.1 = key
  · rw [if_pos h, List.lookup_cons, beq_iff_eq.mpr h.symm]
    rfl
  · rw [if_neg h, List.lookup_cons, beq_eq_false_iff_ne.mpr fun heq => h heq.symm]

/-- A position is put behind those of its key, and the other keys keep theirs. -/
theorem positions_insert (key other : String × Nat) (i : Nat) : ∀ index : TypeIndex,
    positions (index.insert key i) other =
      if key = other then positions index other ++ [i] else positions index other
  | [] => by
    have hnone : positions [] other = [] := rfl
    rw [insert, positions_cons, hnone, List.nil_append]
  | (found, positions') :: index => by
    unfold insert
    by_cases hfound : found = key
    · rw [if_pos hfound, positions_cons, positions_cons, hfound]
      by_cases hother : key = other
      · rw [if_pos hother, if_pos hother, if_pos hother]
      · rw [if_neg hother, if_neg hother, if_neg hother]
    · rw [if_neg hfound, positions_cons, positions_cons, positions_insert key other i index]
      by_cases hother : key = other
      · have hne : found ≠ other := fun h => hfound (h.trans hother.symm)
        rw [if_neg hne, if_neg hne]
      · rw [if_neg hother, if_neg hother]

/-- Entries that are put into an index, by induction on them. -/
theorem positions_foldl (key : String × Nat) : ∀ (entries : List (TypeDefinition × Nat))
    (index : TypeIndex),
    positions (entries.foldl (fun index entry => index.insert entry.1.key entry.2) index) key =
      positions index key ++ (entries.filter (·.1.key == key)).map (·.2)
  | [], index => (List.append_nil _).symm
  | entry :: entries, index => by
    rw [List.foldl_cons, positions_foldl key entries, positions_insert, List.filter_cons]
    by_cases h : entry.1.key = key
    · rw [if_pos h, if_pos (beq_iff_eq.mpr h), List.map_cons, List.append_assoc,
        List.singleton_append]
    · rw [if_neg h, if_neg fun heq => h (beq_iff_eq.mp heq)]

/-- **The positions of a key in the index of a catalog** are those of its entries. -/
theorem positions_ofTypes (types : List TypeDefinition) (key : String × Nat) :
    positions (ofTypes types) key = (types.zipIdx.filter (·.1.key == key)).map (·.2) :=
  positions_foldl key types.zipIdx []

/-- They are the positions at which the catalog has an entry of the key. -/
theorem mem_positions_ofTypes {types : List TypeDefinition} {key : String × Nat} {i : Nat} :
    i ∈ positions (ofTypes types) key ↔ ∃ d, types[i]? = some d ∧ d.key = key := by
  rw [positions_ofTypes, List.mem_map]
  constructor
  · rintro ⟨⟨d, i⟩, hd, rfl⟩
    obtain ⟨hentry, hkey⟩ := List.mem_filter.mp hd
    exact ⟨d, List.mk_mem_zipIdx_iff_getElem?.mp hentry, beq_iff_eq.mp hkey⟩
  · rintro ⟨d, hd, hkey⟩
    have hentry : (d, i) ∈ types.zipIdx := List.mk_mem_zipIdx_iff_getElem?.mpr hd
    exact ⟨(d, i), List.mem_filter.mpr ⟨hentry, beq_iff_eq.mpr hkey⟩, rfl⟩

/-- They go up, so no entry is given twice or before one that stands in front of it. -/
theorem pairwise_positions_ofTypes (types : List TypeDefinition) (key : String × Nat) :
    (positions (ofTypes types) key).Pairwise (· < ·) := by
  have hsublist : (positions (ofTypes types) key).Sublist (types.zipIdx.map (·.2)) := by
    rw [positions_ofTypes]
    exact List.filter_sublist.map _
  apply List.Pairwise.sublist hsublist
  rw [List.zipIdx_map_snd]
  exact List.pairwise_lt_range'

end TypeIndex

namespace AssemblyMetadata

/-- The index of the assembly is that of its types. -/
def IsIndexed (a : AssemblyMetadata) : Prop := a.index = .ofTypes a.types

theorem isIndexed_ofCatalog (name : String) (types : List TypeDefinition) :
    (ofCatalog name types).IsIndexed := rfl

theorem isIndexed_ofFile (path : String) : (ofFile path).IsIndexed := rfl

theorem getElem?_of_mem_zipIdx {types : List TypeDefinition} {key : String × Nat}
    {entry : TypeDefinition × Nat} (h : entry ∈ types.zipIdx.filter (·.1.key == key)) :
    types[entry.2]? = some entry.1 :=
  List.mk_mem_zipIdx_iff_getElem?.mp (List.mem_filter.mp h).1

/-- What is found are the entries of the key. -/
theorem find_eq_map {a : AssemblyMetadata} (h : a.IsIndexed) (name : String) (arity : Nat) :
    a.find name arity = (a.types.zipIdx.filter (·.1.key == (name, arity))).map (·.1) := by
  calc a.find name arity
      = (a.types.zipIdx.filter (·.1.key == (name, arity))).filterMap fun e => a.types[e.2]? := by
        rw [find, h, TypeIndex.positions_ofTypes, List.filterMap_map]
        rfl
    _ = (a.types.zipIdx.filter (·.1.key == (name, arity))).map (·.1) := by
        rw [List.filterMap_congr fun e he => getElem?_of_mem_zipIdx he, List.filterMap_eq_map']

/-- **What is found through the index is what a search of the catalog finds.** -/
theorem find_eq_filter {a : AssemblyMetadata} (h : a.IsIndexed) (name : String) (arity : Nat) :
    a.find name arity = a.types.filter (·.key == (name, arity)) := by
  calc a.find name arity
      = (a.types.zipIdx.map (·.1)).filter (·.key == (name, arity)) := by
        rw [find_eq_map h, List.filter_map]
        rfl
    _ = a.types.filter (·.key == (name, arity)) := by
        rw [List.zipIdx_map_fst]

/-- Every position that the index gives is one of the catalog, and none is passed over. -/
theorem map_find {a : AssemblyMetadata} (h : a.IsIndexed) (name : String) (arity : Nat) :
    (a.find name arity).map some = (a.index.positions (name, arity)).map (a.types[·]?) := by
  rw [find_eq_map h, h, TypeIndex.positions_ofTypes, List.map_map, List.map_map]
  apply List.map_congr_left
  intro entry hentry
  exact (getElem?_of_mem_zipIdx hentry).symm

/-- A name is known exactly if it is found with some number of type parameters. -/
theorem hasTypeNamed_iff {a : AssemblyMetadata} (h : a.IsIndexed) (name : String) :
    a.hasTypeNamed name ↔ ∃ arity, a.find name arity ≠ [] := by
  unfold hasTypeNamed
  rw [List.any_eq_true]
  constructor
  · rintro ⟨d, hd, hname⟩
    have hkey : d.key = (name, d.arity) := congrArg (·, d.arity) (beq_iff_eq.mp hname)
    have hmem : d ∈ a.find name d.arity := by
      rw [find_eq_filter h]
      exact List.mem_filter.mpr ⟨hd, beq_iff_eq.mpr hkey⟩
    exact ⟨d.arity, List.ne_nil_of_mem hmem⟩
  · rintro ⟨arity, hne⟩
    obtain ⟨d, hd⟩ := List.exists_mem_of_ne_nil _ hne
    rw [find_eq_filter h] at hd
    obtain ⟨hmem, hkey⟩ := List.mem_filter.mp hd
    exact ⟨d, hmem, beq_iff_eq.mpr (congrArg Prod.fst (beq_iff_eq.mp hkey))⟩

/-- **The index of a catalog agrees with a scan of it.** The positions of a name and a number of type
parameters are those at which the catalog has such an entry, in order; what is found are the entries
at these positions, that is, all entries of that name and number, in order and as often as they are
there; and a name is known exactly if it is found with some number. -/
theorem find_ofCatalog (assembly name : String) (types : List TypeDefinition) (arity : Nat) :
    (∀ i, i ∈ (ofCatalog assembly types).index.positions (name, arity) ↔
      ∃ d, types[i]? = some d ∧ d.name = name ∧ d.arity = arity) ∧
    ((ofCatalog assembly types).index.positions (name, arity)).Pairwise (· < ·) ∧
    ((ofCatalog assembly types).find name arity).map some =
      ((ofCatalog assembly types).index.positions (name, arity)).map (types[·]?) ∧
    (ofCatalog assembly types).find name arity =
      types.filter (fun d => d.name = name ∧ d.arity = arity) ∧
    ((ofCatalog assembly types).hasTypeNamed name ↔
      ∃ k, (ofCatalog assembly types).find name k ≠ []) := by
  have h := isIndexed_ofCatalog assembly types
  refine ⟨fun i => ?_, TypeIndex.pairwise_positions_ofTypes types _, map_find h name arity, ?_,
    hasTypeNamed_iff h name⟩
  · show i ∈ (TypeIndex.ofTypes types).positions (name, arity) ↔ _
    rw [TypeIndex.mem_positions_ofTypes]
    refine exists_congr fun d => and_congr_right fun _ => ?_
    exact Prod.ext_iff
  · rw [find_eq_filter h]
    apply List.filter_congr
    intro d _
    apply Bool.eq_iff_iff.mpr
    rw [beq_iff_eq, decide_eq_true_iff]
    exact Prod.ext_iff

theorem name_of_mem_find {a : AssemblyMetadata} (h : a.IsIndexed) {name : String} {arity : Nat}
    {d : TypeDefinition} (hd : d ∈ a.find name arity) : d.name = name := by
  rw [find_eq_filter h] at hd
  exact congrArg Prod.fst (beq_iff_eq.mp (List.mem_filter.mp hd).2)

end AssemblyMetadata

/-! ### Libraries -/

/-- All assemblies that a script may refer to have the index of their types. -/
structure ReferenceSource.IsIndexed (source : ReferenceSource) : Prop where
  defaults : ∀ a ∈ source.defaultReferences, a.IsIndexed
  resolved : ∀ reference folder? a, source.resolve? reference folder? = some a → a.IsIndexed

/-- What a library resolves a reference to is a file, or an assembly that it was given. -/
theorem AssemblyLibrary.forall_resolve? {P : AssemblyMetadata → Prop} {l : AssemblyLibrary}
    (hfile : ∀ path, P (.ofFile path)) (hshared : ∀ e ∈ l.shared, P e.2) {fs : FileTree}
    {reference : String} {folder? : Option String} {a : AssemblyMetadata}
    (h : l.resolve? fs reference folder? = some a) : P a := by
  unfold resolve? at h
  split at h
  · obtain ⟨file, -, rfl⟩ := Option.map_eq_some_iff.mp h
    exact hfile file
  · exact hshared _ (mem_of_lookup_eq_some h)

theorem AssemblyLibrary.isIndexed_source {l : AssemblyLibrary} (fs : FileTree)
    (h : ∀ e ∈ l.shared, e.2.IsIndexed) : (l.source fs).IsIndexed where
  defaults := by
    show ∀ a ∈ [systemRuntime, systemNetHttp, functionsHost], a.IsIndexed
    simp [AssemblyMetadata.IsIndexed, systemRuntime, systemNetHttp, functionsHost,
      AssemblyMetadata.ofCatalog]
  resolved _ _ _ := forall_resolve? AssemblyMetadata.isIndexed_ofFile h

/-- What is registered under a name, or was before. -/
theorem AssemblyLibrary.mem_shared_register {l : AssemblyLibrary} {a : AssemblyMetadata}
    {e : String × AssemblyMetadata} (he : e ∈ (l.register a).shared) : e.2 = a ∨ e ∈ l.shared := by
  rcases List.mem_cons.mp he with rfl | he
  · exact .inl rfl
  · exact .inr (List.mem_filter.mp he).1

/-- The assemblies of the host are indexed. -/
theorem isIndexed_standard (fs : FileTree) : (AssemblyLibrary.standard.source fs).IsIndexed := by
  refine AssemblyLibrary.isIndexed_source fs ?_
  have hregister (l : AssemblyLibrary) (hl : ∀ e ∈ l.shared, e.2.IsIndexed) (name : String)
      (types : List TypeDefinition) : ∀ e ∈ (l.register (.ofCatalog name types)).shared,
        e.2.IsIndexed := by
    intro e he
    rcases AssemblyLibrary.mem_shared_register he with heq | he
    · rw [heq]
      exact AssemblyMetadata.isIndexed_ofCatalog name types
    · exact hl e he
  refine hregister _ (hregister _ (hregister _ (hregister _ ?_ _ _) _ _) _ _) _ _
  exact fun e he => absurd he List.not_mem_nil

end ScriptHost
