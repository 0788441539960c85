/-
# Building the tables of a TOML document

A document is a sequence of entries and headers. A table can be opened by one header only;
tables on the way to it come into being, and such a table may be opened later. A table
that came into being through a dotted key can be extended by dotted keys of the same
section, and headers may open tables in it. What was written as a value is closed.

Key definitions: `TableOrigin`, `Node`, `Entries.insert?`, `Entries.place?`, `Section`,
`Entries.ofSections?`.
-/
import ScriptHost.Data.Value

namespace ScriptHost.Data.Toml

/-- How a table came into being: by its own header, on the way to the table of another
header, or by a dotted key. -/
inductive TableOrigin where
  | header
  | onTheWay
  | dottedKey
deriving DecidableEq, Repr

/-- What stands behind a key: a value, a table, or the tables of `[[...]]` headers. -/
inductive Node where
  | value (v : Value)
  | table (origin : TableOrigin) (entries : List (String × Node))
  | tables (items : List (List (String × Node)))
deriving Repr, Inhabited

abbrev Entries := List (String × Node)

mutual
/-- The value of a node. -/
def Node.toValue : Node → Value
  | .value v => v
  | .table _ entries => .table (entryValues entries)
  | .tables items => .list (tableValues items)

/-- The values behind the keys of a table. -/
def entryValues : List (String × Node) → List (Option String × Value)
  | [] => []
  | (key, node) :: more => (some key, node.toValue) :: entryValues more

/-- The values of tables. -/
def tableValues : List (List (String × Node)) → List Value
  | [] => []
  | entries :: more => .table (entryValues entries) :: tableValues more
end

namespace Entries

/-- The entries with another node behind a key, which is put last if it is new. -/
def set (entries : Entries) (key : String) (node : Node) : Entries :=
  if entries.any (·.1 == key) then
    entries.map fun (k, old) => if k == key then (k, node) else (k, old)
  else entries ++ [(key, node)]

/-- The entries with a value behind a dotted key. The table that it is put into must have come
into being through dotted keys; on the way there the key may also pass a table that was
made on the way to a header's, and the last table of `[[...]]` headers. -/
def insert? (entries : Entries) : List String → Value → Option Entries
  | [], _ => none
  | [key], v => if entries.any (·.1 == key) then none else some (entries ++ [(key, .value v)])
  | key :: next :: path, v =>
    match entries.lookup key with
    | none => (insert? [] (next :: path) v).map fun sub => entries.set key (.table .dottedKey sub)
    | some (.table .dottedKey sub) =>
      (insert? sub (next :: path) v).map fun sub => entries.set key (.table .dottedKey sub)
    | some (.table .onTheWay sub) =>
      if path = [] then none
      else (insert? sub (next :: path) v).map fun sub => entries.set key (.table .onTheWay sub)
    | some (.tables items) =>
      match items.getLast? with
      | none => none
      | some last =>
        if path = [] then none
        else
          (insert? last (next :: path) v).map fun sub =>
            entries.set key (.tables (items.dropLast ++ [sub]))
    | some (.table .header _) | some (.value _) => none

/-- The entries with values behind dotted keys. -/
def insertAll? (entries : Entries) (values : List (List String × Value)) : Option Entries :=
  values.foldlM (fun entries (path, v) => insert? entries path v) entries

/-- The entries after `change` was made to what stands at a path from them. Of the tables of
`[[...]]` headers the path goes through the last. -/
def place? (change : Option Node → Option Node) (entries : Entries) : List String → Option Entries
  | [] => none
  | [key] => (change (entries.lookup key)).map fun node => entries.set key node
  | key :: next :: path =>
    match entries.lookup key with
    | none =>
      (place? change [] (next :: path)).map fun sub => entries.set key (.table .onTheWay sub)
    | some (.table origin sub) =>
      (place? change sub (next :: path)).map fun sub => entries.set key (.table origin sub)
    | some (.tables items) =>
      match items.getLast? with
      | none => none
      | some last =>
        (place? change last (next :: path)).map fun sub =>
          entries.set key (.tables (items.dropLast ++ [sub]))
    | some (.value _) => none

end Entries

/-- A header and the values behind it. -/
structure Section where
  path : List String
  isItem : Bool
  values : List (List String × Value)
deriving Repr, Inhabited

/-- What the section makes of what stands at its path. -/
def Section.change (s : Section) (old : Option Node) : Option Node :=
  match s.isItem, old with
  | false, none => (Entries.insertAll? [] s.values).map (.table .header ·)
  | false, some (.table .onTheWay sub) => (Entries.insertAll? sub s.values).map (.table .header ·)
  | true, none => (Entries.insertAll? [] s.values).map (.tables [·])
  | true, some (.tables items) =>
    (Entries.insertAll? [] s.values).map fun entries => .tables (items ++ [entries])
  | _, _ => none

/-- The entries of a document: the values in front of the first header, and the sections. -/
def Entries.ofSections? (values : List (List String × Value)) (sections : List Section) :
    Option Entries := do
  let root ← Entries.insertAll? [] values
  sections.foldlM (fun entries s => Entries.place? s.change entries s.path) root

end ScriptHost.Data.Toml
