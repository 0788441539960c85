/-
# Structured data

Documents that hosts exchange are trees of lists and tables over texts, naturals and truth
values. A record is read from a table by the names of its fields, or from a list of them
in order; a choice is read from its name, or from a table with that name over an empty
value. What a format allows beyond that is one value of `Format`.

Key definitions: `Value`, `Format`, `Value.fields?`, `Value.choice?`.
-/
namespace ScriptHost.Data

/-- A tree of data. What no reader asks for (a number that is no natural, a string that is
no text) is `other`. A table keeps its entries in order; a name that is no text is `none`. -/
inductive Value where
  | null
  | bool (b : Bool)
  | natural (n : Nat)
  | text (s : String)
  | list (items : List Value)
  | table (entries : List (Option String × Value))
  | other
deriving Repr, Inhabited

/-- What a format leaves open: which values say nothing beside the name of a choice,
whether a list may go on behind the last field of a record, and whether entries that are
no field of a record are passed over. -/
structure Format where
  isEmptyChoice : Value → Bool
  passesOverItems : Bool
  passesOverEntries : Bool

namespace Value

/-- A table whose names are texts. -/
def ofEntries (entries : List (String × Value)) : Value :=
  table (entries.map fun (name, value) => (some name, value))

def text? : Value → Option String
  | text s => some s
  | _ => none

def bool? : Value → Option Bool
  | bool b => some b
  | _ => none

/-- A natural below `bound`. -/
def natural? (bound : Nat) : Value → Option Nat
  | natural n => if n < bound then some n else none
  | _ => none

def list? : Value → Option (List Value)
  | list items => some items
  | _ => none

/-- A list read item by item. -/
def listOf? {α : Type} (read : Value → Option α) (v : Value) : Option (List α) :=
  v.list?.bind (·.mapM read)

/-- The value of a field among the entries of a table; a field that stands twice is
refused. -/
def field? (entries : List (Option String × Value)) (name : String) : Option (Option Value) :=
  match entries.filter (·.1 == some name) with
  | [] => some none
  | [(_, value)] => some (some value)
  | _ :: _ :: _ => none

/-- The fields of a record, in the order of their names; `none` stands for a field that is
left out. -/
def fields? (format : Format) (names : List String) : Value → Option (List (Option Value))
  | table entries =>
    if entries.all fun (name, _) =>
        name.any fun n => format.passesOverEntries || names.contains n then
      names.mapM (field? entries)
    else none
  | list items =>
    if items.length ≤ names.length ∨ format.passesOverItems then
      some ((List.range names.length).map (items[·]?))
    else none
  | _ => none

/-- The name of a choice. -/
def choice? (format : Format) : Value → Option String
  | text name => some name
  | table [(some name, value)] => if format.isEmptyChoice value then some name else none
  | _ => none

end Value

end ScriptHost.Data
