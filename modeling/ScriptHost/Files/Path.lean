/-
# Paths

A path is text; a slash separates its pieces and a leading slash makes it absolute. Empty
pieces and pieces `.` name nothing, except a `.` at the very front of a relative path. A
path keeps its text: its parent is the text in front of its last name.

Key definitions: `Path.isAbsolute`, `Path.parent?`, `Path.join`, `Path.fileName?`,
`Path.fileStem?`, `Path.extension?`.
-/
namespace ScriptHost.Path

/-- The pieces of a text between slashes. -/
def pieces : List Char → List (List Char)
  | [] => [[]]
  | c :: cs =>
    if c = '/' then [] :: pieces cs
    else match pieces cs with
      | p :: ps => (c :: p) :: ps
      | [] => [[c]]

/-- The text of pieces with slashes between them. -/
def unpieces (ps : List (List Char)) : List Char :=
  ['/'].intercalate ps

def isAbsolute (path : String) : Bool :=
  path.toList.head? == some '/'

/-- Whether a piece behind a slash names nothing. -/
def isIdle (piece : List Char) : Bool :=
  piece == [] || piece == ['.']

/-- The pieces without those at the end that name nothing. -/
def trimEnd (ps : List (List Char)) : List (List Char) :=
  (ps.reverse.dropWhile isIdle).reverse

/-- The front of a path, which always counts, and the pieces behind it, those at the end that
name nothing left out. The front is the root of an absolute path, or the first piece. -/
def frontAndNames (path : String) : List Char × List (List Char) :=
  match pieces path.toList with
  | front :: rest => (front, trimEnd rest)
  | [] => ([], [])

/-- The path in front of the last name; the root and the empty path have none. -/
def parent? (path : String) : Option String :=
  match frontAndNames path with
  | (front, []) => if front = [] then none else some ""
  | (front, names) =>
    let kept := trimEnd names.dropLast
    if front = [] ∧ kept = [] then some "/"
    else some (String.ofList (unpieces (front :: kept)))

/-- The last piece of a path, if it is a name. -/
def fileName? (path : String) : Option (List Char) :=
  let last :=
    match frontAndNames path with
    | (front, []) => if isIdle front then none else some front
    | (_, names) => names.getLast?
  last.filter (· != ['.', '.'])

/-- A name split at its last point, if there is one behind its first character. -/
def splitAtLastDot (name : List Char) : List Char × Option (List Char) :=
  let after := (name.reverse.takeWhile (· != '.')).reverse
  let before := (name.reverse.dropWhile (· != '.')).reverse.dropLast
  if before = [] then (name, none) else (before, some after)

/-- The name without its extension. -/
def fileStem? (path : String) : Option String :=
  (fileName? path).map fun name => String.ofList (splitAtLastDot name).1

/-- The part of the name behind its last point. -/
def extension? (path : String) : Option String :=
  (fileName? path).bind fun name => (splitAtLastDot name).2.map String.ofList

/-- The path `path` as seen from the folder `base`. -/
def join (base path : String) : String :=
  if isAbsolute path || base.isEmpty then path
  else if base.toList.getLast? = some '/' then base ++ path
  else base ++ "/" ++ path

/-- The folder of a file, if its path names one. -/
def folder? (path : String) : Option String :=
  (parent? path).filter (!·.isEmpty)

end ScriptHost.Path
