/-
# The files a host can see

A tree of folders and files under the root, and the working folder in it. A path is walked
piece by piece, an absolute one from the root, a relative one from the working folder: every
piece, also `.`, `..` and an empty one at the end, needs a folder to stand in, so `a/..`
exists only if the folder `a` does. The folder above the root is the root.

Key definitions: `FileTree`, `FileTree.locate`, `FileTree.isFile`, `FileTree.readText`.
-/
import ScriptHost.Bytes.Utf8
import ScriptHost.Files.Path

namespace ScriptHost

/-- Why a file cannot be used. -/
inductive FileFault where
  | notFound
  | notADirectory
  | isADirectory
  | invalidData
  | invalidInput
  | invalidFilename
deriving DecidableEq, Repr

/-- What a name in a folder stands for. -/
inductive FileNode where
  | file (content : Bytes)
  | folder
deriving DecidableEq, Repr

/-- The nodes by the names that lead to them from the root; of two entries the first counts.
The folders down to the working folder are there without an entry. -/
structure FileTree where
  workingFolder : List (List Char)
  nodes : List (List (List Char) × FileNode)
deriving DecidableEq, Repr, Inhabited

/-- Where a walk stands: in the folder that the names lead to from the root, or at a file. -/
inductive FileSpot where
  | folder (names : List (List Char))
  | file (content : Bytes)
deriving DecidableEq, Repr

namespace FileTree

/-- No more than the working folder `/work`. -/
def empty : FileTree := ⟨[['w', 'o', 'r', 'k']], []⟩

/-- The node that the names lead to. -/
def node? (fs : FileTree) (names : List (List Char)) : Option FileNode :=
  if names.isPrefixOf fs.workingFolder then some .folder else fs.nodes.lookup names

/-- A name of more than 255 bytes is none, in any folder. -/
def isTooLong (piece : List Char) : Bool := 255 < (Utf8.encode piece).length

/-- One piece of a path. -/
def walkPiece (fs : FileTree) (spot : FileSpot) (piece : List Char) : Except FileFault FileSpot :=
  match spot with
  | .file _ => .error .notADirectory
  | .folder names =>
    if Path.isIdle piece then .ok (.folder names)
    else if piece = ['.', '.'] then .ok (.folder names.dropLast)
    else if isTooLong piece then .error .invalidFilename
    else match fs.node? (names ++ [piece]) with
      | some .folder => .ok (.folder (names ++ [piece]))
      | some (.file content) => .ok (.file content)
      | none => .error .notFound

/-- The names that lead from the root to the folder where a path starts. -/
def startOf (fs : FileTree) (path : String) : List (List Char) :=
  if Path.isAbsolute path then [] else fs.workingFolder

/-- Where a path leads. A path is not empty, holds no NUL and has less than 4096 bytes. -/
def locate (fs : FileTree) (path : String) : Except FileFault FileSpot :=
  let cs := path.toList
  if cs.contains '\x00' then .error .invalidInput
  else if 4096 ≤ (Utf8.encode cs).length then .error .invalidFilename
  else if cs = [] then .error .notFound
  else (Path.pieces cs).foldlM fs.walkPiece (.folder (fs.startOf path))

/-- Whether the path leads to a file. -/
def isFile (fs : FileTree) (path : String) : Bool :=
  match fs.locate path with
  | .ok (.file _) => true
  | _ => false

/-- The text of a file. -/
def readText (fs : FileTree) (path : String) : Except FileFault String :=
  match fs.locate path with
  | .error e => .error e
  | .ok (.file content) =>
    match Utf8.string? content with
    | some text => .ok text
    | none => .error .invalidData
  | .ok _ => .error .isADirectory

/-- The tree with the folders that the names lead through. -/
def addFolders (fs : FileTree) (names : List (List Char)) : FileTree :=
  { fs with
    nodes := (List.range names.length).map (fun n => (names.take (n + 1), .folder)) ++ fs.nodes }

/-- The names of a path from the root. -/
def namesOf (fs : FileTree) (path : String) : List (List Char) :=
  (Path.pieces path.toList).foldl (fun names piece =>
    if Path.isIdle piece then names
    else if piece = ['.', '.'] then names.dropLast
    else names ++ [piece]) (fs.startOf path)

/-- The tree with a folder at the path, and the folders that lead there. -/
def addFolder (fs : FileTree) (path : String) : FileTree :=
  fs.addFolders (fs.namesOf path)

/-- The tree with a file at the path, and the folders that lead there. -/
def addFile (fs : FileTree) (path : String) (content : Bytes) : FileTree :=
  let names := fs.namesOf path
  let fs := fs.addFolders names.dropLast
  { fs with nodes := (names, .file content) :: fs.nodes }

/-- A created file stands at the very path, seen from the root or from the working folder. -/
example :
    let fs := empty.addFile "/srv/bin/Lib.dll" [65]
    (fs.readText "/srv/bin/../bin/Lib.dll").toOption = some "A" ∧
      fs.isFile "../srv/bin/Lib.dll" ∧ ¬ fs.isFile "srv/bin/Lib.dll" ∧ ¬ fs.isFile "/Lib.dll" := by
  decide +kernel

end FileTree

end ScriptHost
