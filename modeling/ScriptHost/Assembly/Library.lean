/-
# Finding the assemblies a script refers to

A reference that ends in `.dll` names a file: it is looked for next to the script and then
in the probing folders, and an absolute path stands for itself only. Any other reference
names a shared assembly, whatever the case of its letters; of two registered under one
name the later one counts.

Key definitions: `isFileReference`, `ReferenceSource`, `AssemblyLibrary`,
`AssemblyLibrary.resolve?`.
-/
import ScriptHost.Assembly.Catalog
import ScriptHost.Files.Tree

namespace ScriptHost

/-- Whether a reference names a file. -/
def isFileReference (reference : String) : Bool :=
  ".dll".toList.isSuffixOf reference.toLower.toList

/-- Where a compilation gets its assemblies from: those every script refers to, the
namespaces every script imports, and the assembly of a `#r` reference in a script of the
given folder. -/
structure ReferenceSource where
  defaultReferences : List AssemblyMetadata
  defaultImports : List String
  resolve? : String → Option String → Option AssemblyMetadata

/-- The assemblies every script refers to. -/
def defaultReferences : List AssemblyMetadata := [systemRuntime, systemNetHttp, functionsHost]

/-- The namespaces every script imports. -/
def defaultImports : List String :=
  ["System", "System.Collections.Generic", "System.IO", "System.Linq", "System.Net.Http",
    "System.Threading", "System.Threading.Tasks", "Microsoft.Azure.WebJobs",
    "Microsoft.Extensions.Logging"]

/-- The shared assemblies by their names in lower case, and the probing folders. -/
structure AssemblyLibrary where
  shared : List (String × AssemblyMetadata)
  probingPaths : List String
deriving Repr, Inhabited

namespace AssemblyLibrary

/-- The library in which an assembly can be referred to by its name. -/
def register (l : AssemblyLibrary) (a : AssemblyMetadata) : AssemblyLibrary :=
  let key := a.name.toLower
  { l with shared := (key, a) :: l.shared.filter (·.1 != key) }

/-- The library with one more folder, the last to be searched. -/
def addProbingPath (l : AssemblyLibrary) (path : String) : AssemblyLibrary :=
  { l with probingPaths := l.probingPaths ++ [path] }

/-- The four assemblies of the host. -/
def standard : AssemblyLibrary :=
  [systemRuntime, functionsHost, systemNetHttp, newtonsoftJson].foldl register ⟨[], []⟩

/-- The shared assembly of a name. -/
def shared? (l : AssemblyLibrary) (name : String) : Option AssemblyMetadata :=
  l.shared.lookup name.toLower

/-- The file of a reference. -/
def file? (l : AssemblyLibrary) (fs : FileTree) (reference : String) (base? : Option String) :
    Option String :=
  if Path.isAbsolute reference then
    if fs.isFile reference then some reference else none
  else
    ((base?.toList ++ l.probingPaths).map (Path.join · reference)).find? fs.isFile

/-- The assembly of a reference in a script of the folder `base?`. -/
def resolve? (l : AssemblyLibrary) (fs : FileTree) (reference : String) (base? : Option String) :
    Option AssemblyMetadata :=
  if isFileReference reference then (l.file? fs reference base?).map .ofFile
  else l.shared? reference

/-- The library over the files of a host. -/
def source (l : AssemblyLibrary) (fs : FileTree) : ReferenceSource :=
  ⟨defaultReferences, defaultImports, l.resolve? fs⟩

end AssemblyLibrary

end ScriptHost
