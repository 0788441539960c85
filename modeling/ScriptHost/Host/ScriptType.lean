/-
# Types of function scripts

The extension of a file tells what it holds, whatever the case of its letters. Only one
type can be compiled here.

Key definitions: `ScriptType`, `ScriptType.ofExtension?`, `ScriptType.ofPath?`.
-/
import ScriptHost.Files.Path

namespace ScriptHost

/-- The language, or the packaging, of a script file. -/
inductive ScriptType where
  | csharp
  | fsharp
  | dotNetAssembly
  | javaScript
  | python
  | powerShell
deriving DecidableEq, Repr, Inhabited

namespace ScriptType

def all : List ScriptType :=
  [csharp, fsharp, dotNetAssembly, javaScript, python, powerShell]

/-- The extensions of the type's files, without the point. -/
def extensions : ScriptType → List String
  | csharp => ["csx"]
  | fsharp => ["fsx"]
  | dotNetAssembly => ["dll"]
  | javaScript => ["js", "mjs"]
  | python => ["py"]
  | powerShell => ["ps1", "psm1"]

def text : ScriptType → String
  | csharp => "CSharp"
  | fsharp => "FSharp"
  | dotNetAssembly => "DotNetAssembly"
  | javaScript => "JavaScript"
  | python => "Python"
  | powerShell => "PowerShell"

/-- The type of an extension, with or without points in front. -/
def ofExtension? (extension : String) : Option ScriptType :=
  let name := (String.ofList (extension.toList.dropWhile (· == '.'))).toLower
  all.find? (·.extensions.contains name)

/-- The type of a file. -/
def ofPath? (path : String) : Option ScriptType :=
  (Path.extension? path).bind ofExtension?

/-- The types that can be compiled. -/
def supported : List ScriptType := [csharp]

end ScriptType

end ScriptHost
