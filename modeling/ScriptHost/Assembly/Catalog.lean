/-
# The assemblies a host provides

The framework and the host come with the types that scripts usually name; a script sees
three of the four assemblies without asking. The words for predefined types stand for
framework types in the namespace `System`.

Key definitions: `systemRuntime`, `functionsHost`, `systemNetHttp`, `newtonsoftJson`,
`keywordType?`, `frameworkType`, `nullableOf`.
-/
import ScriptHost.Assembly.Basic

namespace ScriptHost

/-- Definitions of one namespace, each by name, arity and kind. -/
def inNamespace (name : String) (entries : List (String × Nat × TypeKind)) : List TypeDefinition :=
  entries.map fun (type, arity, kind) => ⟨name, type, arity, kind⟩

/-- The core framework, with `Func` of one to four and `Action` of up to three parameters. -/
def systemRuntimeTypes : List TypeDefinition :=
  inNamespace "System" [
    ("Object", 0, .classType), ("String", 0, .classType), ("Boolean", 0, .structType),
    ("Byte", 0, .structType), ("SByte", 0, .structType), ("Char", 0, .structType),
    ("Int16", 0, .structType), ("UInt16", 0, .structType), ("Int32", 0, .structType),
    ("UInt32", 0, .structType), ("Int64", 0, .structType), ("UInt64", 0, .structType),
    ("Single", 0, .structType), ("Double", 0, .structType), ("Decimal", 0, .structType),
    ("Void", 0, .structType), ("DateTime", 0, .structType), ("DateTimeOffset", 0, .structType),
    ("TimeSpan", 0, .structType), ("Guid", 0, .structType), ("Uri", 0, .classType),
    ("Exception", 0, .classType), ("Console", 0, .classType), ("Math", 0, .classType),
    ("Environment", 0, .classType), ("IDisposable", 0, .interfaceType),
    ("IEquatable", 1, .interfaceType), ("Nullable", 1, .structType), ("Lazy", 1, .classType)] ++
  inNamespace "System.Collections.Generic" [
    ("List", 1, .classType), ("IList", 1, .interfaceType), ("ICollection", 1, .interfaceType),
    ("IEnumerable", 1, .interfaceType), ("IReadOnlyList", 1, .interfaceType),
    ("HashSet", 1, .classType), ("Dictionary", 2, .classType), ("IDictionary", 2, .interfaceType),
    ("IReadOnlyDictionary", 2, .interfaceType), ("KeyValuePair", 2, .structType)] ++
  inNamespace "System.Linq" [
    ("Enumerable", 0, .classType)] ++
  inNamespace "System.Threading" [
    ("CancellationToken", 0, .structType)] ++
  inNamespace "System.Threading.Tasks" [
    ("Task", 0, .classType), ("Task", 1, .classType), ("ValueTask", 0, .structType),
    ("ValueTask", 1, .structType)] ++
  inNamespace "System.IO" [
    ("Stream", 0, .classType), ("TextReader", 0, .classType), ("File", 0, .classType)] ++
  inNamespace "System.Text" [
    ("StringBuilder", 0, .classType), ("Encoding", 0, .classType)] ++
  inNamespace "System" [
    ("Func", 1, .delegateType), ("Func", 2, .delegateType), ("Func", 3, .delegateType),
    ("Func", 4, .delegateType), ("Action", 0, .delegateType), ("Action", 1, .delegateType),
    ("Action", 2, .delegateType), ("Action", 3, .delegateType)]

/-- Logging, triggers and bindings. -/
def functionsHostTypes : List TypeDefinition :=
  inNamespace "Microsoft.Extensions.Logging" [
    ("ILogger", 0, .interfaceType), ("LogLevel", 0, .enumType)] ++
  inNamespace "Microsoft.AspNetCore.Http" [
    ("HttpRequest", 0, .classType)] ++
  inNamespace "Microsoft.AspNetCore.Mvc" [
    ("IActionResult", 0, .interfaceType), ("OkObjectResult", 0, .classType)] ++
  inNamespace "Microsoft.Azure.WebJobs" [
    ("TimerInfo", 0, .classType), ("ExecutionContext", 0, .classType),
    ("IAsyncCollector", 1, .interfaceType), ("ICollector", 1, .interfaceType),
    ("IBinder", 0, .interfaceType)]

/-- The HTTP client. -/
def systemNetHttpTypes : List TypeDefinition :=
  inNamespace "System.Net.Http" [
    ("HttpClient", 0, .classType), ("HttpRequestMessage", 0, .classType),
    ("HttpResponseMessage", 0, .classType), ("HttpMethod", 0, .classType),
    ("HttpContent", 0, .classType)] ++
  inNamespace "System.Net" [
    ("HttpStatusCode", 0, .enumType)]

/-- The JSON library. -/
def newtonsoftJsonTypes : List TypeDefinition :=
  inNamespace "Newtonsoft.Json" [
    ("JsonConvert", 0, .classType), ("JsonSerializer", 0, .classType),
    ("JsonPropertyAttribute", 0, .classType)] ++
  inNamespace "Newtonsoft.Json.Linq" [
    ("JObject", 0, .classType), ("JArray", 0, .classType), ("JToken", 0, .classType)]

def systemRuntime : AssemblyMetadata := .ofCatalog "System.Runtime" systemRuntimeTypes

def functionsHost : AssemblyMetadata := .ofCatalog "Functions.Host" functionsHostTypes

def systemNetHttp : AssemblyMetadata := .ofCatalog "System.Net.Http" systemNetHttpTypes

def newtonsoftJson : AssemblyMetadata := .ofCatalog "Newtonsoft.Json" newtonsoftJsonTypes

/-- The framework type in `System` that a predefined type word stands for. -/
def keywordType? : String → Option String
  | "object" | "dynamic" => some "Object"
  | "string" => some "String"
  | "bool" => some "Boolean"
  | "byte" => some "Byte"
  | "sbyte" => some "SByte"
  | "char" => some "Char"
  | "short" => some "Int16"
  | "ushort" => some "UInt16"
  | "int" => some "Int32"
  | "uint" => some "UInt32"
  | "long" => some "Int64"
  | "ulong" => some "UInt64"
  | "float" => some "Single"
  | "double" => some "Double"
  | "decimal" => some "Decimal"
  | "void" => some "Void"
  | _ => none

/-- A framework type by its name in `System`. -/
def frameworkType (name : String) : TypeSymbol :=
  match (systemRuntime.find name 0).find? (·.namespaceName == "System") with
  | some d => systemRuntime.symbol d
  | none => .unresolved name

/-- The nullable form of a value type. -/
def nullableOf (element : TypeSymbol) : TypeSymbol :=
  match (systemRuntime.find "Nullable" 1).head? with
  | some d => (systemRuntime.symbol d).construct [element]
  | none => element

end ScriptHost
