/-
# Compilations

A compilation is what a list of sources means under given options: the assembly it makes,
the assemblies it refers to, the types it declares, and the class of its top-level
members. It is made once and never fails; what is wrong is reported in a fixed order: the
texts of all documents, references that are not found, types declared twice, base types,
and last the members in the order they are written.

Key definitions: `References`, `TypeTable`, `Compilation`, `Compilation.create`.
-/
import ScriptHost.Assembly.Library
import ScriptHost.Binding.ClassTable
import ScriptHost.Binding.Document
import ScriptHost.Options

namespace ScriptHost

/-- The assemblies that a compilation refers to, and the references nobody knows. -/
structure References where
  assemblies : List AssemblyMetadata
  findings : List Diagnostic
deriving Repr, Inhabited

/-- The report of a reference that nobody knows. -/
def SourceReference.notFound (r : SourceReference) : Diagnostic :=
  .error "FS0006" s!"Metadata file '{r.reference}' could not be found" r.location

namespace References

/-- The references together with the one of a document in `folder?`. An assembly that is
already referred to is not added again. -/
def add (source : ReferenceSource) (folder? : Option String) (rs : References)
    (r : SourceReference) : References :=
  match source.resolve? r.reference folder? with
  | some a =>
    if rs.assemblies.any (·.identity == a.identity) then rs
    else { rs with assemblies := rs.assemblies ++ [a] }
  | none => { rs with findings := rs.findings ++ [r.notFound] }

/-- The references of all documents, behind those every script has. -/
def ofDocuments (source : ReferenceSource) (documents : List Document) : References :=
  documents.foldl (fun rs d => d.references.foldl (add source d.folder?) rs)
    ⟨source.defaultReferences, []⟩

end References

/-- The imported namespaces: those every script imports, and the plain usings. -/
def importsOf (defaults : List String) (usings : List UsingDirective) : List String :=
  usings.foldl (fun imports u =>
    if u.alias?.isSome ∨ u.isStatic ∨ imports.contains u.target then imports
    else imports ++ [u.target]) defaults

/-- The aliases of the usings, the last one first. -/
def aliasesOf (usings : List UsingDirective) : List (String × String) :=
  (usings.filterMap fun u => u.alias?.map fun a => (a.name, u.target)).reverse

/-- The kind of type that a declaration makes. -/
def TypeDeclKind.typeKind : TypeDeclKind → TypeKind
  | classDecl | recordDecl => .classType
  | structDecl => .structType
  | interfaceDecl => .interfaceType
  | enumDecl => .enumType

/-- The declared types by name and number of type parameters, in order, and the
declarations that came too late. -/
structure TypeTable where
  declared : List ((String × Nat) × TypeSymbol)
  findings : List Diagnostic
deriving Repr, Inhabited

namespace TypeTable

/-- The table with what an item of the document `path` declares. -/
def add (assembly : AssemblyIdentity) (path : String) (ts : TypeTable) : Item → TypeTable
  | .typeDecl d =>
    let key := (d.name.name, d.typeParameters.length)
    if ts.declared.any (·.1 == key) then
      { ts with
        findings := ts.findings ++
          [.error "FS0101" s!"The script already contains a definition for '{d.name.name}'"
            (.within path d.name.span)] }
    else
      { ts with
        declared := ts.declared ++ [(key, .named none d.name.name d.kind.typeKind assembly)] }
  | _ => ts

/-- The types that the documents declare. -/
def ofDocuments (assembly : AssemblyIdentity) (documents : List Document) : TypeTable :=
  documents.foldl (fun ts d => d.script.items.foldl (add assembly d.path) ts) ⟨[], []⟩

end TypeTable

/-- What is wrong with the base types of a declaration in the document `path`. -/
def Scope.baseFindings (s : Scope) (path : String) : Item → List Diagnostic
  | .typeDecl d => (s.resolveAll (d.typeParameters.map (·.name)) path d.bases).2
  | _ => []

/-- The class that the items of the documents make up. -/
def ClassTable.ofDocuments (s : Scope) (className : String) (documents : List Document) :
    ClassTable :=
  documents.zipIdx.foldl (fun t (d, document) =>
    d.script.items.foldl (enterItem s className d.path document) t) .empty

/-- What a list of sources means under given options. -/
structure Compilation where
  options : CompilationOptions
  assembly : AssemblyIdentity
  documents : List Document
  references : List AssemblyMetadata
  imports : List String
  declaredTypes : List TypeSymbol
  scriptClass : ScriptClass
  bodies : List BoundBody
  findings : List Diagnostic
deriving Repr

namespace Compilation

/-- The scope that the types of the documents are resolved in. -/
def scopeOf (assembly : AssemblyIdentity) (source : ReferenceSource) (documents : List Document) :
    Scope :=
  let usings := documents.flatMap (·.script.usings)
  ⟨assembly, (TypeTable.ofDocuments assembly documents).declared,
    (References.ofDocuments source documents).assemblies,
    importsOf source.defaultImports usings, aliasesOf usings⟩

/-- The identity of the assembly that the sources make. -/
def identityOf (options : CompilationOptions) (sources : List SourceText) : AssemblyIdentity :=
  ⟨options.assemblyName, fingerprint sources⟩

/-- The compilation of a list of sources. -/
def create (options : CompilationOptions) (sources : List SourceText) (source : ReferenceSource) :
    Compilation :=
  let assembly := identityOf options sources
  let documents := sources.map Document.read
  let references := References.ofDocuments source documents
  let types := TypeTable.ofDocuments assembly documents
  let scope := scopeOf assembly source documents
  let table := ClassTable.ofDocuments scope options.scriptClassName documents
  { options
    assembly
    documents
    references := references.assemblies
    imports := scope.imports
    declaredTypes := types.declared.map (·.2)
    scriptClass := ⟨options.scriptClassName, assembly, table.members⟩
    bodies := table.bodies
    findings :=
      documents.flatMap Document.findings ++ references.findings ++ types.findings
        ++ documents.flatMap (fun d => d.script.items.flatMap (scope.baseFindings d.path))
        ++ table.findings }

/-- The text of a body in the document it belongs to. -/
def bodyText (c : Compilation) (b : BoundBody) : String :=
  ((c.documents[b.document]?).map fun d => b.body.text d.text).getD ""

end Compilation

end ScriptHost
