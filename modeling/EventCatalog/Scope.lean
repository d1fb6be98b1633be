import EventCatalog.Document
import EventCatalog.Field

/-! # Linking

Linking joins documents into one symbol table.  A document is known by its place in the list it was
linked from, a definition by that place and its own identifier.

* `SymbolTable.link` binds the imports of every document and finds the definitions whose name and
  version are already taken.
* `SymbolTable.resolve` says which definition a reference means: among the candidates that its name
  gives it in its document, those of an accepted kind compete, and the greatest wanted version wins;
  of equal versions one from the same document, and then the first. -/

namespace EventCatalog

open Syntax

/-- A definition and the document it is in. -/
structure Symbol where
  document : Nat
  definition : Definition
deriving Repr

namespace Symbol

/-- What tells a definition from all others. -/
def key (s : Symbol) : Nat × Nat := (s.document, s.definition.id)

/-- The order of documents and, inside one, of definitions. -/
def order (s t : Symbol) : Ordering :=
  (compare s.document t.document).then (compare s.definition.id t.definition.id)

/-- The name of the definition. -/
def name (s : Symbol) : String := s.definition.name.value

/-- The kind of the definition. -/
def kind (s : Symbol) : Kind := s.definition.kind

/-- The version text of the definition. -/
def version (s : Symbol) : Option String := s.definition.versionText

/-- The identifier of the node of the definition. -/
def nodeId (s : Symbol) : String := s.definition.nodeId

end Symbol

/-- What an imported name stands for. -/
structure Binding where
  /-- The document it comes from, if that is linked. -/
  target : Option Nat
  /-- Its name there. -/
  name : String
  span : Span
deriving DecidableEq, Repr

/-- A linked document: its path, the names it imports, and what is wrong with its imports. -/
structure DocumentScope where
  path : DocumentPath
  imports : Entries Binding
  diagnostics : List Diagnostic
deriving Repr

/-- A definition whose name and version were taken by an earlier one. -/
structure Duplicate where
  symbol : Symbol
  first : Symbol

/-- The linked documents and all their definitions. -/
structure SymbolTable where
  generation : Nat
  documents : List DocumentScope
  /-- Document by document, each definition before those inside it. -/
  exports : List Symbol

/-- Why a reference means no definition. -/
inductive ResolveError
  | notFound
  | noMatchingVersion
  | kindMismatch (found : Kind)
deriving DecidableEq, Repr

namespace SymbolTable

/-! ### Lookup -/

/-- All definitions of a name, over documents and versions. -/
def lookup (t : SymbolTable) (name : String) : List Symbol := t.exports.filter (·.name == name)

/-- The definitions of a name in one document. -/
def exportedBy (t : SymbolTable) (document : Nat) (name : String) : List Symbol :=
  (t.lookup name).filter (·.document == document)

/-- All names in the order in which they first occur. -/
def names (t : SymbolTable) : List String := (t.exports.map (·.name)).eraseDups

/-- All definitions, name by name. -/
def symbols (t : SymbolTable) : List Symbol := t.names.flatMap t.lookup

/-- The first document at a path. -/
def documentAt? (t : SymbolTable) (path : DocumentPath) : Option Nat :=
  t.documents.findIdx? (·.path == path)

/-- The path of a document. -/
def pathOf? (t : SymbolTable) (document : Nat) : Option DocumentPath :=
  t.documents[document]?.map (·.path)

/-- The names that a document imports. -/
def imports (t : SymbolTable) (document : Nat) : Entries Binding :=
  (t.documents[document]?.map (·.imports)).getD []

/-- What is wrong with the imports of a document. -/
def linkDiagnostics (t : SymbolTable) (document : Nat) : List Diagnostic :=
  (t.documents[document]?.map (·.diagnostics)).getD []

/-! ### Duplicates -/

/-- Whether one document imports a name from another under a different name. -/
def renames (t : SymbolTable) (document source : Nat) (name : String) : Bool :=
  (t.imports document).any fun (localName, b) =>
    b.target == some source && b.name == name && localName != name

/-- Whether two definitions of one name are of the same class: their versions are the same up to
spelling, or both have none. -/
def sameVersion (s t : Symbol) : Bool :=
  s.version.map Version.normalize == t.version.map Version.normalize

/-- The definition of the same name and version that comes before all others. -/
def firstLike? (t : SymbolTable) (s : Symbol) : Option Symbol :=
  (t.lookup s.name).find? (sameVersion s)

/-- Whether two definitions may share name and version because one document renames the other's. -/
def exempt (t : SymbolTable) (first s : Symbol) : Bool :=
  first.document != s.document &&
    (t.renames first.document s.document s.name || t.renames s.document first.document s.name)

/-- The earlier definition whose name and version a definition takes again. -/
def duplicate? (t : SymbolTable) (s : Symbol) : Option Duplicate :=
  match t.firstLike? s with
  | some first => if first.key == s.key || t.exempt first s then none else some ⟨s, first⟩
  | none => none

/-- The definitions whose name and version are taken, in the order of documents. -/
def duplicates (t : SymbolTable) : List Duplicate := t.exports.filterMap t.duplicate?

/-! ### Resolution -/

/-- The definitions that a name can mean in a document: those exported by the document it is
imported from, or else all definitions of the name. -/
def candidates (t : SymbolTable) (document : Nat) (name : String) : List Symbol :=
  match (t.imports document).get? name with
  | some b =>
    let imported := match b.target with
      | some target => t.exportedBy target b.name
      | none => []
    if imported.isEmpty then t.lookup b.name else imported
  | none => t.lookup name

/-- The definition that a reference in a document means. -/
def resolve (t : SymbolTable) (document : Nat) (reference : Reference) (wanted : Wanted) :
    Except ResolveError Symbol :=
  match t.candidates document reference.name.value with
  | [] => .error .notFound
  | first :: others =>
    let accepted := (first :: others).filter (wanted.accepts ·.kind)
    if accepted.isEmpty then .error (.kindMismatch first.kind)
    else
      let own := accepted.filter (·.document == document)
      let foreign := accepted.filter (·.document != document)
      match reference.selector.select Symbol.version (own ++ foreign) with
      | some s => .ok s
      | none => .error .noMatchingVersion

/-- The key of what a field points to: the definition in place of the reference, or what the
reference means. -/
def fieldTarget? (t : SymbolTable) (document : Nat) (f : Field) : Option (Nat × Nat) :=
  match f.inlined with
  | some d => some (document, d.id)
  | none => (t.resolve document f.reference f.wanted).toOption.map Symbol.key

/-! ### Building a table -/

/-- The definitions of documents, the first of which has a given number. -/
def exportsOf (number : Nat) : List Document → List Symbol
  | [] => []
  | d :: ds => d.exports.map (⟨number, ·⟩) ++ exportsOf (number + 1) ds

/-- The last of the documents at a path. -/
def lastAt? (documents : List Document) (path : DocumentPath) : Option Nat :=
  ((documents.zipIdx.filter (·.1.path == path)).getLast?).map (·.2)

/-- The complaint that the source of an import is not linked. -/
def missingSource (target : DocumentPath) (i : Import) : Diagnostic :=
  let d := if i.isRemote then
      (Diagnostic.warning .unresolvedImport
        ("remote import `" ++ i.source.value ++ "` is not available")).withHelp
          "configure an import resolver that can fetch remote documents"
    else
      (Diagnostic.error .unresolvedImport ("cannot find document `" ++ target.text ++ "`")).withHelp
        "check the path relative to the importing document"
  d.labelled i.source.span "imported here"

/-- The complaint that a name is not defined in the document it is imported from. -/
def notExported (target : DocumentPath) (n : ImportedName) : Diagnostic :=
  (Diagnostic.error .nameNotExported
    ("`" ++ n.name.value ++ "` is not exported by `" ++ target.text ++ "`")).labelled n.name.span
      "not found in the imported document"

/-- Binds the names of one import and says what is wrong with it. -/
def bindImport (documents : List Document) (exports : List Symbol) (importer : Document)
    (i : Import) : List (String × Binding) × List Diagnostic :=
  let path := importer.path.join i.source.value
  let target := lastAt? documents path
  let bindings := i.names.map fun n =>
    (n.localName.value, (⟨target, n.name.value, n.localName.span⟩ : Binding))
  match target with
  | none => (bindings, [missingSource path i])
  | some number =>
    let known (n : ImportedName) : Bool :=
      exports.any fun s => s.document == number && s.name == n.name.value
    (bindings, (i.names.filter (!known ·)).map (notExported path))

/-- Binds all imports of a document; of several for one name the last one counts. -/
def scopeOf (documents : List Document) (exports : List Symbol) (d : Document) : DocumentScope :=
  let bound := d.program.imports.map (bindImport documents exports d)
  ⟨d.path, (bound.flatMap (·.1)).foldl (fun entries (key, b) => Entries.put key b entries) [],
    bound.flatMap (·.2)⟩

/-- Links documents in the given order. -/
def link (generation : Nat) (documents : List Document) : SymbolTable :=
  let exports := exportsOf 0 documents
  ⟨generation, documents.map (scopeOf documents exports), exports⟩

end SymbolTable

end EventCatalog
