import EventCatalog.Import
import EventCatalog.Projection

/-! # Compilation

Compiling reads documents, loads what they import, links them, validates them and makes their graph.
The result does not depend on the order in which the documents are given: they are linked in the
order of their paths, and diagnostics are sorted by document and place. -/

namespace EventCatalog

/-- The settings of a catalog. -/
structure Config where
  indentWidth : Nat := 2
  rules : ValidationRules := {}
  importRounds : Nat := 8
deriving DecidableEq, Repr

namespace FileDiagnostic

/-- The order of optional codes: none first, then by text. -/
def codeOrder : Option Diagnostic.Code → Option Diagnostic.Code → Ordering
  | none, none => .eq
  | none, some _ => .lt
  | some _, none => .gt
  | some c, some d => compare c.text d.text

/-- Where a diagnostic points to, the beginning of the text if nowhere. -/
def place (d : Diagnostic) : Span := d.primarySpan.getD ⟨0, 0⟩

/-- By document, then by place, then by code. -/
def order (a b : FileDiagnostic) : Ordering :=
  (a.path.order b.path).then <|
    (compare (place a.diagnostic).start (place b.diagnostic).start).then <|
      (compare (place a.diagnostic).stop (place b.diagnostic).stop).then <|
        codeOrder a.diagnostic.code b.diagnostic.code

/-- Diagnostics in order; those at one place stay as they were. -/
def sort (ds : List FileDiagnostic) : List FileDiagnostic :=
  ds.mergeSort fun a b => (a.order b).isLE

/-- The diagnostics of one document. -/
def of (path : DocumentPath) (ds : List FileDiagnostic) : List Diagnostic :=
  (ds.filter (·.path == path)).map (·.diagnostic)

end FileDiagnostic

/-- What linking gives: the table, the graph, and all diagnostics in order. -/
structure Linked where
  table : SymbolTable
  graph : Graph
  diagnostics : List FileDiagnostic

namespace Linked

/-- The diagnostics of one document: first those of its text, then those of validation. -/
def documentDiagnostics (t : SymbolTable) (cycles : List Cycle) (rules : ValidationRules)
    (d : Document) : List FileDiagnostic :=
  let found := match t.documentAt? d.path with
    | some number => validate t cycles rules number d.program
    | none => []
  (d.diagnostics ++ found).map (⟨d.path, ·⟩)

/-- Links documents that are sorted by path, validates them and makes their graph. -/
def link (config : Config) (generation : Nat) (documents : List Document) : Linked :=
  let table := SymbolTable.link generation documents
  let cycles := table.cycles
  { table
    graph := table.graph cycles documents
    diagnostics := FileDiagnostic.sort
      (documents.flatMap (documentDiagnostics table cycles config.rules)) }

end Linked

/-- A source put among others that are sorted by path; of two for one path the new one stays. -/
def insertSource (path : DocumentPath) (text : String) :
    List (DocumentPath × String) → List (DocumentPath × String)
  | [] => [(path, text)]
  | (p, t) :: sources =>
    match path.order p with
    | .lt => (path, text) :: (p, t) :: sources
    | .eq => (path, text) :: sources
    | .gt => (p, t) :: insertSource path text sources

/-- Sources sorted by normalized path; of several for one path the last one stays. -/
def sortSources (sources : List (String × String)) : List (DocumentPath × String) :=
  sources.foldl
    (fun sorted (path, text) => insertSource (DocumentPath.ofString path) text sorted) []

/-- Documents in the order of their paths. -/
def sortDocuments (documents : List Document) : List Document :=
  documents.mergeSort fun d e => (d.path.order e.path).isLE

/-- The result of compiling. -/
structure Compilation where
  graph : Graph
  diagnostics : List FileDiagnostic
  /-- The calls of the resolver, in order. -/
  calls : List Import.Call

namespace Compilation

/-- Whether there was an error. -/
def hasErrors (c : Compilation) : Bool := c.diagnostics.any (·.diagnostic.isError)

/-- The paths that the resolver was asked for, in order. -/
def requests (c : Compilation) : List DocumentPath := c.calls.map Import.Call.target

/-- The diagnostics of one document. -/
def diagnosticsFor (c : Compilation) (path : DocumentPath) : List Diagnostic :=
  FileDiagnostic.of path c.diagnostics

end Compilation

/-- The documents that are linked for sources given by path and text, in the order of their paths,
and how loading imports ended; without a resolver nothing is loaded. -/
def gather (config : Config) (resolver : Option ImportResolver)
    (sources : List (String × String)) : List Document × Import.Loading :=
  let given := (sortSources sources).map fun (path, text) => Document.read path text
  let (loaded, loading) := match resolver with
    | some resolve => Import.load resolve config.importRounds given
    | none => ([], { known := [] })
  (sortDocuments (given ++ loaded), loading)

/-- Compiles sources given by path and text. -/
def compile (config : Config) (resolver : Option ImportResolver)
    (sources : List (String × String)) : Compilation :=
  let (documents, loading) := gather config resolver sources
  let linked := Linked.link config 1 documents
  ⟨linked.graph, FileDiagnostic.sort (linked.diagnostics ++ loading.failures), loading.calls⟩

end EventCatalog
