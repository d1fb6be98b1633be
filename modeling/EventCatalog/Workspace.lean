import EventCatalog.Completion
import EventCatalog.Compilation
import EventCatalog.Layout

/-! # Workspace

A workspace holds the open documents of an editing session.  An edit reads one document anew; what
needs all documents linked is answered from one link, which is made when it is first needed and is
kept until a document changes.  Links are numbered: the number of the last one is the **generation**
of the workspace.

* `Workspace.perform` answers one request, and `Workspace.run` answers several one after the other.
* Edits carry versions: one that is not newer than what is held is refused, so an edit that arrives
  late cannot overwrite a newer one. -/

namespace EventCatalog

/-- Where a path stands among documents that are sorted by path, or where it would stand. -/
inductive Position
  | found (index : Nat)
  | missing (index : Nat)
deriving DecidableEq, Repr

namespace Position

/-- The last of `size` places from `base` on whose document does not come after the path, if there
is one: half of the places are given up at a time. -/
def narrow (documents : List Document) (path : DocumentPath) (base size : Nat) : Nat :=
  if 1 < size then
    if documents[base + size / 2]?.any fun d => d.path.order path == .gt then
      narrow documents path base (size - size / 2)
    else narrow documents path (base + size / 2) (size - size / 2)
  else base
termination_by size

/-- Searches sorted documents for a path. -/
def search (documents : List Document) (path : DocumentPath) : Position :=
  let base := narrow documents path 0 documents.length
  match documents[base]? with
  | some d =>
    match d.path.order path with
    | .eq => found base
    | .lt => missing (base + 1)
    | .gt => missing base
  | none => missing base

/-- Whether something was found. -/
def isFound : Position → Bool
  | found _ => true
  | missing _ => false

end Position

/-- The documents of an editing session. -/
structure Workspace where
  config : Config := {}
  /-- The open documents, sorted by path. -/
  documents : List Document := []
  /-- The version held for each path. -/
  versions : List (DocumentPath × Nat) := []
  /-- The link of the open documents, if it has been made since the last change. -/
  linked : Option Linked := none
  generation : Nat := 0

namespace Workspace

/-! ### Open documents -/

/-- The paths of the open documents. -/
def paths (w : Workspace) : List DocumentPath := w.documents.map (·.path)

/-- Where a path stands among the open documents. -/
def position (w : Workspace) (path : DocumentPath) : Position := .search w.documents path

/-- Whether a document is open at a path. -/
def isOpen (w : Workspace) (path : DocumentPath) : Bool := (w.position path).isFound

/-- The open document at a path. -/
def document? (w : Workspace) (path : DocumentPath) : Option Document :=
  match w.position path with
  | .found index => w.documents[index]?
  | .missing _ => none

/-- The version held for a path. -/
def version? (w : Workspace) (path : DocumentPath) : Option Nat := w.versions.lookup path

/-- The text held for a path. -/
def text? (w : Workspace) (path : DocumentPath) : Option String :=
  (w.document? path).map (·.text)

/-- The text held for a path, laid out anew. -/
def formatted? (w : Workspace) (path : DocumentPath) : Option String :=
  (w.text? path).map (Layout.format w.config.indentWidth)

/-- Whether an edit of this version is newer than what is held for a path. -/
def isNewer (w : Workspace) (path : DocumentPath) (version : Nat) : Bool :=
  (w.version? path).all (· < version)

/-- The open documents with one put in its place, instead of the one at its path if there is one. -/
def place (w : Workspace) (d : Document) : List Document :=
  match w.position d.path with
  | .found index => w.documents.set index d
  | .missing index => w.documents.insertIdx index d

/-- The versions of all other paths. -/
def otherVersions (w : Workspace) (path : DocumentPath) : List (DocumentPath × Nat) :=
  w.versions.filter (·.1 != path)

/-- Sets the text at a path, unless the edit is stale. -/
def update (w : Workspace) (path : DocumentPath) (text : String) (version : Nat) : Workspace :=
  if w.isNewer path version then
    { w with
      documents := w.place (Document.read path text)
      versions := (path, version) :: w.otherVersions path
      linked := none }
  else w

/-- Closes the document at a path. -/
def remove (w : Workspace) (path : DocumentPath) : Workspace :=
  match w.position path with
  | .found index =>
    { w with
      documents := w.documents.eraseIdx index
      versions := w.otherVersions path
      linked := none }
  | .missing _ => w

/-! ### Linking -/

/-- A new link, under the next generation. -/
def relink (w : Workspace) : Linked × Workspace :=
  let linked := Linked.link w.config (w.generation + 1) w.documents
  (linked, { w with linked := some linked, generation := w.generation + 1 })

/-- The link that is held, or else a new one. -/
def link (w : Workspace) : Linked × Workspace :=
  match w.linked with
  | some linked => (linked, w)
  | none => w.relink

/-- What may be typed at an offset of an open document. -/
def itemsAt (w : Workspace) (linked : Linked) (path : DocumentPath) (cursor : Nat) : List Item :=
  match w.text? path with
  | some text => complete linked.table path text cursor
  | none => []

/-! ### Requests -/

/-- What can be asked of a workspace. -/
inductive Request
  | update (path : DocumentPath) (text : String) (version : Nat)
  | remove (path : DocumentPath)
  | relink
  | version (path : DocumentPath)
  | text (path : DocumentPath)
  | format (path : DocumentPath)
  | diagnostics (path : DocumentPath)
  | graph
  | table
  | complete (path : DocumentPath) (cursor : Nat)
deriving DecidableEq, Repr

/-- What a workspace answers. -/
inductive Answer
  /-- Whether a change was made. -/
  | changed (done : Bool)
  /-- The number of a link. -/
  | generation (number : Nat)
  | version (version : Option Nat)
  | text (text : Option String)
  | diagnostics (diagnostics : List Diagnostic)
  | graph (graph : Graph)
  | table (table : SymbolTable)
  | items (items : List Item)

/-- Answers one request. -/
def perform (w : Workspace) : Request → Answer × Workspace
  | .update path text version => (.changed (w.isNewer path version), w.update path text version)
  | .remove path => (.changed (w.isOpen path), w.remove path)
  | .relink =>
    let (linked, w) := w.relink
    (.generation linked.table.generation, w)
  | .version path => (.version (w.version? path), w)
  | .text path => (.text (w.text? path), w)
  | .format path => (.text (w.formatted? path), w)
  | .diagnostics path =>
    let (linked, w) := w.link
    (.diagnostics (FileDiagnostic.of path linked.diagnostics), w)
  | .graph =>
    let (linked, w) := w.link
    (.graph linked.graph, w)
  | .table =>
    let (linked, w) := w.link
    (.table linked.table, w)
  | .complete path cursor =>
    let (linked, w) := w.link
    (.items (w.itemsAt linked path cursor), w)

/-- Each answer to requests that are made one after the other, with the workspace behind it. -/
def run (w : Workspace) : List Request → List (Answer × Workspace)
  | [] => []
  | r :: rs => w.perform r :: run (w.perform r).2 rs

end Workspace

end EventCatalog
