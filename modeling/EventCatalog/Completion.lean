import EventCatalog.Completion.Site
import EventCatalog.Scope
import EventCatalog.Text.Lower

/-! # Completion

What can be written at a cursor: keywords, templates of definitions, annotations, names, versions
and paths of documents.  Names come from the linked catalog, from the imports of the document and
from the text itself, which may be newer than the link.  Only what continues the letters before the
cursor is offered, whatever their case. -/

namespace EventCatalog

open Syntax Completion

/-- The sort of an item. -/
inductive ItemKind
  | keyword
  | reference (kind : Kind)
  | snippet
  | note
  | version
  /-- The path of another document. -/
  | path
deriving DecidableEq, Repr

/-- Something that can be written at the cursor. -/
structure Item where
  label : String
  kind : ItemKind
  detail : Option String := none
  /-- What is written instead of the label. -/
  insertText : Option String := none
deriving DecidableEq, Repr

namespace Item

/-- A keyword. -/
def keyword (word : String) : Item := { label := word, kind := .keyword }

/-- Items in the order of their labels; items of one label stay as they were. -/
def sort (items : List Item) : List Item :=
  items.mergeSort fun a b => (compare a.label b.label).isLE

/-- The first item of each label. -/
def distinct (items : List Item) : List Item := items.eraseDupsBy fun a b => a.label == b.label

end Item

namespace Completion

/-! ### Words -/

/-- The statements of every kind. -/
def commonStatements : List String :=
  ["version", "name", "summary", "owner", "deprecated", "draft", "schema"]

/-- The other statements of a kind. -/
def ownStatements : Kind → List String
  | .domain => ["service", "subdomain", "entity", "container", "channel", "flow", "data-product",
      "sends", "receives", "owns"]
  | .service => ["sends", "receives", "writes-to", "reads-from", "reads-writes", "entity", "owns"]
  | .channel => ["address", "protocol", "route", "parameter"]
  | .entity => ["owns", "identifier", "aggregate-root"]
  | .container => ["container-type", "technology", "authoritative", "access-mode",
      "classification", "residency", "retention", "reads-from", "writes-to"]
  | .flow => ["when"]
  | .actor | .externalSystem => ["uses"]
  | .user => ["email", "role", "avatar", "team", "owns"]
  | .team => ["email", "slack", "member", "owns"]
  | .dataProduct => ["input", "output"]
  | .event | .command | .query | .diagram => []

/-- What a kind is. -/
def describeKind : Kind → String
  | .domain => "Top-level bounded context"
  | .service => "Microservice or application"
  | .event => "Domain event"
  | .command => "Command message"
  | .query => "Query message"
  | .channel => "Communication channel"
  | .entity => "Domain entity"
  | .container => "Data container (database, cache, etc.)"
  | .flow => "Process flow definition"
  | .actor => "Human actor (for flows)"
  | .externalSystem => "External system (for flows)"
  | .user => "User definition"
  | .team => "Team definition"
  | .diagram => "Architecture diagram"
  | .dataProduct => "Analytical data product"

/-- The kinds for which there is a template. -/
def snippetKinds : List Kind :=
  [.service, .event, .command, .query, .domain, .container, .actor, .externalSystem]

/-- The template of a kind; its gaps are numbered. -/
def snippet (k : Kind) : String :=
  let head := k.keyword ++ " $\x7b1:Name\x7d \x7b\n"
  match k with
  | .actor | .externalSystem =>
    head ++ "  name \"$\x7b2:Display Name\x7d\"\n  summary \"$\x7b3\x7d\"\n\x7d"
  | _ => head ++ "  version $\x7b2:0.0.1\x7d\n  summary \"$\x7b3\x7d\"\n  $0\n\x7d"

/-- The usual annotations and what they are for. -/
def usualNotes : List (String × String) :=
  [("badge", "Add a visual badge to the resource"),
    ("note", "Add a developer note or reminder"),
    ("repository", "Link to a source code repository"),
    ("specifications", "Add specification links"),
    ("externalId", "Set an external identifier"),
    ("tag", "Add a tag to the resource")]

/-! ### Items -/

/-- The items at the top of a document. -/
def topLevelItems : List Item :=
  Kind.all.map (fun k =>
    { label := k.keyword, kind := .keyword, detail := some (describeKind k) }) ++
    [{ label := "import", kind := .keyword,
       detail := some "Import definitions from another document" }] ++
    snippetKinds.map fun k =>
      { label := k.keyword ++ " (block)", kind := .snippet, detail := some (describeKind k),
        insertText := some (snippet k) }

/-- The kind and the version of a definition. -/
def describeSymbol (s : Symbol) : String :=
  match s.version with
  | some version => s.kind.keyword ++ " " ++ version
  | none => s.kind.keyword

/-- The kind of what an imported name stands for: of the first definition that its source exports
under its name, or else of the first one of that name. -/
def importedKind? (t : SymbolTable) (b : Binding) : Option Kind :=
  let found := match b.target with
    | some target => (t.exportedBy target b.name).head?
    | none => none
  (found <|> (t.lookup b.name).head?).map (·.kind)

/-- A name with its kind and what is said of it. -/
structure Name where
  name : String
  kind : Kind
  detail : String

/-- The names that a document imports. -/
def importedNames (t : SymbolTable) (path : DocumentPath) : List Name :=
  match t.documentAt? path with
  | none => []
  | some document => (t.imports document).filterMap fun (localName, b) =>
    (importedKind? t b).map fun k => ⟨localName, k, b.name ++ " (imported as " ++ localName ++ ")"⟩

/-- All names that a text at a path can refer to. -/
def names (t : SymbolTable) (path : DocumentPath) (source : String) : List Name :=
  importedNames t path ++
    t.symbols.map (fun s => ⟨s.name, s.kind, describeSymbol s⟩) ++
    (parse source).program.all.map fun d => ⟨d.name.value, d.kind, d.kind.keyword⟩

/-- The names of accepted kinds, each once. -/
def referenceItems (t : SymbolTable) (path : DocumentPath) (source : String) (wanted : Wanted) :
    List Item :=
  Item.sort <| Item.distinct <| ((names t path source).filter (wanted.accepts ·.kind)).map fun n =>
    { label := n.name, kind := .reference n.kind, detail := some n.detail }

/-- A list without neighbours that are equal. -/
def dropRepeats : List String → List String
  | [] => []
  | [a] => [a]
  | a :: b :: rest => if a = b then dropRepeats (b :: rest) else a :: dropRepeats (b :: rest)

/-- The versions of the definitions of a name, the newest first. -/
def versionsOf (t : SymbolTable) (name : String) : List String :=
  dropRepeats <| ((t.lookup name).filterMap (·.version)).mergeSort fun a b =>
    (compareVersions (some b) (some a)).isLE

/-- The versions that a reference to a name can ask for. -/
def versionItems (t : SymbolTable) (name : String) : List Item :=
  { label := "latest", kind := .version, detail := some "newest version" } ::
    (versionsOf t name).map fun v => { label := v, kind := .version }

/-- The names that other documents export, each once. -/
def importItems (t : SymbolTable) (path : DocumentPath) : List Item :=
  let foreign := t.symbols.filter fun s => some s.document != t.documentAt? path
  Item.sort <| Item.distinct <| foreign.map fun s =>
    { label := s.name, kind := .reference s.kind,
      detail := (t.pathOf? s.document).map fun p => s.kind.keyword ++ " from " ++ p.text }

/-- The number of items that two lists begin with in common. -/
def commonLength : List Text → List Text → Nat
  | a :: as, b :: bs => if a = b then commonLength as bs + 1 else 0
  | _, _ => 0

/-- The specifier that reaches one document from another. -/
def relativeSpecifier (source target : DocumentPath) : String :=
  let base := (Text.split '/' source.parent).filter (!·.isEmpty)
  let goal := (Text.split '/' target.text.toList).filter (!·.isEmpty)
  let common := commonLength base goal
  let rest := List.intercalate ['/'] (goal.drop common)
  let climb := base.length - common
  if climb = 0 then String.ofList ("./".toList ++ rest)
  else String.ofList ((List.replicate climb "../".toList).flatten ++ rest)

/-- The paths of the other documents as specifiers, in quotes if no quote has been written. -/
def pathItems (t : SymbolTable) (path : DocumentPath) (quoted : Bool) : List Item :=
  let others := (t.documents.map (·.path)).filter fun p =>
    p != path && !DocumentPath.isRemote p.text.toList
  Item.sort <| others.map fun p =>
    let specifier := relativeSpecifier path p
    { label := specifier, kind := .path,
      insertText := if quoted then none else some ("\"" ++ specifier ++ "\"") }

/-- The items at a site of a text. -/
def itemsAt (t : SymbolTable) (path : DocumentPath) (source : String) : Site → List Item
  | .topLevel => topLevelItems
  | .statement kind => (commonStatements ++ ownStatements kind).map Item.keyword
  | .keywords words => words.map Item.keyword
  | .reference wanted words => words.map Item.keyword ++ referenceItems t path source wanted
  | .note => usualNotes.map fun (name, purpose) =>
    { label := name, kind := .note, detail := some purpose }
  | .version name => versionItems t name
  | .importNames => importItems t path
  | .documentPath quoted => pathItems t path quoted
  | .nothing => []

/-- Whether a label continues some letters, whatever their case. -/
def continues (typed : Text) (i : Item) : Bool :=
  typed.isEmpty || (Text.lower typed).isPrefixOf (Text.lower i.label.toList)

end Completion

/-- What can be written at a byte offset of the text of the document at a path. -/
def complete (t : SymbolTable) (path : DocumentPath) (source : String) (cursor : Nat) : List Item :=
  let (site, typed) := Site.classify (Text.upTo cursor source.toList)
  (itemsAt t path source site).filter (continues typed)

end EventCatalog
