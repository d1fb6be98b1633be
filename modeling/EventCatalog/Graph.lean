import EventCatalog.Datum
import EventCatalog.Kind

/-! # The graph of a catalog

A graph is a list of nodes and a list of edges in the order of their emission.  Identifiers are made
only from what they stand for (`nodeId`, `edgeId`), so equal catalogs have equal identifiers. -/

namespace EventCatalog

/-- The kind of a node: a definition, a step or parameter of one, or a name without definition. -/
inductive NodeKind
  | definition (kind : Kind)
  | step
  | parameter
  | unresolved
deriving DecidableEq, Repr

namespace NodeKind

/-- The word that begins the identifiers of the kind. -/
def text : NodeKind → String
  | definition kind => kind.keyword
  | step => "step"
  | parameter => "parameter"
  | unresolved => "unresolved"

/-- The kind of definition that nodes of the kind stand for. -/
def kind? : NodeKind → Option Kind
  | definition kind => some kind
  | _ => none

/-- All kinds of nodes. -/
def all : List NodeKind := Kind.all.map definition ++ [step, parameter, unresolved]

end NodeKind

/-- The kind of an edge. -/
inductive EdgeKind
  | sends
  | receives
  | publishes
  | subscribes
  | writesTo
  | readsFrom
  | readsWrites
  | contains
  | owns
  | memberOf
  | routesTo
  | flowStep
deriving DecidableEq, Repr

namespace EdgeKind

/-- The word for a kind of edge. -/
def text : EdgeKind → String
  | sends => "sends"
  | receives => "receives"
  | publishes => "publishes"
  | subscribes => "subscribes"
  | writesTo => "writes-to"
  | readsFrom => "reads-from"
  | readsWrites => "reads-writes"
  | contains => "contains"
  | owns => "owns"
  | memberOf => "member-of"
  | routesTo => "routes-to"
  | flowStep => "flow-step"

/-- All kinds of edges. -/
def all : List EdgeKind :=
  [sends, receives, publishes, subscribes, writesTo, readsFrom, readsWrites, contains, owns,
    memberOf, routesTo, flowStep]

end EdgeKind

/-- The identifier of a node: its kind, its name and the version if it has one. -/
def nodeId (kind : NodeKind) (name : String) (version : Option String) : String :=
  kind.text ++ ":" ++ name ++
    match version with
    | some version => "@" ++ version
    | none => ""

/-- The identifier of an edge: its source, its kind and its target. -/
def edgeId (source : String) (kind : EdgeKind) (target : String) : String :=
  source ++ "-" ++ kind.text ++ "-" ++ target

/-- A node: what it stands for, the domain around it, and what else is known of it. -/
structure Node where
  id : String
  kind : NodeKind
  label : String
  parent : Option String
  metadata : List (String × Datum)
deriving Repr

/-- A directed edge between two nodes. -/
structure Edge where
  source : String
  kind : EdgeKind
  target : String
  label : Option String
deriving DecidableEq, Repr

namespace Edge

/-- The identifier of an edge. -/
def id (e : Edge) : String := edgeId e.source e.kind e.target

end Edge

/-- Nodes and edges in the order of their emission. -/
structure Graph where
  nodes : List Node := []
  edges : List Edge := []
deriving Repr

namespace Graph

/-- Whether there is no node. -/
def isEmpty (g : Graph) : Bool := g.nodes.isEmpty

/-- The node with an identifier. -/
def node? (g : Graph) (id : String) : Option Node := g.nodes.find? (·.id == id)

/-- The edge with an identifier. -/
def edge? (g : Graph) (id : String) : Option Edge := g.edges.find? (·.id == id)

/-- The nodes of a kind. -/
def nodesOf (g : Graph) (kind : NodeKind) : List Node := g.nodes.filter (·.kind == kind)

/-- The edges of a kind. -/
def edgesOf (g : Graph) (kind : EdgeKind) : List Edge := g.edges.filter (·.kind == kind)

/-- Adds a node unless there is one with its identifier. -/
def addNode (g : Graph) (n : Node) : Graph :=
  if (g.node? n.id).isSome then g else { g with nodes := g.nodes ++ [n] }

/-- Adds an edge unless there is one with its identifier. -/
def addEdge (g : Graph) (e : Edge) : Graph :=
  if (g.edge? e.id).isSome then g else { g with edges := g.edges ++ [e] }

/-- Sets a key of the metadata of a node. -/
def setMetadata (g : Graph) (id key : String) (value : Datum) : Graph :=
  { g with nodes := g.nodes.map fun n =>
      if n.id = id then { n with metadata := Datum.insert key value n.metadata } else n }

/-- The record that is written for a node. -/
def nodeDatum (n : Node) : Datum :=
  .record <| [("id", .text n.id), ("type", .text n.kind.text), ("label", .text n.label)] ++
    (match n.parent with
    | some parent => [("parentId", .text parent)]
    | none => []) ++
    if n.metadata.isEmpty then [] else [("metadata", .record n.metadata)]

/-- The record that is written for an edge. -/
def edgeDatum (e : Edge) : Datum :=
  .record <| [("id", .text e.id), ("source", .text e.source), ("target", .text e.target),
    ("type", .text e.kind.text)] ++
    match e.label with
    | some label => [("label", .text label)]
    | none => []

/-- The record that is written for a graph. -/
def datum (g : Graph) : Datum :=
  .record [("nodes", .list (g.nodes.map nodeDatum)), ("edges", .list (g.edges.map edgeDatum))]

end Graph

end EventCatalog
