import EventCatalog.Validation

/-! # The graph of a linked catalog

Every definition makes a node; its fields make edges to the nodes of what they point to.  A
reference that means nothing points to a node made for it, one to the wrong kind makes no edge.
Edges of containment and ownership inside a cycle are left out, and so are all relationships of
duplicate definitions.

The graph is described by a list of emissions, document by document and each definition before those
inside it; of several nodes or edges with one identifier the first one stays. -/

namespace EventCatalog

open Syntax

/-- A part of a graph under construction. -/
inductive Emission
  | node (n : Node)
  | edge (e : Edge)
  /-- The contracts of a data product whose node has been emitted. -/
  | contracts (id : String) (value : Datum)

namespace Emission

/-- Adds an emission to a graph. -/
def addTo (g : Graph) : Emission → Graph
  | node n => g.addNode n
  | edge e => g.addEdge e
  | contracts id value => g.setMetadata id "contracts" value

/-- The graph that emissions build. -/
def build (es : List Emission) : Graph := es.foldl addTo {}

end Emission

/-- What the graph of a catalog is made from. -/
structure Projection where
  table : SymbolTable
  cycles : List Cycle
  /-- The keys of duplicate definitions. -/
  duplicates : List (Nat × Nat)

namespace Projection

variable (p : Projection)

/-! ### Metadata -/

/-- The value of an attribute. -/
def attributeDatum : AttributeValue → Datum
  | .text value => .text value
  | .flag value => .flag value
  | .list items => .list (items.map .text)

/-- An argument of an annotation. -/
def argumentDatum (a : Argument) : Datum :=
  match a.key with
  | some key => .record [("key", .text key), ("value", .text a.value)]
  | none => .record [("value", .text a.value)]

/-- An annotation. -/
def noteDatum (n : Note) : Datum :=
  .record [("args", .list (n.arguments.map argumentDatum)), ("name", .text n.name.value)]

/-- What is known of a definition in the document at a path. -/
def metadata (path : DocumentPath) (d : Definition) : List (String × Datum) :=
  let version := match d.versionText with
    | some version => [("version", Datum.text version)]
    | none => []
  let attributes := d.attributes.map fun (key, v) => (key, attributeDatum v.value)
  let annotations := if d.annotations.isEmpty then []
    else [("annotations", Datum.list (d.annotations.map noteDatum))]
  Datum.sorted (version ++ attributes ++ annotations ++ [("source", .text path.text)])

/-! ### Targets -/

/-- The node for a reference that means nothing. -/
def unresolvedNode (r : Reference) : Node where
  id := nodeId .unresolved r.name.value r.selector.text?
  kind := .unresolved
  label := r.name.value
  parent := none
  metadata := Datum.sorted <| ("reference", .text r.name.value) ::
    match r.selector.text? with
    | some selector => [("version", .text selector)]
    | none => []

/-- The node that a reference in a document points to, with the emissions that make sure it is
there; none if the reference means a definition of the wrong kind. -/
def target? (document : Nat) (r : Reference) (inlined : Option Definition) (wanted : Wanted) :
    Option (String × List Emission) :=
  match inlined with
  | some d => some (d.nodeId, [])
  | none => match p.table.resolve document r wanted with
    | .ok s => some (s.nodeId, [])
    | .error (.kindMismatch _) => none
    | .error _ => some ((unresolvedNode r).id, [.node (unresolvedNode r)])

/-- The place of the cycle that a definition is on. -/
def cycleOf? (key : Nat × Nat) : Option Nat :=
  p.cycles.findIdx? fun c => c.members.any (·.key == key)

/-- Whether a field says that one definition of a cycle contains or owns another one of it. -/
def closesCycle (document : Nat) (d : Definition) (f : Field) : Bool :=
  f.isStructural && (p.cycleOf? (document, d.id)).isSome &&
    (p.table.fieldTarget? document f).bind p.cycleOf? == p.cycleOf? (document, d.id)

/-! ### Relationships -/

/-- The edge of a field. -/
def fieldEmissions (document : Nat) (id : String) (d : Definition) (f : Field) : List Emission :=
  match f.edge with
  | none => []
  | some (kind, side) =>
    if p.closesCycle document d f then []
    else match p.target? document f.reference f.inlined f.wanted with
      | none => []
      | some (target, before) => before ++
        match side with
        | .source => [.edge ⟨id, kind, target, none⟩]
        | .target => [.edge ⟨target, kind, id, none⟩]

/-- The edges between a message and one of its channels. -/
def channelEmissions (document : Nat) (owner message : String) (direction : Direction)
    (channel : Reference) : List Emission :=
  match p.target? document channel none (.only .channel) with
  | none => []
  | some (id, before) => before ++ .edge ⟨message, .publishes, id, none⟩ ::
    match direction with
    | .outgoing => []
    | .incoming => [.edge ⟨id, .subscribes, owner, none⟩]

/-- The edges of a message that goes over channels. -/
def routeEmissions (document : Nat) (owner : String) (d : Definition) (direction : Direction)
    (m : Message) : List Emission :=
  if m.channels.isEmpty then []
  else match p.target? document m.target (m.inlined.bind d.child?) (.only m.kind.value) with
    | none => []
    | some (id, before) =>
      before ++ m.channels.flatMap (p.channelEmissions document owner id direction)

/-- The node for a step that is a label alone. -/
def stepNode (flow : String) (d : Definition) (chain index : Nat) (label : String) : Node where
  id := nodeId .step (d.versionedName ++ "/" ++ Nat.repr chain ++ "." ++ Nat.repr index) none
  kind := .step
  label := label
  parent := some flow
  metadata := []

/-- The node of a step with the label of the edge that leaves it. -/
def step? (document : Nat) (flow : String) (d : Definition) (chain index : Nat) :
    Step → Option (String × Option String × List Emission)
  | .reference target label =>
    (p.target? document target none .any).map fun (id, before) =>
      (id, label.map (·.value), before)
  | .node label =>
    let n := stepNode flow d chain index label.value
    some (n.id, none, [.node n])

/-- The edges between the steps of a chain, from a step at some place on; `previous` is the step
before it. -/
def chainEmissions (document : Nat) (flow : String) (d : Definition) (chain : Nat) :
    (index : Nat) → (previous : Option (String × Option String)) → List Step → List Emission
  | _, _, [] => []
  | index, previous, s :: steps =>
    match p.step? document flow d chain index s with
    | none => chainEmissions document flow d chain (index + 1) none steps
    | some (id, label, before) =>
      before ++
        (match previous with
        | some (source, mark) => [.edge ⟨source, .flowStep, id, mark⟩]
        | none => []) ++
        chainEmissions document flow d chain (index + 1) (some (id, label)) steps

/-- The edge from an action to one of its outputs. -/
def outputEmissions (document : Nat) (action : String) (o : Output) : List Emission :=
  match p.target? document o.target none .any with
  | none => []
  | some (id, before) =>
    before ++ [.edge ⟨action, .flowStep, id, o.label.map (·.value)⟩]

/-- The edges to an action from its conditions and on to its outputs. -/
def actionEmissions (document : Nat) (conditions : List String) (a : Action) : List Emission :=
  match p.target? document a.target none .any with
  | none => []
  | some (id, before) => before ++
    conditions.map (fun c => .edge ⟨c, .flowStep, id, a.label.map (·.value)⟩) ++
    a.outputs.flatMap (p.outputEmissions document id)

/-- The edges of a trigger. -/
def triggerEmissions (document : Nat) (t : Trigger) : List Emission :=
  let conditions := t.conditions.filterMap fun c => p.target? document c none .any
  conditions.flatMap (·.2) ++
    t.actions.flatMap (p.actionEmissions document (conditions.map (·.1)))

/-- The node of a parameter of a channel. -/
def parameterNode (channel : String) (d : Definition) (q : Parameter) : Node where
  id := nodeId .parameter (d.versionedName ++ "/" ++ q.name.value) none
  kind := .parameter
  label := q.name.value
  parent := some channel
  metadata := Datum.sorted (q.attributes.map fun (key, v) => (key, attributeDatum v))

/-- The contracts of a data product by the names of its outputs. -/
def contractsDatum (outputs : List Product) : List (String × Datum) :=
  Datum.sorted <| (outputs.filter (!·.contract.isEmpty)).map fun o =>
    (o.target.target.name.value,
      .record (Datum.sorted (o.contract.map fun (key, v) => (key, .text v))))

/-- What a definition makes besides the edges of its fields. -/
def bodyEmissions (document : Nat) (id : String) (d : Definition) : List Emission :=
  match d.body with
  | .domain b =>
    b.sends.flatMap (p.routeEmissions document id d .outgoing) ++
      b.receives.flatMap (p.routeEmissions document id d .incoming)
  | .service b =>
    b.sends.flatMap (p.routeEmissions document id d .outgoing) ++
      b.receives.flatMap (p.routeEmissions document id d .incoming)
  | .flow b =>
    b.chains.zipIdx.flatMap (fun (steps, chain) =>
      p.chainEmissions document id d chain 0 none steps) ++
      b.triggers.flatMap (p.triggerEmissions document)
  | .channel b => b.parameters.map fun q => .node (parameterNode id d q)
  | .dataProduct b =>
    let contracts := contractsDatum b.outputs
    if contracts.isEmpty then [] else [.contracts id (.record contracts)]
  | _ => []

/-- The relationships of a definition; a duplicate has none. -/
def relationships (document : Nat) (d : Definition) : List Emission :=
  if p.duplicates.contains (document, d.id) then []
  else d.fields.flatMap (p.fieldEmissions document d.nodeId d) ++
    p.bodyEmissions document d.nodeId d

/-- The node of a definition. -/
def definitionNode (path : DocumentPath) (parent : Option String) (d : Definition) : Node where
  id := d.nodeId
  kind := .definition d.kind
  label := d.name.value
  parent := parent
  metadata := metadata path d

/-- The parent of what is written inside a definition: the nearest domain around it. -/
def parentInside (parent : Option String) (d : Definition) : Option String :=
  if d.kind = .domain then some d.nodeId else parent

/-! ### The whole graph -/

mutual

/-- A definition, its relationships, and the definitions inside it. -/
def definition (document : Nat) (path : DocumentPath) (parent : Option String) :
    Definition → List Emission
  | d@⟨_, _, _, _, _, _, _, nested, _⟩ =>
    .node (definitionNode path parent d) :: p.relationships document d ++
      definitions document path (parentInside parent d) nested

/-- Definitions one after another. -/
def definitions (document : Nat) (path : DocumentPath) (parent : Option String) :
    List Definition → List Emission
  | [] => []
  | d :: ds => definition document path parent d ++ definitions document path parent ds

end

/-- A linked document. -/
def document (d : Document) : List Emission :=
  match p.table.documentAt? d.path with
  | some number => p.definitions number d.path none d.program.definitions
  | none => []

/-- The graph of documents. -/
def graph (documents : List Document) : Graph :=
  Emission.build (documents.flatMap p.document)

end Projection

namespace SymbolTable

/-- The graph of linked documents. -/
def graph (t : SymbolTable) (cycles : List Cycle) (documents : List Document) : Graph :=
  Projection.graph ⟨t, cycles, t.duplicates.map (·.symbol.key)⟩ documents

end SymbolTable

end EventCatalog
