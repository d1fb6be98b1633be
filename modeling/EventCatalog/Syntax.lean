import EventCatalog.Kind
import EventCatalog.Selector
import EventCatalog.Span
import EventCatalog.DocumentPath

/-! # Syntax trees

A document is a list of imports and a list of definitions.  A definition has one of fifteen kinds,
which its body decides, and holds the definitions that are written inside it: services and other
members in domains, and messages where they are sent or received.  The member or message that a
nested definition stands for knows it by its identifier.

`Program.all` lists the definitions of a document, each before those inside it. -/

namespace EventCatalog

/-! ### Entries -/

/-- A map from words to values in the order in which the words were first written. -/
abbrev Entries (α : Type) := List (String × α)

namespace Entries

variable {α : Type}

/-- The value of a key. -/
def get? (entries : Entries α) (key : String) : Option α := entries.lookup key

/-- Sets the value of a key, which keeps its place if it has one. -/
def put (key : String) (value : α) : Entries α → Entries α
  | [] => [(key, value)]
  | (k, v) :: entries =>
    if k = key then (key, value) :: entries else (k, v) :: put key value entries

end Entries

namespace Syntax

/-! ### References -/

/-- A name that points to a definition, with the version it wants. -/
structure Reference where
  name : Located String
  selector : Selector
  selectorSpan : Option Span
deriving DecidableEq, Repr

namespace Reference

/-- The span of the name and the selector. -/
def span (r : Reference) : Span :=
  match r.selectorSpan with
  | some s => r.name.span.union s
  | none => r.name.span

end Reference

/-- A reference that says which kind it expects. -/
structure TypedReference where
  kind : Located Kind
  target : Reference
deriving DecidableEq, Repr

/-! ### Imports, annotations and attributes -/

/-- A name taken from another document, perhaps under another name. -/
structure ImportedName where
  name : Located String
  renamed : Option (Located String)
deriving DecidableEq, Repr

namespace ImportedName

/-- The name that the importing document uses. -/
def localName (n : ImportedName) : Located String := n.renamed.getD n.name

end ImportedName

/-- An import statement. -/
structure Import where
  names : List ImportedName
  source : Located String
  span : Span
deriving DecidableEq, Repr

namespace Import

/-- Whether the source is a web address. -/
def isRemote (i : Import) : Bool := DocumentPath.isRemote i.source.value.toList

end Import

/-- The value of an attribute. -/
inductive AttributeValue
  | text (value : String)
  | flag (value : Bool)
  | list (items : List String)
deriving DecidableEq, Repr

/-- An argument of an annotation, perhaps with a key. -/
structure Argument where
  key : Option String
  value : String
deriving DecidableEq, Repr

/-- An annotation such as `@badge("Beta", color: "blue")`. -/
structure Note where
  name : Located String
  arguments : List Argument
  span : Span
deriving DecidableEq, Repr

/-! ### Parts of bodies -/

/-- The list of a domain that a member belongs to. -/
inductive Section
  | services
  | subdomains
  | entities
  | containers
  | channels
  | flows
  | dataProducts
deriving DecidableEq, Repr

namespace Section

/-- The sections in the order in which a domain is listed. -/
def all : List Section :=
  [services, subdomains, entities, containers, channels, flows, dataProducts]

/-- The kind of the members of a section. -/
def kind : Section → Kind
  | services => .service
  | subdomains => .domain
  | entities => .entity
  | containers => .container
  | channels => .channel
  | flows => .flow
  | dataProducts => .dataProduct

/-- The section that a statement adds to. -/
def ofKeyword? (word : String) : Option Section :=
  match word with
  | "service" => some services
  | "subdomain" | "domain" => some subdomains
  | "entity" => some entities
  | "container" => some containers
  | "channel" => some channels
  | "flow" => some flows
  | "data-product" => some dataProducts
  | _ => none

end Section

/-- A member of a domain: a reference, or the definition written in its place. -/
structure Member where
  target : Reference
  inlined : Option Nat
deriving DecidableEq, Repr

/-- Whether a message leaves or enters. -/
inductive Direction
  | outgoing
  | incoming
deriving DecidableEq, Repr

/-- A message that is sent or received, perhaps over channels, perhaps defined on the spot. -/
structure Message where
  kind : Located Kind
  target : Reference
  channels : List Reference
  inlined : Option Nat
deriving DecidableEq, Repr

/-- A parameter of a channel's address. -/
structure Parameter where
  name : Located String
  attributes : Entries AttributeValue
  span : Span
deriving DecidableEq, Repr

/-- A step of a flow: a definition, perhaps labelled, or a label alone. -/
inductive Step
  | reference (target : Reference) (label : Option (Located String))
  | node (label : Located String)
deriving DecidableEq, Repr

namespace Step

/-- The label of a step. -/
def label? : Step → Option (Located String)
  | reference _ label => label
  | node label => some label

/-- The span of a step and its label. -/
def span : Step → Span
  | reference target (some label) => target.span.union label.span
  | reference target none => target.span
  | node label => label.span

end Step

/-- What an action leads to. -/
structure Output where
  label : Option (Located String)
  target : Reference
deriving DecidableEq, Repr

/-- What happens on a trigger. -/
structure Action where
  target : Reference
  label : Option (Located String)
  outputs : List Output
deriving DecidableEq, Repr

/-- Conditions that together start actions. -/
structure Trigger where
  conditions : List Reference
  actions : List Action
  span : Span
deriving DecidableEq, Repr

/-- An output of a data product with the entries of its contract. -/
structure Product where
  target : TypedReference
  contract : Entries String
deriving DecidableEq, Repr

/-! ### Bodies -/

/-- The body of a domain. -/
structure DomainBody where
  services : List Member := []
  subdomains : List Member := []
  entities : List Member := []
  containers : List Member := []
  channels : List Member := []
  flows : List Member := []
  dataProducts : List Member := []
  sends : List Message := []
  receives : List Message := []
  owns : List TypedReference := []
deriving DecidableEq, Repr

namespace DomainBody

/-- The members of one section. -/
def members (b : DomainBody) : Section → List Member
  | .services => b.services
  | .subdomains => b.subdomains
  | .entities => b.entities
  | .containers => b.containers
  | .channels => b.channels
  | .flows => b.flows
  | .dataProducts => b.dataProducts

/-- Adds a member to a section. -/
def addMember (b : DomainBody) (m : Member) : Section → DomainBody
  | .services => { b with services := b.services ++ [m] }
  | .subdomains => { b with subdomains := b.subdomains ++ [m] }
  | .entities => { b with entities := b.entities ++ [m] }
  | .containers => { b with containers := b.containers ++ [m] }
  | .channels => { b with channels := b.channels ++ [m] }
  | .flows => { b with flows := b.flows ++ [m] }
  | .dataProducts => { b with dataProducts := b.dataProducts ++ [m] }

end DomainBody

/-- The body of a service. -/
structure ServiceBody where
  sends : List Message := []
  receives : List Message := []
  writesTo : List Reference := []
  readsFrom : List Reference := []
  readsWrites : List Reference := []
  entities : List Reference := []
  owns : List TypedReference := []
deriving DecidableEq, Repr

/-- The body of a channel. -/
structure ChannelBody where
  routes : List Reference := []
  parameters : List Parameter := []
deriving DecidableEq, Repr

/-- The body of a container: the services that read from it and write to it. -/
structure ContainerBody where
  readsFrom : List Reference := []
  writesTo : List Reference := []
deriving DecidableEq, Repr

/-- The body of a flow; the steps of a chain follow each other. -/
structure FlowBody where
  chains : List (List Step) := []
  triggers : List Trigger := []
deriving DecidableEq, Repr

/-- The body of a user. -/
structure UserBody where
  teams : List Reference := []
  owns : List TypedReference := []
deriving DecidableEq, Repr

/-- The body of a team. -/
structure TeamBody where
  members : List Reference := []
  owns : List TypedReference := []
deriving DecidableEq, Repr

/-- The body of a data product. -/
structure DataProductBody where
  inputs : List TypedReference := []
  outputs : List Product := []
deriving DecidableEq, Repr

/-- What a definition of each kind holds. -/
inductive Body
  | domain (body : DomainBody)
  | service (body : ServiceBody)
  | event
  | command
  | query
  | channel (body : ChannelBody)
  | entity (owns : List TypedReference)
  | container (body : ContainerBody)
  | flow (body : FlowBody)
  | actor (uses : List Reference)
  | externalSystem (uses : List Reference)
  | user (body : UserBody)
  | team (body : TeamBody)
  | diagram
  | dataProduct (body : DataProductBody)
deriving DecidableEq, Repr

namespace Body

/-- The kind that a body belongs to. -/
def kind : Body → Kind
  | domain _ => .domain
  | service _ => .service
  | event => .event
  | command => .command
  | query => .query
  | channel _ => .channel
  | entity _ => .entity
  | container _ => .container
  | flow _ => .flow
  | actor _ => .actor
  | externalSystem _ => .externalSystem
  | user _ => .user
  | team _ => .team
  | diagram => .diagram
  | dataProduct _ => .dataProduct

/-- The body of a kind in which nothing is written. -/
def empty : Kind → Body
  | .domain => domain {}
  | .service => service {}
  | .event => event
  | .command => command
  | .query => query
  | .channel => channel {}
  | .entity => entity []
  | .container => container {}
  | .flow => flow {}
  | .actor => actor []
  | .externalSystem => externalSystem []
  | .user => user {}
  | .team => team {}
  | .diagram => diagram
  | .dataProduct => dataProduct {}

@[simp] theorem kind_empty (k : Kind) : (empty k).kind = k := by cases k <;> rfl

end Body

/-! ### Definitions and programs -/

/-- A definition, with the definitions written inside it in the order of the text. -/
structure Definition where
  id : Nat
  keywordSpan : Span
  name : Located String
  version : Option (Located String)
  attributes : Entries (Located AttributeValue)
  annotations : List Note
  body : Body
  nested : List Definition
  span : Span
deriving Repr

namespace Definition

/-- The kind of a definition. -/
def kind (d : Definition) : Kind := d.body.kind

/-- The version text of a definition. -/
def versionText (d : Definition) : Option String := d.version.map (·.value)

mutual

/-- The definition followed by all definitions inside it. -/
def all : Definition → List Definition
  | d@⟨_, _, _, _, _, _, _, nested, _⟩ => d :: allOf nested

/-- The definitions of a list, each followed by all definitions inside it. -/
def allOf : List Definition → List Definition
  | [] => []
  | d :: ds => all d ++ allOf ds

end

end Definition

/-- The syntax tree of a document. -/
structure Program where
  imports : List Import := []
  definitions : List Definition := []
deriving Repr

namespace Program

/-- All definitions of a document, each before those inside it. -/
def all (p : Program) : List Definition := Definition.allOf p.definitions

end Program

end Syntax

end EventCatalog
