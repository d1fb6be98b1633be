/-! # Kinds of definitions

Every definition of a catalog has one of fifteen kinds.  The keyword of a kind opens its
definitions and begins the identifiers of its nodes. -/

namespace EventCatalog

/-- The kind of a definition. -/
inductive Kind
  | domain
  | service
  | event
  | command
  | query
  | channel
  | entity
  | container
  | flow
  | actor
  | externalSystem
  | user
  | team
  | diagram
  | dataProduct
deriving DecidableEq, Repr

namespace Kind

/-- All kinds in the order of the language's documentation. -/
def all : List Kind :=
  [domain, service, event, command, query, channel, entity, container, flow, actor,
    externalSystem, user, team, diagram, dataProduct]

theorem mem_all (k : Kind) : k ∈ all := by cases k <;> decide

/-- The kinds of messages. -/
def messages : List Kind := [event, command, query]

/-- The keyword that opens a definition of the kind. -/
def keyword : Kind → String
  | domain => "domain"
  | service => "service"
  | event => "event"
  | command => "command"
  | query => "query"
  | channel => "channel"
  | entity => "entity"
  | container => "container"
  | flow => "flow"
  | actor => "actor"
  | externalSystem => "external-system"
  | user => "user"
  | team => "team"
  | diagram => "diagram"
  | dataProduct => "data-product"

/-- The kind that a keyword opens. -/
def ofKeyword? (word : String) : Option Kind := all.find? (·.keyword == word)

theorem ofKeyword?_keyword (k : Kind) : ofKeyword? k.keyword = some k := by cases k <;> decide

/-- Whether the kind is one of the messages. -/
def isMessage (k : Kind) : Bool := messages.contains k

/-- People and teams need no version, everything else should have one. -/
def requiresVersion : Kind → Bool
  | user | team => false
  | _ => true

/-- Says that a word is no keyword of a kind. -/
def unknownMessage (word : String) : String := "unknown definition kind `" ++ word ++ "`"

end Kind

end EventCatalog
