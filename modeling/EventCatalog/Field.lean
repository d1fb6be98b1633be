import EventCatalog.Graph
import EventCatalog.Syntax

/-! # Fields

All references of a definition in one form, `Definition.fields`: the statement they stand in, the
kind they expect, and the edge they make.  Validation checks them and the graph is made from them,
so both agree on which statement expects which kind. -/

namespace EventCatalog

open Syntax

/-- The kinds that a field accepts. -/
inductive Wanted
  | only (kind : Kind)
  | any
deriving DecidableEq, Repr

namespace Wanted

/-- Whether a kind is accepted. -/
def accepts : Wanted → Kind → Bool
  | only kind, found => kind == found
  | any, _ => true

end Wanted

/-- Which end of an edge the definition that holds the reference is. -/
inductive Side
  | source
  | target
deriving DecidableEq, Repr

/-- A reference with the rules that apply to it. -/
structure Field where
  /-- The word of the statement. -/
  word : String
  reference : Reference
  /-- The definition that is written in place of the reference. -/
  inlined : Option Definition
  wanted : Wanted
  /-- The edge between the holder and what the reference points to, if the field makes one. -/
  edge : Option (EdgeKind × Side)

namespace Field

/-- A field that makes no edge. -/
def plain (word : String) (wanted : Wanted) (reference : Reference) : Field :=
  ⟨word, reference, none, wanted, none⟩

/-- A field that makes an edge. -/
def linking (word : String) (wanted : Wanted) (edge : EdgeKind) (side : Side)
    (reference : Reference) : Field :=
  ⟨word, reference, none, wanted, some (edge, side)⟩

/-- Whether the field says that its holder contains or owns something. -/
def isStructural (f : Field) : Bool :=
  match f.edge with
  | some (.contains, .source) | some (.owns, .source) => true
  | _ => false

end Field

namespace Syntax.Definition

/-- The definition with an identifier that is written directly inside this one. -/
def child? (d : Definition) (id : Nat) : Option Definition := d.nested.find? (·.id == id)

/-- The field of a typed reference. -/
def typedField (word : String) (edge : EdgeKind) (side : Side) (r : TypedReference) : Field :=
  .linking word (.only r.kind.value) edge side r.target

/-- The fields of what a definition owns. -/
def ownedFields (rs : List TypedReference) : List Field := rs.map (typedField "owns" .owns .source)

/-- The fields of the channels of a message. -/
def channelFields (word : String) (rs : List Reference) : List Field :=
  rs.map (.plain word (.only .channel))

/-- The fields of a message that is sent and of its channels. -/
def sentFields (d : Definition) (m : Message) : List Field :=
  ⟨"sends", m.target, m.inlined.bind d.child?, .only m.kind.value, some (.sends, .source)⟩ ::
    channelFields "to" m.channels

/-- The fields of a message that is received and of its channels; a message that comes over
channels is linked through them. -/
def receivedFields (d : Definition) (m : Message) : List Field :=
  ⟨"receives", m.target, m.inlined.bind d.child?, .only m.kind.value,
    if m.channels.isEmpty then some (.receives, .target) else none⟩ ::
    channelFields "from" m.channels

/-- The fields of all messages. -/
def messageFields (d : Definition) (sends receives : List Message) : List Field :=
  sends.flatMap d.sentFields ++ receives.flatMap d.receivedFields

/-- The fields of the members of a section. -/
def memberFields (d : Definition) (b : DomainBody) (s : Section) : List Field :=
  (b.members s).map fun m =>
    ⟨s.kind.keyword, m.target, m.inlined.bind d.child?, .only s.kind, some (.contains, .source)⟩

/-- The field of a step. -/
def stepField? : Step → Option Field
  | .reference target _ => some (.plain "step" .any target)
  | .node _ => none

/-- The fields of an action. -/
def actionFields (a : Action) : List Field :=
  .plain "action" .any a.target :: a.outputs.map fun o => .plain "output" .any o.target

/-- The fields of a trigger. -/
def triggerFields (t : Trigger) : List Field :=
  t.conditions.map (.plain "when" .any) ++ t.actions.flatMap actionFields

/-- All references of a definition, statement by statement. -/
def fields (d : Definition) : List Field :=
  match d.body with
  | .domain b =>
    Section.all.flatMap (d.memberFields b) ++ d.messageFields b.sends b.receives ++
      ownedFields b.owns
  | .service b =>
    d.messageFields b.sends b.receives ++
      b.writesTo.map (.linking "writes-to" (.only .container) .writesTo .source) ++
      b.readsFrom.map (.linking "reads-from" (.only .container) .readsFrom .source) ++
      b.readsWrites.map (.linking "reads-writes" (.only .container) .readsWrites .source) ++
      b.entities.map (.linking "entity" (.only .entity) .owns .source) ++
      ownedFields b.owns
  | .event | .command | .query | .diagram => []
  | .channel b => b.routes.map (.linking "route" (.only .channel) .routesTo .source)
  | .entity owned => ownedFields owned
  | .container b =>
    b.readsFrom.map (.linking "reads-from" (.only .service) .readsFrom .target) ++
      b.writesTo.map (.linking "writes-to" (.only .service) .writesTo .target)
  | .flow b => b.chains.flatten.filterMap stepField? ++ b.triggers.flatMap triggerFields
  | .actor used | .externalSystem used => used.map (.linking "uses" .any .routesTo .source)
  | .user b =>
    b.teams.map (.linking "team" (.only .team) .memberOf .source) ++ ownedFields b.owns
  | .team b =>
    b.members.map (.linking "member" (.only .user) .memberOf .target) ++ ownedFields b.owns
  | .dataProduct b =>
    b.inputs.map (typedField "input" .receives .target) ++
      b.outputs.map fun o => typedField "output" .sends .source o.target

/-- The identifier of the node of a definition. -/
def nodeId (d : Definition) : String :=
  EventCatalog.nodeId (.definition d.kind) d.name.value d.versionText

/-- The name of a definition with its version, if it has one. -/
def versionedName (d : Definition) : String :=
  match d.versionText with
  | some version => d.name.value ++ "@" ++ version
  | none => d.name.value

end Syntax.Definition

end EventCatalog
