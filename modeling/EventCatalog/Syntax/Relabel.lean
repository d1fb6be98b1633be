import EventCatalog.Syntax

/-! # Relabelling and likeness of syntax trees

`Program.relabel` changes spans and identifiers all over a tree and nothing else: it forgets where
things stand, moves a tree behind another text, or renumbers definitions.

`Program.isLike` compares two trees as far as they say the same in the same layout: the spans of
located values do not count, the spans of whole statements do, and entries may come in any
order. -/

namespace EventCatalog

/-- What to do with the spans of located values, with the spans of whole statements, and with the
identifiers of definitions. -/
structure Relabelling where
  located : Span → Span := fun s => s
  whole : Span → Span := fun s => s
  number : Nat → Nat := fun n => n

namespace Relabelling

/-- Forgets all spans. -/
def forgetSpans : Relabelling where
  located _ := ⟨0, 0⟩
  whole _ := ⟨0, 0⟩

/-- Forgets the spans of located values. -/
def forgetLocated : Relabelling where
  located _ := ⟨0, 0⟩

/-- Moves all spans by some bytes and all identifiers by some number. -/
def shift (bytes count : Nat) : Relabelling where
  located s := ⟨s.start + bytes, s.stop + bytes⟩
  whole s := ⟨s.start + bytes, s.stop + bytes⟩
  number n := n + count

end Relabelling

/-- A located value with its span changed. -/
def Located.relabel {α : Type} (f : Relabelling) (x : Located α) : Located α :=
  ⟨x.value, f.located x.span⟩

namespace Syntax

variable (f : Relabelling)

/-- A reference with its spans changed. -/
def Reference.relabel (r : Reference) : Reference :=
  ⟨r.name.relabel f, r.selector, r.selectorSpan.map f.whole⟩

/-- A typed reference with its spans changed. -/
def TypedReference.relabel (r : TypedReference) : TypedReference :=
  ⟨r.kind.relabel f, r.target.relabel f⟩

/-- An import with its spans changed. -/
def Import.relabel (i : Import) : Import :=
  ⟨i.names.map fun n => ⟨n.name.relabel f, n.renamed.map (·.relabel f)⟩, i.source.relabel f,
    f.whole i.span⟩

/-- An annotation with its spans changed. -/
def Note.relabel (a : Note) : Note :=
  ⟨a.name.relabel f, a.arguments, f.whole a.span⟩

/-- A member with its spans and identifier changed. -/
def Member.relabel (m : Member) : Member := ⟨m.target.relabel f, m.inlined.map f.number⟩

/-- A message with its spans and identifier changed. -/
def Message.relabel (m : Message) : Message :=
  ⟨m.kind.relabel f, m.target.relabel f, m.channels.map (·.relabel f), m.inlined.map f.number⟩

/-- A parameter with its spans changed. -/
def Parameter.relabel (p : Parameter) : Parameter :=
  ⟨p.name.relabel f, p.attributes, f.whole p.span⟩

/-- A step with its spans changed. -/
def Step.relabel : Step → Step
  | reference target label => reference (target.relabel f) (label.map (·.relabel f))
  | node label => node (label.relabel f)

/-- An output with its spans changed. -/
def Output.relabel (o : Output) : Output := ⟨o.label.map (·.relabel f), o.target.relabel f⟩

/-- An action with its spans changed. -/
def Action.relabel (a : Action) : Action :=
  ⟨a.target.relabel f, a.label.map (·.relabel f), a.outputs.map (·.relabel f)⟩

/-- A trigger with its spans changed. -/
def Trigger.relabel (t : Trigger) : Trigger :=
  ⟨t.conditions.map (·.relabel f), t.actions.map (·.relabel f), f.whole t.span⟩

/-- A product with its spans changed. -/
def Product.relabel (p : Product) : Product := ⟨p.target.relabel f, p.contract⟩

/-- A body with its spans and identifiers changed. -/
def Body.relabel : Body → Body
  | domain b => domain {
      services := b.services.map (·.relabel f), subdomains := b.subdomains.map (·.relabel f),
      entities := b.entities.map (·.relabel f), containers := b.containers.map (·.relabel f),
      channels := b.channels.map (·.relabel f), flows := b.flows.map (·.relabel f),
      dataProducts := b.dataProducts.map (·.relabel f), sends := b.sends.map (·.relabel f),
      receives := b.receives.map (·.relabel f), owns := b.owns.map (·.relabel f) }
  | service b => service {
      sends := b.sends.map (·.relabel f), receives := b.receives.map (·.relabel f),
      writesTo := b.writesTo.map (·.relabel f), readsFrom := b.readsFrom.map (·.relabel f),
      readsWrites := b.readsWrites.map (·.relabel f), entities := b.entities.map (·.relabel f),
      owns := b.owns.map (·.relabel f) }
  | channel b => channel ⟨b.routes.map (·.relabel f), b.parameters.map (·.relabel f)⟩
  | entity owned => entity (owned.map (·.relabel f))
  | container b => container ⟨b.readsFrom.map (·.relabel f), b.writesTo.map (·.relabel f)⟩
  | flow b => flow ⟨b.chains.map (·.map (·.relabel f)), b.triggers.map (·.relabel f)⟩
  | actor used => actor (used.map (·.relabel f))
  | externalSystem used => externalSystem (used.map (·.relabel f))
  | user b => user ⟨b.teams.map (·.relabel f), b.owns.map (·.relabel f)⟩
  | team b => team ⟨b.members.map (·.relabel f), b.owns.map (·.relabel f)⟩
  | dataProduct b => dataProduct ⟨b.inputs.map (·.relabel f), b.outputs.map (·.relabel f)⟩
  | b => b

namespace Definition

mutual

/-- A definition with the spans and identifiers in it changed. -/
def relabel : Definition → Definition
  | ⟨id, keyword, name, version, attributes, annotations, body, nested, span⟩ =>
    ⟨f.number id, f.whole keyword, name.relabel f, version.map (·.relabel f),
      attributes.map fun (k, v) => (k, v.relabel f), annotations.map (·.relabel f),
      body.relabel f, relabelAll nested, f.whole span⟩

/-- Definitions with the spans and identifiers in them changed. -/
def relabelAll : List Definition → List Definition
  | [] => []
  | d :: ds => relabel d :: relabelAll ds

end

end Definition

/-- A document with the spans and identifiers in it changed. -/
def Program.relabel (p : Program) : Program :=
  ⟨p.imports.map (·.relabel f), Definition.relabelAll f p.definitions⟩

/-! ### Likeness -/

/-- Whether two lists of entries have the same keys with the same values. -/
def sameEntries {α : Type} [DecidableEq α] (a b : Entries α) : Bool :=
  a.length == b.length && a.all fun (k, v) => b.get? k == some v

/-- Whether two parameters are equal up to the order of their entries. -/
def Parameter.same (p q : Parameter) : Bool :=
  p.name == q.name && sameEntries p.attributes q.attributes && p.span == q.span

/-- Whether two products are equal up to the order of their entries. -/
def Product.same (p q : Product) : Bool :=
  p.target == q.target && sameEntries p.contract q.contract

/-- Whether two lists agree item by item. -/
def sameList {α : Type} (same : α → α → Bool) : List α → List α → Bool
  | [], [] => true
  | a :: as, b :: bs => same a b && sameList same as bs
  | _, _ => false

/-- Whether two bodies are equal up to the order of entries. -/
def Body.same : Body → Body → Bool
  | channel a, channel b =>
    a.routes == b.routes && sameList Parameter.same a.parameters b.parameters
  | dataProduct a, dataProduct b =>
    a.inputs == b.inputs && sameList Product.same a.outputs b.outputs
  | a, b => a == b

namespace Definition

mutual

/-- Whether two definitions are equal up to the order of entries. -/
def same : Definition → Definition → Bool
  | ⟨i, k, n, v, as, ns, b, ds, s⟩, ⟨i', k', n', v', as', ns', b', ds', s'⟩ =>
    i == i' && k == k' && n == n' && v == v' && sameEntries as as' && ns == ns' && b.same b' &&
      sameAll ds ds' && s == s'

/-- Whether two lists of definitions are equal up to the order of entries. -/
def sameAll : List Definition → List Definition → Bool
  | [], [] => true
  | d :: ds, e :: es => same d e && sameAll ds es
  | _, _ => false

end

end Definition

/-- Whether two documents are equal up to the order of entries and the spans of located values. -/
def Program.isLike (p q : Program) : Bool :=
  let p := p.relabel .forgetLocated
  let q := q.relabel .forgetLocated
  p.imports == q.imports && Definition.sameAll p.definitions q.definitions

end Syntax

end EventCatalog
