import EventCatalog.Proofs.Compilation.Acyclic
import EventCatalog.Proofs.Projection.Declared

/-! # The relationships that definitions declare

Apart from the steps of flows a definition declares relationships in two ways (`SymbolTable.Links`).
A field with an edge links its holder to what its reference leads to, unless both are members of one
cycle that the holder would close by containing or owning.  A message over channels is published to
each of them, and one that is received makes its holder a subscriber of each.  These are the edges
that the definition makes (`SymbolTable.Regular.exists_declaredEdge_iff`).  Only messages without
channels and inputs are received directly (`SymbolTable.links_receives_iff`). -/

namespace EventCatalog

open Syntax

namespace SymbolTable

/-- A definition declares that there is an edge of some kind from a node to a node. -/
inductive Links (t : SymbolTable) (s : Symbol) : String → EdgeKind → String → Prop
  | outward {f : Field} {kind : EdgeKind} {target : String} (hf : f ∈ s.definition.fields)
      (hedge : f.edge = some (kind, .source)) (hcycle : ¬t.WithinCycle s f)
      (htarget : t.LeadsTo s.document f.reference f.wanted f.inlined target) :
      Links t s s.nodeId kind target
  | inward {f : Field} {kind : EdgeKind} {source : String} (hf : f ∈ s.definition.fields)
      (hedge : f.edge = some (kind, .target)) (hcycle : ¬t.WithinCycle s f)
      (hsource : t.LeadsTo s.document f.reference f.wanted f.inlined source) :
      Links t s source kind s.nodeId
  | publishes {direction : Direction} {m : Message} {channel : Reference} {message target : String}
      (hm : m ∈ s.definition.messages direction) (hchannel : channel ∈ m.channels)
      (hmessage : t.LeadsTo s.document m.target (.only m.kind.value)
        (m.inlined.bind s.definition.child?) message)
      (htarget : t.LeadsTo s.document channel (.only .channel) none target) :
      Links t s message .publishes target
  | subscribes {m : Message} {channel : Reference} {message target : String}
      (hm : m ∈ s.definition.messages .incoming) (hchannel : channel ∈ m.channels)
      (hmessage : t.LeadsTo s.document m.target (.only m.kind.value)
        (m.inlined.bind s.definition.child?) message)
      (htarget : t.LeadsTo s.document channel (.only .channel) none target) :
      Links t s target .subscribes s.nodeId

variable {t : SymbolTable} {s : Symbol} {source target : String} {kind : EdgeKind}

/-- What is received directly links the owner just by its fields, and no cycle takes it away. -/
theorem links_receives_iff : t.Links s source .receives target ↔
    target = s.nodeId ∧ ∃ f, s.definition.Receives f ∧
      t.LeadsTo s.document f.reference f.wanted f.inlined source := by
  constructor
  · intro h
    cases h with
    | outward hf hedge =>
      obtain h | ⟨-, hreceives⟩ := Definition.receives_of_mem_fields hf hedge
      · exact absurd rfl h.1
      · cases hedge.symm.trans hreceives.edge
    | @inward f _ _ hf hedge _ hsource =>
      obtain h | ⟨-, hreceives⟩ := Definition.receives_of_mem_fields hf hedge
      · exact absurd rfl h.1
      · exact ⟨rfl, f, hreceives, hsource⟩
  · rintro ⟨rfl, f, hreceives, hsource⟩
    refine .inward hreceives.mem_fields hreceives.edge ?_ hsource
    rintro ⟨⟨side, hedge | hedge⟩, -⟩ <;> cases hedge.symm.trans hreceives.edge

namespace Regular

variable (ht : t.Regular)

include ht

theorem closesCycle_eq_false_iff (hs : s ∈ t.exports) {f : Field} (hf : f ∈ s.definition.fields) :
    t.projection.closesCycle s.document s.definition f = false ↔ ¬t.WithinCycle s f := by
  rw [← ht.closesCycle_iff hs hf, Bool.not_eq_true]
  rfl

/-- Besides its steps a definition makes the edges that it declares. -/
theorem exists_declaredEdge_iff (hs : s ∈ t.exports) (hkind : kind ≠ .flowStep) :
    (∃ label, ⟨source, kind, target, label⟩ ∈ t.declaredEdges s) ↔
      t.Links s source kind target := by
  simp only [mem_declaredEdges, Projection.edge_mem_fieldEmissions,
    Projection.edge_mem_routeEmissions]
  constructor
  · rintro ⟨label, ⟨f, hf, kind', side, other, hedge, hcycle, hleads, he⟩ |
      ⟨direction, m, hm, message, channel, target', hchannel, hmessage, htarget, he⟩ | hstep⟩
    · rw [ht.closesCycle_eq_false_iff hs hf] at hcycle
      cases side with
      | source =>
        cases he
        exact .outward hf hedge hcycle hleads
      | target =>
        cases he
        exact .inward hf hedge hcycle hleads
    · obtain he | ⟨rfl, he⟩ := he
      · cases he
        exact .publishes hm hchannel hmessage htarget
      · cases he
        exact .subscribes hm hchannel hmessage htarget
    · exact absurd (Projection.kind_of_mem_declaredSteps hstep) hkind
  · intro h
    refine ⟨none, ?_⟩
    cases h with
    | outward hf hedge hcycle htarget =>
      exact .inl ⟨_, hf, _, _, _, hedge, (ht.closesCycle_eq_false_iff hs hf).mpr hcycle,
        htarget, rfl⟩
    | inward hf hedge hcycle hsource =>
      exact .inl ⟨_, hf, _, _, _, hedge, (ht.closesCycle_eq_false_iff hs hf).mpr hcycle,
        hsource, rfl⟩
    | publishes hm hchannel hmessage htarget =>
      exact .inr (.inl ⟨_, _, hm, _, _, _, hchannel, hmessage, htarget, .inl rfl⟩)
    | subscribes hm hchannel hmessage htarget =>
      exact .inr (.inl ⟨_, _, hm, _, _, _, hchannel, hmessage, htarget, .inr ⟨rfl, rfl⟩⟩)

end Regular

end SymbolTable

end EventCatalog
