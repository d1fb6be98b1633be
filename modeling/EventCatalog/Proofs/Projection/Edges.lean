import EventCatalog.Proofs.Graph.EdgeNames
import EventCatalog.Proofs.Projection.Structural
import EventCatalog.Proofs.Projection.Unresolved

/-! # The edges that references ask for

Where a reference leads to is said without emissions (`SymbolTable.LeadsTo`).  Fields and messages
that go over channels make the edges that their references ask for
(`Projection.edge_mem_fieldEmissions`, `Projection.edge_mem_routeEmissions`).  Where names, versions
and selectors have no colon, all that references lead to has a plain identifier
(`SymbolTable.Colonless.isPlainId_of_leadsTo`). -/

namespace EventCatalog

open Syntax

/-! ### Where references lead to -/

namespace SymbolTable

/-- The node that a reference leads to: that of the definition in its place or of the one that it
means, or else the one that is made for it.  A reference to the wrong kind leads to none. -/
inductive LeadsTo (t : SymbolTable) (document : Nat) (r : Reference) (wanted : Wanted) :
    Option Definition → String → Prop
  | inlined (d : Definition) : LeadsTo t document r wanted (some d) d.nodeId
  | meant {s : Symbol} (h : t.resolve document r wanted = .ok s) :
      LeadsTo t document r wanted none s.nodeId
  | missing {id : String} (h : t.Missing document r wanted id) :
      LeadsTo t document r wanted none id

/-- A reference leads to some node unless what it means is of the wrong kind. -/
theorem leadsTo_or_mismatch (t : SymbolTable) (document : Nat) (r : Reference) (wanted : Wanted)
    (inlined : Option Definition) :
    (∃ id, t.LeadsTo document r wanted inlined id) ∨
      inlined = none ∧ ∃ found, t.resolve document r wanted = .error (.kindMismatch found) := by
  cases inlined with
  | some d => exact .inl ⟨_, .inlined d⟩
  | none =>
    cases h : t.resolve document r wanted with
    | ok s => exact .inl ⟨_, .meant h⟩
    | error error =>
      cases error with
      | kindMismatch found => exact .inr ⟨rfl, found, rfl⟩
      | notFound => exact .inl ⟨_, .missing ⟨.inl h, rfl⟩⟩
      | noMatchingVersion => exact .inl ⟨_, .missing ⟨.inr h, rfl⟩⟩

/-- The definitions that are no duplicates, in the order of documents. -/
def originals (t : SymbolTable) : List Symbol :=
  t.exports.filter fun s => !(t.duplicates.map (·.symbol.key)).contains s.key

theorem mem_originals {t : SymbolTable} {s : Symbol} :
    s ∈ t.originals ↔ s ∈ t.exports ∧ s.key ∉ t.duplicates.map (·.symbol.key) := by
  rw [originals, List.mem_filter, Bool.not_eq_true', ← Bool.not_eq_true, List.contains_iff_mem]

/-- No name, version or selector holds a colon. -/
def Colonless (t : SymbolTable) : Prop :=
  ∀ s ∈ t.exports, ':' ∉ s.name.toList ∧ (∀ v ∈ s.version, ':' ∉ v.toList) ∧
    ∀ f ∈ s.definition.fields, ':' ∉ f.reference.name.value.toList ∧
      ∀ v ∈ f.reference.selector.text?, ':' ∉ v.toList

instance (t : SymbolTable) : Decidable t.Colonless :=
  inferInstanceAs (Decidable (∀ s ∈ t.exports, ':' ∉ s.name.toList ∧
    (∀ v ∈ s.version, ':' ∉ v.toList) ∧
      ∀ f ∈ s.definition.fields, ':' ∉ f.reference.name.value.toList ∧
        ∀ v ∈ f.reference.selector.text?, ':' ∉ v.toList))

namespace Colonless

variable {t : SymbolTable} (ht : t.Colonless)

include ht

theorem isPlainId_nodeId {s : Symbol} (hs : s ∈ t.exports) : IsPlainId s.nodeId :=
  EventCatalog.isPlainId_nodeId (ht s hs).1 (ht s hs).2.1

/-- What the reference of a field leads to has a plain identifier. -/
theorem isPlainId_of_leadsTo (hregular : t.Regular) {s : Symbol} (hs : s ∈ t.exports) {f : Field}
    (hf : f ∈ s.definition.fields) {inlined : Option Definition} {wanted : Wanted} {id : String}
    (hinlined : ∀ c, inlined = some c → c ∈ s.definition.nested)
    (h : t.LeadsTo s.document f.reference wanted inlined id) : IsPlainId id := by
  cases h with
  | inlined c =>
    have hc := hregular.nested_mem s hs c (hinlined c rfl)
    have hplain := ht.isPlainId_nodeId hc
    exact hplain
  | meant h => exact ht.isPlainId_nodeId (mem_exports_of_resolve h)
  | missing h =>
    obtain ⟨hname, hselector⟩ := (ht s hs).2.2 f hf
    rw [h.2]
    exact EventCatalog.isPlainId_nodeId hname hselector

end Colonless

end SymbolTable

/-! ### Edges among emissions -/

namespace Projection

open Emission SymbolTable

variable {p : Projection} {document : Nat} {owner id : String} {d : Definition} {e : Edge}

theorem edges_map {α : Type} (g : α → Edge) (items : List α) :
    (items.map fun a => Emission.edge (g a)).filterMap edge? = items.map g := by
  rw [List.filterMap_map, ← List.filterMap_eq_map]
  rfl

theorem edges_of_target? {r : Reference} {inlined : Option Definition} {wanted : Wanted}
    {before : List Emission} (h : p.target? document r inlined wanted = some (id, before)) :
    before.filterMap edge? = [] := by
  unfold target? at h
  split at h
  · cases h
    rfl
  · split at h <;> cases h <;> rfl

theorem leadsTo_iff {r : Reference} {inlined : Option Definition} {wanted : Wanted} :
    p.table.LeadsTo document r wanted inlined id ↔
      ∃ before, p.target? document r inlined wanted = some (id, before) := by
  constructor
  · intro h
    cases h with
    | inlined d => exact ⟨[], rfl⟩
    | meant h => exact ⟨[], by rw [target?, h]⟩
    | missing h =>
      obtain ⟨h | h, rfl⟩ := h
      · exact ⟨_, by rw [target?, h]; rfl⟩
      · exact ⟨_, by rw [target?, h]; rfl⟩
  · rintro ⟨before, h⟩
    unfold target? at h
    split at h
    · cases h
      exact .inlined _
    · split at h
      · rename_i s hs
        cases h
        exact .meant hs
      · cases h
      · rename_i error hne herror
        cases h
        refine .missing ⟨?_, rfl⟩
        cases error with
        | kindMismatch found => exact absurd rfl (hne found)
        | notFound => exact .inl herror
        | noMatchingVersion => exact .inr herror

instance {t : SymbolTable} {r : Reference} {wanted : Wanted} {inlined : Option Definition} :
    Decidable (t.LeadsTo document r wanted inlined id) :=
  decidable_of_iff ((target? ⟨t, [], []⟩ document r inlined wanted).map (·.1) = some id) <| by
    rw [leadsTo_iff (p := ⟨t, [], []⟩), Option.map_eq_some_iff]
    simp

/-- Behind what makes sure of its target an edge comes just from what follows. -/
theorem edge_mem_behind {r : Reference} {inlined : Option Definition} {wanted : Wanted}
    {before es : List Emission} (h : p.target? document r inlined wanted = some (id, before)) :
    .edge e ∈ before ++ es ↔ .edge e ∈ es := by
  rw [← mem_edges, List.filterMap_append, edges_of_target? h, List.nil_append, mem_edges]

/-- A field makes the edge that it says between its holder and what its reference leads to, unless
it closes a cycle. -/
theorem edge_mem_fieldEmissions {f : Field} :
    .edge e ∈ p.fieldEmissions document owner d f ↔
      ∃ kind side target, f.edge = some (kind, side) ∧ p.closesCycle document d f = false ∧
        p.table.LeadsTo document f.reference f.wanted f.inlined target ∧
        e = match side with
          | .source => ⟨owner, kind, target, none⟩
          | .target => ⟨target, kind, owner, none⟩ := by
  unfold fieldEmissions
  cases hedge : f.edge with
  | none => simp
  | some x =>
    obtain ⟨kind, side⟩ := x
    simp only [Option.some.injEq, Prod.mk.injEq]
    cases hcycle : p.closesCycle document d f with
    | true => simp
    | false =>
      cases htarget : p.target? document f.reference f.inlined f.wanted with
      | none => simp [leadsTo_iff, htarget]
      | some x =>
        obtain ⟨target, before⟩ := x
        simp only [Bool.false_eq_true, if_false, edge_mem_behind htarget, leadsTo_iff, htarget]
        cases side <;> simp

/-- A message that goes over channels is published to each of them, and if it is received, each of
them is subscribed to. -/
theorem edge_mem_routeEmissions {direction : Direction} {m : Message} :
    .edge e ∈ p.routeEmissions document owner d direction m ↔
      ∃ message channel target, channel ∈ m.channels ∧
        p.table.LeadsTo document m.target (.only m.kind.value) (m.inlined.bind d.child?) message ∧
        p.table.LeadsTo document channel (.only .channel) none target ∧
        (e = ⟨message, .publishes, target, none⟩ ∨
          direction = .incoming ∧ e = ⟨target, .subscribes, owner, none⟩) := by
  have hchannel (message : String) (channel : Reference) :
      .edge e ∈ p.channelEmissions document owner message direction channel ↔
        ∃ target, p.table.LeadsTo document channel (.only .channel) none target ∧
          (e = ⟨message, .publishes, target, none⟩ ∨
            direction = .incoming ∧ e = ⟨target, .subscribes, owner, none⟩) := by
    unfold channelEmissions
    cases htarget : p.target? document channel none (.only .channel) with
    | none => simp [leadsTo_iff, htarget]
    | some x =>
      obtain ⟨target, before⟩ := x
      simp only [edge_mem_behind htarget, leadsTo_iff, htarget]
      cases direction <;> simp
  unfold routeEmissions
  split
  · rename_i hnone
    simp [List.isEmpty_iff.mp hnone]
  · have hleads (id : String) : p.table.LeadsTo document m.target (.only m.kind.value)
        (m.inlined.bind d.child?) id ↔ ∃ before, p.target? document m.target
          (m.inlined.bind d.child?) (.only m.kind.value) = some (id, before) := leadsTo_iff
    cases htarget : p.target? document m.target (m.inlined.bind d.child?) (.only m.kind.value) with
    | none => simp [hleads, htarget]
    | some x =>
      obtain ⟨message, before⟩ := x
      have hmessage (id : String) : p.table.LeadsTo document m.target (.only m.kind.value)
          (m.inlined.bind d.child?) id ↔ id = message := by
        simp [hleads, htarget, eq_comm]
      simp only [edge_mem_behind htarget, List.mem_flatMap, hchannel, hmessage]
      constructor
      · rintro ⟨channel, hmem, target, hleads, he⟩
        exact ⟨message, channel, target, hmem, rfl, hleads, he⟩
      · rintro ⟨_, channel, target, hmem, rfl, hleads, he⟩
        exact ⟨channel, hmem, target, hleads, he⟩

end Projection

end EventCatalog
