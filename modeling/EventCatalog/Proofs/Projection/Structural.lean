import EventCatalog.Proofs.Projection.WellFormed
import EventCatalog.Proofs.Scope.Keys

/-! # Edges of containment and ownership

Of all that is emitted for a definition only the fields that contain or own something make such an
edge, and they make it from the definition to what they mean, unless the edge closes a cycle or
leads to nothing (`Projection.exists_field_of_edge`).  What is emitted for bodies and targets is
loose: it makes neither such an edge nor the node of a definition (`Projection.loose_bodyEmissions`),
so the nodes of definitions are made by definitions alone
(`Projection.kind?_of_mem_relationships`). -/

namespace EventCatalog

open Syntax

/-- Whether an edge says that its source contains or owns its target. -/
def Edge.IsStructural (e : Edge) : Prop := e.kind = .contains ∨ e.kind = .owns

namespace Emission

/-- Neither the node of a definition nor an edge of containment or ownership. -/
def IsLoose : Emission → Prop
  | node n => n.kind.kind? = none
  | edge e => ¬e.IsStructural
  | contracts _ _ => True

/-- All that is emitted is loose. -/
def Loose (es : List Emission) : Prop := ∀ x ∈ es, x.IsLoose

variable {es es' : List Emission}

@[simp] theorem loose_nil : Loose [] := by
  simp [Loose]

@[simp] theorem loose_append : Loose (es ++ es') ↔ Loose es ∧ Loose es' := by
  simp only [Loose, List.mem_append]
  exact ⟨fun h => ⟨fun x hx => h x (.inl hx), fun x hx => h x (.inr hx)⟩,
    fun h x hx => hx.elim (h.1 x) (h.2 x)⟩

@[simp] theorem loose_node {n : Node} : Loose (.node n :: es) ↔ n.kind.kind? = none ∧ Loose es := by
  simp [Loose, IsLoose]

@[simp] theorem loose_edge {e : Edge} : Loose (.edge e :: es) ↔ ¬e.IsStructural ∧ Loose es := by
  simp [Loose, IsLoose]

theorem loose_flatMap {α : Type} {items : List α} {g : α → List Emission}
    (h : ∀ a ∈ items, Loose (g a)) : Loose (items.flatMap g) := by
  intro x hx
  obtain ⟨a, ha, hxa⟩ := List.mem_flatMap.mp hx
  exact h a ha x hxa

end Emission

namespace Projection

open Emission

variable {p : Projection} {document : Nat} {owner : String} {d : Definition} {f : Field}

/-! ### What is loose -/

theorem loose_target? {r : Reference} {inlined : Option Definition} {wanted : Wanted}
    {target : String} {before : List Emission}
    (h : p.target? document r inlined wanted = some (target, before)) : Loose before := by
  unfold target? at h
  split at h
  · cases h
    simp
  · split at h <;> cases h <;> simp [unresolvedNode, NodeKind.kind?]

theorem loose_channelEmissions {message : String} {direction : Direction} {channel : Reference} :
    Loose (p.channelEmissions document owner message direction channel) := by
  unfold channelEmissions
  split
  · simp
  · rename_i htarget
    cases direction <;> simp [loose_target? htarget, Edge.IsStructural]

theorem loose_routeEmissions {direction : Direction} {m : Message} :
    Loose (p.routeEmissions document owner d direction m) := by
  unfold routeEmissions
  split
  · simp
  · split
    · simp
    · rename_i htarget
      rw [loose_append]
      exact ⟨loose_target? htarget, loose_flatMap fun _ _ => loose_channelEmissions⟩

theorem loose_chainEmissions (chain index : Nat) (previous : Option (String × Option String))
    (steps : List Step) :
    Loose (p.chainEmissions document owner d chain index previous steps) := by
  induction steps generalizing index previous with
  | nil => simp [chainEmissions]
  | cons s steps ih =>
    rw [chainEmissions]
    split
    · exact ih _ _
    · rename_i id label before hstep
      have hbefore : Loose before := by
        cases s with
        | reference target label =>
          obtain ⟨⟨id, before⟩, htarget, heq⟩ := Option.map_eq_some_iff.mp hstep
          cases heq
          exact loose_target? htarget
        | node label =>
          cases hstep
          simp [stepNode, NodeKind.kind?]
      cases previous <;> simp [hbefore, ih, Edge.IsStructural]

theorem loose_actionEmissions {conditions : List String} {a : Action} :
    Loose (p.actionEmissions document conditions a) := by
  unfold actionEmissions
  split
  · simp
  · rename_i id before htarget
    simp only [loose_append]
    refine ⟨⟨loose_target? htarget, ?_⟩, loose_flatMap fun o _ => ?_⟩
    · intro x hx
      obtain ⟨c, -, rfl⟩ := List.mem_map.mp hx
      simp [IsLoose, Edge.IsStructural]
    · unfold outputEmissions
      split
      · simp
      · rename_i houtput
        simp [loose_target? houtput, Edge.IsStructural]

theorem loose_triggerEmissions {t : Trigger} : Loose (p.triggerEmissions document t) := by
  unfold triggerEmissions
  rw [loose_append]
  refine ⟨loose_flatMap fun c hc => ?_, loose_flatMap fun _ _ => loose_actionEmissions⟩
  obtain ⟨r, -, htarget⟩ := List.mem_filterMap.mp hc
  exact loose_target? htarget

theorem loose_bodyEmissions : Loose (p.bodyEmissions document owner d) := by
  unfold bodyEmissions
  split
  · exact loose_append.mpr
      ⟨loose_flatMap fun _ _ => loose_routeEmissions, loose_flatMap fun _ _ => loose_routeEmissions⟩
  · exact loose_append.mpr
      ⟨loose_flatMap fun _ _ => loose_routeEmissions, loose_flatMap fun _ _ => loose_routeEmissions⟩
  · exact loose_append.mpr ⟨loose_flatMap fun _ _ => loose_chainEmissions _ _ _ _,
      loose_flatMap fun _ _ => loose_triggerEmissions⟩
  · intro x hx
    obtain ⟨q, -, rfl⟩ := List.mem_map.mp hx
    rfl
  · simp only
    split <;> simp [Loose, IsLoose]
  · simp

/-- The relationships of a definition make no node of a definition. -/
theorem kind?_of_mem_relationships {n : Node} (hn : .node n ∈ p.relationships document d) :
    n.kind.kind? = none := by
  unfold relationships at hn
  split at hn
  · cases hn
  rcases List.mem_append.mp hn with hn | hn
  · obtain ⟨f, -, hn⟩ := List.mem_flatMap.mp hn
    unfold fieldEmissions at hn
    split at hn
    · cases hn
    rename_i side _
    split at hn
    · cases hn
    split at hn
    · cases hn
    rename_i target before htarget
    rcases List.mem_append.mp hn with hn | hn
    · exact loose_target? htarget _ hn
    · cases side <;> cases List.mem_singleton.mp hn
  · exact loose_bodyEmissions _ hn

/-! ### What makes such an edge -/

/-- Whoever a field links by containing or owning is the source of the edge. -/
def Outward (f : Field) : Prop :=
  ∀ kind side, f.edge = some (kind, side) → kind = .contains ∨ kind = .owns → side = .source

theorem outward_of_mem_fields (hf : f ∈ d.fields) : Outward f := by
  intro kind side hedge hkind
  cases Definition.isField_of_mem_fields hf with
  | sent | member =>
    cases hedge
    rfl
  | received =>
    split at hedge <;> cases hedge
    simp at hkind
  | channel _ hf =>
    rw [Message.edge_of_mem_channelFields hf] at hedge
    cases hedge
  | input =>
    cases hedge
    simp at hkind
  | step => cases hedge
  | link hlink hside =>
    cases hedge
    exact hside (hkind.resolve_left hlink.1)

/-- The node that a field points to is that of the definition it means, or stands for nothing. -/
theorem exists_means_of_target? {target : String} {before : List Emission}
    (h : p.target? document f.reference f.inlined f.wanted = some (target, before)) :
    (∃ s, p.table.Means document f s ∧ target = s.nodeId) ∨
      target = (unresolvedNode f.reference).id := by
  unfold SymbolTable.Means
  unfold target? at h
  cases hinlined : f.inlined with
  | some c =>
    simp only [hinlined, Option.some.injEq, Prod.mk.injEq] at h
    exact .inl ⟨⟨document, c⟩, rfl, h.1.symm⟩
  | none =>
    simp only [hinlined] at h
    split at h
    · rename_i s hs
      simp only [Option.some.injEq, Prod.mk.injEq] at h
      exact .inl ⟨s, hs, h.1.symm⟩
    · cases h
    · simp only [Option.some.injEq, Prod.mk.injEq] at h
      exact .inr h.1.symm

/-- An edge of containment or ownership leads from the definition to what one of its fields means,
unless that means nothing; and the field closes no cycle. -/
theorem exists_field_of_edge {e : Edge} (he : .edge e ∈ p.relationships document d)
    (hkind : e.IsStructural) :
    (document, d.id) ∉ p.duplicates ∧ e.source = d.nodeId ∧ ∃ f ∈ d.fields,
      f.isStructural = true ∧ p.closesCycle document d f = false ∧
        ((∃ s, p.table.Means document f s ∧ e.target = s.nodeId) ∨
          e.target = (unresolvedNode f.reference).id) := by
  unfold relationships at he
  split at he
  · cases he
  rename_i hduplicate
  refine ⟨by simpa using hduplicate, ?_⟩
  rcases List.mem_append.mp he with he | he
  · obtain ⟨f, hf, he⟩ := List.mem_flatMap.mp he
    unfold fieldEmissions at he
    split at he
    · cases he
    rename_i kind side hedge
    split at he
    · cases he
    rename_i hcycle
    split at he
    · cases he
    rename_i target before htarget
    rcases List.mem_append.mp he with he | he
    · exact absurd hkind (loose_target? htarget _ he)
    have hkinds : e.kind = kind := by
      cases side <;> cases List.mem_singleton.mp he <;> rfl
    have hkind' : kind = .contains ∨ kind = .owns := hkinds ▸ hkind
    obtain rfl := outward_of_mem_fields hf kind side hedge hkind'
    cases List.mem_singleton.mp he
    refine ⟨rfl, f, hf, ?_, by simpa using hcycle, ?_⟩
    · unfold Field.isStructural
      rcases hkind' with rfl | rfl <;> rw [hedge]
    · exact exists_means_of_target? htarget
  · exact absurd hkind (loose_bodyEmissions _ he)

/-! ### The edges of documents -/

/-- A definition makes the edges of all definitions in it, one after another. -/
theorem edges_definition {path : DocumentPath} {parent : Option String} :
    (p.definition document path parent d).filterMap edge? =
      d.all.flatMap fun c => (p.relationships document c).filterMap edge? := by
  induction d using Definition.induction generalizing parent with
  | h d ih =>
    have hself : edge? (.node (definitionNode path parent d)) = none := rfl
    rw [definition_eq, definitions_eq_flatMap, List.filterMap_append, List.filterMap_cons, hself,
      List.filterMap_flatMap, Definition.all_eq, List.flatMap_cons, Definition.allOf_eq_flatMap,
      List.flatMap_assoc, List.flatMap_congr fun c hc => ih c hc]

theorem mem_edge_definition {path : DocumentPath} {parent : Option String} {e : Edge}
    (he : .edge e ∈ p.definition document path parent d) :
    ∃ c ∈ d.all, .edge e ∈ p.relationships document c := by
  rw [← mem_edges, edges_definition, List.mem_flatMap] at he
  obtain ⟨c, hc, he⟩ := he
  exact ⟨c, hc, mem_edges.mp he⟩

end Projection

end EventCatalog
