import EventCatalog.Compilation
import EventCatalog.Proofs.Projection.Grounded

/-! # Compiled graphs are well formed

Whatever documents are linked, each definition of them has a node in the graph
(`Projection.definition_emitted`), so all that emissions stand on is there
(`SymbolTable.graph_wellFormed`).  Compiling links some documents, which is all that
`compile_wellFormed` needs to know of it. -/

namespace EventCatalog

open Syntax Emission

/-- Identifiers are unique, edges and parents point to nodes, and identifiers tell what they stand
for. -/
structure Graph.WellFormed (g : Graph) : Prop where
  nodes_nodup : (g.nodes.map Node.id).Nodup
  edges_nodup : (g.edges.map Edge.id).Nodup
  source_mem : ∀ e ∈ g.edges, e.source ∈ g.nodes.map Node.id
  target_mem : ∀ e ∈ g.edges, e.target ∈ g.nodes.map Node.id
  parent_mem : ∀ n ∈ g.nodes, ∀ parent, n.parent = some parent → parent ∈ g.nodes.map Node.id
  node_id : ∀ n ∈ g.nodes, n.IsNamed
  edge_id : ∀ e ∈ g.edges, e.id = edgeId e.source e.kind e.target

/-- Emissions that stand on nothing but what is emitted build a well formed graph. -/
theorem Emission.Grounded.wellFormed {known : String → Prop} {es : List Emission}
    (h : Grounded known es) (hknown : ∀ id, known id → ∃ n, .node n ∈ es ∧ n.id = id) :
    (build es).WellFormed := by
  have hhere : ∀ {id}, Here known es id → id ∈ (build es).nodes.map Node.id :=
    fun hid => mem_ids_build.mpr (hid.elim (hknown _) fun hn => hn)
  refine ⟨nodup_ids_build es, nodup_edge_ids_build es, ?_, ?_, ?_, ?_, fun e _ => rfl⟩
  · intro e he
    exact hhere (h.source e (emitted_of_mem_edges he))
  · intro e he
    exact hhere (h.target e (emitted_of_mem_edges he))
  · intro n hn parent hparent
    obtain ⟨n', hn', hbare⟩ := exists_emitted hn
    have hparent' : n'.parent = some parent := (congrArg Node.parent hbare).trans hparent
    exact hhere (h.parent n' hn' parent hparent')
  · intro n hn
    obtain ⟨n', hn', hbare⟩ := exists_emitted hn
    obtain ⟨name, hname⟩ := h.named n' hn'
    have hid : n'.id = n.id := (congrArg Node.id hbare :)
    have hkind : n'.kind = n.kind := (congrArg Node.kind hbare :)
    exact ⟨name, by rw [← hid, ← hkind, hname]⟩

namespace Projection

variable {p : Projection}

/-- Every definition inside a definition makes its node. -/
theorem definition_emitted (document : Nat) (path : DocumentPath) {c d : Definition}
    (hc : c ∈ d.all) (parent : Option String) :
    ∃ n, .node n ∈ p.definition document path parent d ∧ n.id = c.nodeId := by
  induction d using Definition.induction generalizing parent with
  | h d ih =>
    rw [definition_eq, definitions_eq_flatMap]
    rw [Definition.all_eq, List.mem_cons] at hc
    obtain rfl | hc := hc
    · exact ⟨definitionNode path parent c, List.mem_append_left _ List.mem_cons_self, rfl⟩
    · obtain ⟨e, he, hc⟩ := Definition.mem_allOf.mp hc
      obtain ⟨n, hn, hid⟩ := ih e he hc (parentInside parent d)
      exact ⟨n, List.mem_append_right _ (List.mem_flatMap.mpr ⟨e, he, hn⟩), hid⟩

end Projection

namespace SymbolTable

theorem documentAt?_isSome {generation : Nat} {documents : List Document} {d : Document}
    (hd : d ∈ documents) : ((link generation documents).documentAt? d.path).isSome = true := by
  rw [documentAt?, List.findIdx?_isSome, List.any_eq_true]
  exact ⟨_, List.mem_map_of_mem hd, beq_self_eq_true _⟩

/-- The emissions of linked documents stand on the nodes of their definitions. -/
theorem documents_grounded (generation : Nat) (documents : List Document) (cycles : List Cycle)
    (duplicates : List (Nat × Nat)) :
    Grounded (fun id => ∃ s ∈ (link generation documents).exports, s.nodeId = id)
      (documents.flatMap
        (Projection.document ⟨link generation documents, cycles, duplicates⟩)) := by
  apply Grounded.flatMap
  intro d hd
  obtain ⟨i, hi⟩ := List.mem_iff_getElem?.mp hd
  rw [Projection.document]
  split
  · rw [Projection.definitions_eq_flatMap]
    apply Grounded.flatMap
    intro e he
    refine Projection.definition_grounded (fun s hs => ⟨s, hs, rfl⟩) d.path (by simp) ?_
    intro c hc
    have hexport : c ∈ d.exports := Definition.mem_allOf.mpr ⟨e, he, hc⟩
    exact ⟨⟨i, c⟩, mem_exports_link.mpr ⟨d, hi, hexport⟩, rfl⟩
  · exact .nil

theorem graph_wellFormed (generation : Nat) (documents : List Document) (cycles : List Cycle) :
    ((link generation documents).graph cycles documents).WellFormed := by
  apply (documents_grounded generation documents cycles _).wellFormed
  intro id hid
  obtain ⟨s, hs, rfl⟩ := hid
  obtain ⟨d, hd, hc⟩ := mem_exports_link.mp hs
  have hmem : d ∈ documents := List.mem_of_getElem? hd
  obtain ⟨number, hnumber⟩ := Option.isSome_iff_exists.mp (documentAt?_isSome hmem)
  obtain ⟨e, he, hc⟩ := Definition.mem_allOf.mp hc
  obtain ⟨n, hn, hid⟩ := Projection.definition_emitted number d.path hc none
  refine ⟨n, List.mem_flatMap.mpr ⟨d, hmem, ?_⟩, hid⟩
  rw [Projection.document, hnumber]
  dsimp only
  rw [Projection.definitions_eq_flatMap]
  exact List.mem_flatMap.mpr ⟨e, he, hn⟩

end SymbolTable

/-- The graph of any sources, however malformed, under any settings and with any resolver. -/
theorem compile_wellFormed (config : Config) (resolver : Option ImportResolver)
    (sources : List (String × String)) : (compile config resolver sources).graph.WellFormed := by
  exact SymbolTable.graph_wellFormed 1 _ _

end EventCatalog
