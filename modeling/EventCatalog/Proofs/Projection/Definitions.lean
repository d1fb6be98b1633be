import EventCatalog.Proofs.Projection.Parents
import EventCatalog.Proofs.Scope.Identity

/-! # The nodes of definitions

The nodes of the places of definitions tell of the definitions of the table, so the graph tells of
the first definition of each identifier, in the order of the table (`SymbolTable.heads_graph`).
Where no two definitions share an identifier it has one node for each of them
(`Linked.one_node_per_definition`). -/

namespace EventCatalog

open Syntax

/-- What the node of a definition tells of it. -/
structure Head where
  id : String
  kind : Kind
  name : String
deriving DecidableEq, Repr

namespace Node

/-- What a node tells of the definition it stands for, if it stands for one. -/
def head? (n : Node) : Option Head := n.kind.kind?.map fun kind => ⟨n.id, kind, n.label⟩

theorem id_of_head? {n : Node} {h : Head} (hn : n.head? = some h) : h.id = n.id := by
  obtain ⟨kind, -, rfl⟩ := Option.map_eq_some_iff.mp hn
  rfl

theorem filterMap_head?_definition? (nodes : List Node) :
    (nodes.filterMap definition?).filterMap head? = nodes.filterMap head? := by
  rw [List.filterMap_filterMap]
  refine List.filterMap_congr fun n _ => ?_
  obtain ⟨id, kind, label, parent, metadata⟩ := n
  cases kind <;> rfl

end Node

/-- What its node tells of a definition. -/
def Syntax.Definition.head (d : Definition) : Head := ⟨d.nodeId, d.kind, d.name.value⟩

theorem Placement.head?_node (p : Placement) : p.node.apart.head? = some p.definition.head := rfl

/-- What its node tells of a definition. -/
def Symbol.head (s : Symbol) : Head := s.definition.head

/-! ### Graphs -/

namespace SymbolTable

theorem heads_exportsOf (number : Nat) (documents : List Document) :
    (exportsOf number documents).map Symbol.head =
      documents.flatMap fun d => d.exports.map Definition.head := by
  induction documents generalizing number with
  | nil => rfl
  | cons d documents ih =>
    rw [exportsOf, List.map_append, List.map_map, ih, List.flatMap_cons]
    rfl

/-- The nodes of the places of documents tell of the definitions of the table. -/
theorem heads_placements (number : Nat) (documents : List Document) :
    ((documents.flatMap Document.placements).map fun q => q.node.apart).filterMap Node.head? =
      (exportsOf number documents).map Symbol.head := by
  have hexports : ∀ d ∈ documents, d.placements.map (·.definition.head) =
      d.exports.map Definition.head := by
    intro d _
    rw [← d.map_definition_placements, List.map_map]
    rfl
  rw [List.filterMap_map, heads_exportsOf, ← List.flatMap_congr hexports, ← List.map_flatMap,
    ← List.filterMap_eq_map]
  rfl

/-- The graph of linked documents has the first definition of each identifier. -/
theorem heads_graph (generation : Nat) (documents : List Document) (cycles : List Cycle) :
    ((link generation documents).graph cycles documents).nodes.filterMap Node.head? =
      firsts Head.id ((link generation documents).exports.map Symbol.head) := by
  rw [← Node.filterMap_head?_definition?, definitions_graph]
  refine (filterMap_firsts (fun _ _ => Node.id_of_head?) fun n hn m hm _ => ?_).trans
    (congrArg _ (heads_placements 0 documents))
  obtain ⟨q, -, rfl⟩ := List.mem_map.mp hn
  obtain ⟨r, -, rfl⟩ := List.mem_map.mp hm
  rw [q.head?_node, r.head?_node, Option.isSome_some, Option.isSome_some]

end SymbolTable

namespace Linked

/-- Where nothing is a duplicate and no import is aliased, two definitions share a node only if they
are of one kind and one of them mimics the other, and then they do.  Where none does, the graph has
one node for each definition, in the order of the definitions. -/
theorem one_node_per_definition (config : Config) (generation : Nat)
    (sources : List (DocumentPath × String)) (hunaliased : Unaliased sources)
    (hduplicates : (SymbolTable.linkTexts generation sources).duplicates = []) :
    let linked := Linked.link config generation
      (sources.map fun (path, text) => Document.read path text)
    let definitions := linked.table.exports
    (∀ s ∈ definitions, ∀ u ∈ definitions, s ≠ u →
      (s.nodeId = u.nodeId ↔ s.kind = u.kind ∧ (s.Mimics u ∨ u.Mimics s))) ∧
      ((∀ s ∈ definitions, ∀ u ∈ definitions, s.kind = u.kind → ¬s.Mimics u) →
        linked.graph.nodes.filterMap Node.head? = definitions.map Symbol.head) := by
  intro linked definitions
  have ht := SymbolTable.regular_link_read generation sources
  have hexempt := SymbolTable.exempt_linkTexts hunaliased generation
  have hshare : ∀ s ∈ definitions, ∀ u ∈ definitions, s ≠ u →
      (s.nodeId = u.nodeId ↔ s.kind = u.kind ∧ (s.Mimics u ∨ u.Mimics s)) :=
    fun s hs u hu hne => ht.nodeId_eq_iff_mimics hexempt hduplicates hs hu hne
  refine ⟨hshare, fun hmimics => ?_⟩
  refine (SymbolTable.heads_graph generation _ _).trans (firsts_of_nodup ?_)
  -- Definitions differ by their keys, so they are no repetition of each other.
  have hnodup : definitions.Nodup := ht.nodup_keys.of_map
  rw [List.map_map]
  refine hnodup.map_on fun s hs u hu hid => ?_
  by_contra hne
  obtain ⟨hkind, h | h⟩ := (hshare s hs u hu hne).mp hid
  · exact hmimics s hs u hu hkind h
  · exact hmimics u hu s hs hkind.symm h

/-- Services of one name in two documents, one of them inside a domain, have nodes of their own. -/
theorem one_node_per_definition_carts :
    let sources := [(DocumentPath.ofString "shop.ec",
        "domain Shop \x7b\n  service Cart \x7b\n    version 1\n  \x7d\n\x7d\n"),
      (DocumentPath.ofString "cart.ec",
        "import \x7b Cart \x7d from \"shop.ec\"\nservice Cart \x7b\n  version 2\n\x7d\n")]
    (Linked.link {} 1 (sources.map fun (path, text) =>
        Document.read path text)).graph.nodes.filterMap Node.head? =
      [⟨"domain:Shop", .domain, "Shop"⟩, ⟨"service:Cart@1", .service, "Cart"⟩,
        ⟨"service:Cart@2", .service, "Cart"⟩] := by
  intro sources
  have hunaliased : Unaliased sources := by decide +kernel
  have hduplicates : (SymbolTable.linkTexts 1 sources).duplicates = [] := by
    apply List.isEmpty_iff.mp
    decide +kernel
  have hsigns : ∀ s ∈ (SymbolTable.linkTexts 1 sources).exports, '@' ∉ s.name.toList := by
    decide +kernel
  refine ((one_node_per_definition {} 1 sources hunaliased hduplicates).2
    fun s hs u _ _ => Symbol.not_mimics_of_not_mem (hsigns s hs)).trans ?_
  decide +kernel

/-- An event of version 1 and one whose name is written like the other's with its version share an
identifier, though nothing is a duplicate. -/
theorem not_one_node_per_definition :
    ¬∀ (config : Config) (generation : Nat) (sources : List (DocumentPath × String)),
      Unaliased sources → (SymbolTable.linkTexts generation sources).duplicates = [] →
      let linked := Linked.link config generation
        (sources.map fun (path, text) => Document.read path text)
      (∀ s ∈ linked.table.exports, ∀ u ∈ linked.table.exports, s ≠ u → s.nodeId ≠ u.nodeId) ∧
        linked.graph.nodes.filterMap Node.head? = linked.table.exports.map Symbol.head := by
  intro h
  let sources := [(DocumentPath.ofString "a.ec",
    "event A \x7b\n  version 1\n\x7d\nevent \"A@1\"\n")]
  have hduplicates : (SymbolTable.linkTexts 1 sources).duplicates = [] := by
    apply List.isEmpty_iff.mp
    decide +kernel
  obtain ⟨hdiffer, -⟩ := h {} 1 sources (by decide +kernel) hduplicates
  have hshared : ∃ s ∈ (SymbolTable.linkTexts 1 sources).exports,
      ∃ u ∈ (SymbolTable.linkTexts 1 sources).exports, s.key ≠ u.key ∧ s.nodeId = u.nodeId := by
    decide +kernel
  obtain ⟨s, hs, u, hu, hkey, hid⟩ := hshared
  exact hdiffer s hs u hu (fun heq => hkey (congrArg Symbol.key heq)) hid

end Linked

end EventCatalog
