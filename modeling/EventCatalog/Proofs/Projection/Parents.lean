import EventCatalog.Proofs.Projection.Structural

/-! # Definitions in their places

`Document.placements` lists the definitions of a document, each before those inside it and with the
definitions around it, the innermost first.  These are just the definitions that stand somewhere in
the document (`Document.mem_placements_iff`).

The emissions of a document make the nodes of its placements, in this order, and no other node of a
definition (`Projection.definitions_document`).  So the graph has, up to contracts, the nodes of the first
placements of each identifier (`SymbolTable.definitions_graph`). -/

namespace EventCatalog

open Syntax

/-- A definition of the document at a path, with the definitions around it, the innermost first. -/
structure Placement where
  path : DocumentPath
  around : List Definition
  definition : Definition

namespace Placement

variable (p : Placement)

/-- The place of a definition that is written directly inside. -/
def inside (c : Definition) : Placement := ⟨p.path, p.definition :: p.around, c⟩

/-- The identifier of the node of the nearest domain around the definition. -/
def parent : Option String := (p.around.find? (·.kind = .domain)).map Definition.nodeId

/-- The node that the definition makes at its place. -/
def node : Node := Projection.definitionNode p.path p.parent p.definition

/-- Inside a definition the nearest domain is the definition itself or the one around it. -/
theorem parent_inside (c : Definition) :
    (p.inside c).parent = Projection.parentInside p.parent p.definition := by
  unfold parent inside Projection.parentInside
  rw [List.find?_cons]
  by_cases h : p.definition.kind = .domain <;> simp [h]

end Placement

namespace Syntax.Definition

mutual

/-- The places of a definition and of those inside it. -/
def placements (path : DocumentPath) (around : List Definition) : Definition → List Placement
  | d@⟨_, _, _, _, _, _, _, nested, _⟩ =>
    ⟨path, around, d⟩ :: placementsOf path (d :: around) nested

/-- The places of definitions one after another and of those inside them. -/
def placementsOf (path : DocumentPath) (around : List Definition) :
    List Definition → List Placement
  | [] => []
  | d :: ds => placements path around d ++ placementsOf path around ds

end

variable {path : DocumentPath} {around : List Definition}

theorem placements_eq (d : Definition) : d.placements path around =
    ⟨path, around, d⟩ :: placementsOf path (d :: around) d.nested := by
  cases d
  rw [placements]

theorem placementsOf_eq_flatMap (ds : List Definition) :
    placementsOf path around ds = ds.flatMap (placements path around) := by
  induction ds with
  | nil => rw [placementsOf, List.flatMap_nil]
  | cons d ds ih => rw [placementsOf, ih, List.flatMap_cons]

theorem map_definition_placements (d : Definition) (around : List Definition) :
    (d.placements path around).map Placement.definition = d.all := by
  induction d using Definition.induction generalizing around with
  | h d ih =>
    rw [placements_eq, placementsOf_eq_flatMap, List.map_cons, List.map_flatMap, all_eq,
      allOf_eq_flatMap, List.flatMap_congr fun c hc => ih c hc (d :: around)]

/-- With a place there are the places directly inside it. -/
theorem inside_mem_placements {d : Definition} {p : Placement} {c : Definition}
    (hp : p ∈ d.placements path around) (hc : c ∈ p.definition.nested) :
    p.inside c ∈ d.placements path around := by
  induction d using Definition.induction generalizing around with
  | h d ih =>
    rw [placements_eq, placementsOf_eq_flatMap] at hp ⊢
    apply List.mem_cons_of_mem
    obtain rfl | hp := List.mem_cons.mp hp
    · refine List.mem_flatMap.mpr ⟨c, hc, ?_⟩
      rw [placements_eq]
      exact List.mem_cons_self
    · obtain ⟨e, he, hp⟩ := List.mem_flatMap.mp hp
      exact List.mem_flatMap.mpr ⟨e, he, ih e he hp⟩

end Syntax.Definition

namespace Document

/-- A definition stands at the top of a document or in another one that does. -/
inductive Holds (document : Document) : List Definition → Definition → Prop
  | top {d : Definition} : d ∈ document.program.definitions → Holds document [] d
  | inside {around : List Definition} {d c : Definition} :
    Holds document around d → c ∈ d.nested → Holds document (d :: around) c

variable {document : Document}

/-- The places of all definitions of a document. -/
def placements (document : Document) : List Placement :=
  Definition.placementsOf document.path [] document.program.definitions

theorem holds_of_mem_placements {around : List Definition} {d : Definition} {p : Placement}
    (hd : document.Holds around d) (hp : p ∈ d.placements document.path around) :
    p.path = document.path ∧ document.Holds p.around p.definition := by
  induction d using Definition.induction generalizing around with
  | h d ih =>
    rw [Definition.placements_eq, Definition.placementsOf_eq_flatMap] at hp
    obtain rfl | hp := List.mem_cons.mp hp
    · exact ⟨rfl, hd⟩
    · obtain ⟨c, hc, hp⟩ := List.mem_flatMap.mp hp
      exact ih c hc (hd.inside hc) hp

/-- The places of a document are those at which a definition stands. -/
theorem mem_placements_iff {p : Placement} :
    p ∈ document.placements ↔ p.path = document.path ∧ document.Holds p.around p.definition := by
  rw [placements, Definition.placementsOf_eq_flatMap, List.mem_flatMap]
  constructor
  · rintro ⟨d, hd, hp⟩
    exact holds_of_mem_placements (.top hd) hp
  · obtain ⟨path, around, d⟩ := p
    rintro ⟨rfl, h⟩
    dsimp only at h
    induction h with
    | @top d hd =>
      refine ⟨d, hd, ?_⟩
      rw [Definition.placements_eq]
      exact List.mem_cons_self
    | inside _ hc ih =>
      obtain ⟨e, he, hp⟩ := ih
      exact ⟨e, he, Definition.inside_mem_placements hp hc⟩

theorem map_definition_placements (document : Document) :
    document.placements.map Placement.definition = document.exports := by
  rw [placements, Definition.placementsOf_eq_flatMap, List.map_flatMap, exports, Program.all,
    Definition.allOf_eq_flatMap]
  exact List.flatMap_congr fun d _ => d.map_definition_placements []

end Document

/-! ### Emissions -/

/-- A node that stands for a definition, without contracts. -/
def Node.definition? (n : Node) : Option Node := n.kind.kind?.map fun _ => n.apart

theorem Node.id_of_definition? {n m : Node} (h : n.definition? = some m) : m.id = n.id := by
  obtain ⟨kind, -, rfl⟩ := Option.map_eq_some_iff.mp h
  rfl

namespace Emission

/-- The node of a definition that is emitted. -/
def definition? : Emission → Option Node
  | node n => n.definition?
  | _ => none

theorem filterMap_definition? (es : List Emission) :
    (es.filterMap node?).filterMap Node.definition? = es.filterMap definition? := by
  rw [List.filterMap_filterMap]
  congr 1
  funext x
  cases x <;> rfl

/-- Of the nodes of definitions that have one identifier, the graph has the first. -/
theorem definitions_build {es : List Emission} (hnamed : ∀ n, .node n ∈ es → n.IsNamed) :
    (build es).nodes.filterMap Node.definition? = firsts Node.id (es.filterMap definition?) := by
  have hapart : ∀ nodes : List Node,
      (nodes.map Node.apart).filterMap Node.definition? = nodes.filterMap Node.definition? := by
    intro nodes
    have hagain : ∀ n : Node, n.apart.definition? = n.definition? := by
      intro n
      simp only [Node.definition?, Node.apart, List.filter_filter, Bool.and_self]
    rw [List.filterMap_map]
    exact List.filterMap_congr fun n _ => hagain n
  rw [← hapart, build_nodes_apart, ← filterMap_definition?, ← hapart (es.filterMap node?)]
  apply filterMap_firsts
  · exact fun n m h => Node.id_of_definition? h
  · -- An identifier tells the kind, and the kind tells whether the node stands for a definition.
    intro n hn m hm hid
    obtain ⟨n', hn', rfl⟩ := List.mem_map.mp hn
    obtain ⟨m', hm', rfl⟩ := List.mem_map.mp hm
    have hkind : n'.kind = m'.kind :=
      (hnamed n' (mem_nodes.mp hn')).kind_eq (hnamed m' (mem_nodes.mp hm')) hid
    simp only [Node.definition?, Option.isSome_map, Node.apart, hkind]

end Emission

namespace Projection

variable {p : Projection} (number : Nat)

/-- A definition makes the nodes of its places and no other node of a definition. -/
theorem definitions_definition (path : DocumentPath) (around : List Definition) (d : Definition) :
    (p.definition number path (Placement.parent ⟨path, around, d⟩) d).filterMap
        Emission.definition? =
      (d.placements path around).map fun q => q.node.apart := by
  induction d using Definition.induction generalizing around with
  | h d ih =>
    have hrelationships : (p.relationships number d).filterMap Emission.definition? = [] := by
      refine List.filterMap_eq_nil_iff.mpr fun x hx => ?_
      cases x with
      | node n => exact Option.map_eq_none_iff.mpr (kind?_of_mem_relationships hx)
      | edge e => rfl
      | contracts id value => rfl
    let place : Placement := ⟨path, around, d⟩
    have hself : Emission.definition? (.node (definitionNode path place.parent d)) =
        some place.node.apart := rfl
    have hinside : ∀ c ∈ d.nested, (p.definition number path
        (parentInside place.parent d) c).filterMap Emission.definition? =
          (c.placements path (d :: around)).map fun q => q.node.apart := by
      intro c hc
      rw [← place.parent_inside c]
      exact ih c hc (d :: around)
    rw [definition_eq, definitions_eq_flatMap, List.filterMap_append, List.filterMap_cons, hself,
      hrelationships, List.filterMap_flatMap, Definition.placements_eq,
      Definition.placementsOf_eq_flatMap, List.map_cons, List.map_flatMap, List.cons_append,
      List.nil_append, List.flatMap_congr hinside]

theorem definitions_document {d : Document} (hnumber : (p.table.documentAt? d.path).isSome) :
    (p.document d).filterMap Emission.definition? = d.placements.map fun q => q.node.apart := by
  obtain ⟨number, hnumber⟩ := Option.isSome_iff_exists.mp hnumber
  rw [document, hnumber, Document.placements, Definition.placementsOf_eq_flatMap, List.map_flatMap]
  dsimp only
  rw [definitions_eq_flatMap, List.filterMap_flatMap]
  exact List.flatMap_congr fun c _ => definitions_definition number d.path [] c

end Projection

/-! ### Graphs -/

namespace SymbolTable

variable (generation : Nat) (documents : List Document) (cycles : List Cycle)

/-- The graph of linked documents has, up to contracts, the nodes of the first placements of each
identifier. -/
theorem definitions_graph :
    ((link generation documents).graph cycles documents).nodes.filterMap Node.definition? =
      firsts Node.id ((documents.flatMap Document.placements).map fun q => q.node.apart) := by
  have hgrounded := documents_grounded generation documents cycles
    ((link generation documents).duplicates.map (·.symbol.key))
  refine (Emission.definitions_build fun n hn => hgrounded.named n hn).trans ?_
  rw [List.filterMap_flatMap, List.map_flatMap]
  exact congrArg _ (List.flatMap_congr fun d hd =>
    Projection.definitions_document (documentAt?_isSome hd))

/-- Each place has a node of a definition under its identifier. -/
theorem exists_definition {p : Placement} (hp : p ∈ documents.flatMap Document.placements) :
    ∃ n ∈ ((link generation documents).graph cycles documents).nodes,
      n.id = p.definition.nodeId ∧ ∃ kind, n.kind = .definition kind := by
  have hkey : p.definition.nodeId ∈ (((link generation documents).graph cycles
      documents).nodes.filterMap Node.definition?).map Node.id := by
    rw [definitions_graph, mem_keys_firsts, List.map_map]
    exact List.mem_map_of_mem (f := fun q : Placement => q.definition.nodeId) hp
  obtain ⟨m, hm, hid⟩ := List.mem_map.mp hkey
  obtain ⟨n, hn, hdefinition⟩ := List.mem_filterMap.mp hm
  refine ⟨n, hn, (Node.id_of_definition? hdefinition).symm.trans hid, ?_⟩
  obtain ⟨kind, hkind, -⟩ := Option.map_eq_some_iff.mp hdefinition
  cases h : n.kind <;> rw [h] at hkind <;> cases hkind
  exact ⟨kind, rfl⟩

/-- A node of a definition is that of the first place of its identifier. -/
theorem exists_first {n : Node}
    (hn : n ∈ ((link generation documents).graph cycles documents).nodes) {kind : Kind}
    (hkind : n.kind = .definition kind) :
    ∃ first, (documents.flatMap Document.placements).find? (·.definition.nodeId == n.id) =
      some first ∧ n.apart = first.node.apart := by
  have hdefinition : n.definition? = some n.apart := by
    rw [Node.definition?, hkind]
    rfl
  have hmem := List.mem_filterMap.mpr ⟨n, hn, hdefinition⟩
  rw [definitions_graph] at hmem
  have hfind := find?_of_mem_firsts hmem
  rw [List.find?_map] at hfind
  obtain ⟨first, hfirst, heq⟩ := Option.map_eq_some_iff.mp hfind
  exact ⟨first, hfirst, heq.symm⟩

end SymbolTable

end EventCatalog
