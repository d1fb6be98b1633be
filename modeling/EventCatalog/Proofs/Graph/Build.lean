import EventCatalog.Projection
import Mathlib.Data.List.Induction

/-! # What a graph keeps of its emissions

A graph keeps the first of the nodes, and of the edges, that share an identifier.  `firsts` says
this of lists, and `Emission.build_nodes_apart` and `Emission.build_edges` say it of graphs: the
order is that of the emissions, and all that is known of a node but its contracts is known when it is
emitted. -/

namespace EventCatalog

/-! ### First occurrences -/

section Firsts

variable {α : Type} (key : α → String)

/-- The items with one more, unless its key is taken. -/
def addFirst (items : List α) (a : α) : List α :=
  if key a ∈ items.map key then items else items ++ [a]

/-- The items whose keys do not occur before them. -/
def firsts (items : List α) : List α := items.foldl (addFirst key) []

variable {key}

theorem mem_of_mem_addFirst {items : List α} {a b : α} (h : b ∈ addFirst key items a) :
    b ∈ items ∨ b = a := by
  unfold addFirst at h
  split at h
  · exact .inl h
  · rwa [List.mem_append, List.mem_singleton] at h

theorem mem_keys_addFirst (items : List α) (a : α) (k : String) :
    k ∈ (addFirst key items a).map key ↔ k ∈ items.map key ∨ k = key a := by
  unfold addFirst
  split
  · constructor
    · exact .inl
    · rintro (h | rfl)
      · exact h
      · assumption
  · rw [List.map_append, List.mem_append, List.map_singleton, List.mem_singleton]

theorem nodup_addFirst {items : List α} (h : (items.map key).Nodup) (a : α) :
    ((addFirst key items a).map key).Nodup := by
  unfold addFirst
  split
  · exact h
  · rename_i hnew
    rw [List.map_append, List.map_singleton]
    refine List.nodup_append.mpr ⟨h, List.pairwise_singleton _ _, ?_⟩
    rintro k hk k' hk' rfl
    rw [List.mem_singleton] at hk'
    exact hnew (hk' ▸ hk)

theorem foldl_addFirst (items others : List α) :
    (∀ a ∈ items.foldl (addFirst key) others, a ∈ others ∨ a ∈ items) ∧
      (∀ k, k ∈ (items.foldl (addFirst key) others).map key ↔
        k ∈ others.map key ∨ k ∈ items.map key) ∧
      ((others.map key).Nodup → ((items.foldl (addFirst key) others).map key).Nodup) := by
  induction items generalizing others with
  | nil => simp
  | cons a items ih =>
    obtain ⟨hmem, hkeys, hnodup⟩ := ih (addFirst key others a)
    rw [List.foldl_cons]
    refine ⟨fun b hb => ?_, fun k => ?_, fun h => hnodup (nodup_addFirst h a)⟩
    · obtain hb | hb := hmem b hb
      · obtain hb | rfl := mem_of_mem_addFirst hb
        · exact .inl hb
        · exact .inr List.mem_cons_self
      · exact .inr (List.mem_cons_of_mem _ hb)
    · rw [hkeys, mem_keys_addFirst, List.map_cons, List.mem_cons, or_assoc]

theorem mem_of_mem_firsts {items : List α} {a : α} (h : a ∈ firsts key items) : a ∈ items :=
  ((foldl_addFirst items []).1 a h).resolve_left List.not_mem_nil

theorem mem_keys_firsts {items : List α} {k : String} :
    k ∈ (firsts key items).map key ↔ k ∈ items.map key := by
  rw [firsts, (foldl_addFirst items []).2.1 k]
  simp

theorem nodup_keys_firsts (items : List α) : ((firsts key items).map key).Nodup :=
  (foldl_addFirst items []).2.2 .nil

theorem firsts_append_singleton (items : List α) (a : α) :
    firsts key (items ++ [a]) = addFirst key (firsts key items) a := by
  rw [firsts, List.foldl_append]
  rfl

/-- Where no key is repeated, all items stay. -/
theorem firsts_of_nodup {items : List α} (h : (items.map key).Nodup) : firsts key items = items := by
  induction items using List.reverseRecOn with
  | nil => rfl
  | append_singleton items a ih =>
    rw [List.map_append, List.nodup_append] at h
    obtain ⟨hitems, -, hne⟩ := h
    have hnew : key a ∉ items.map key := fun hmem =>
      hne _ hmem _ (List.mem_singleton_self _) rfl
    rw [firsts_append_singleton, ih hitems, addFirst, if_neg hnew]

/-- The first items can be picked out of some items, if items of one key are picked together. -/
theorem filterMap_firsts {β : Type} {key' : β → String} {f : α → Option β} {items : List α}
    (hkey : ∀ a b, f a = some b → key' b = key a)
    (htogether : ∀ a ∈ items, ∀ b ∈ items, key a = key b → (f a).isSome = (f b).isSome) :
    (firsts key items).filterMap f = firsts key' (items.filterMap f) := by
  induction items using List.reverseRecOn with
  | nil => rfl
  | append_singleton items a ih =>
    have hpicked := ih fun b hb c hc =>
      htogether b (List.mem_append_left _ hb) c (List.mem_append_left _ hc)
    rw [firsts_append_singleton, List.filterMap_append, List.filterMap_cons]
    cases ha : f a with
    | none =>
      rw [List.filterMap_nil, List.append_nil, ← hpicked, addFirst]
      split
      · rfl
      · simp [ha]
    | some b =>
      have htaken : key a ∈ (firsts key items).map key ↔
          key' b ∈ (firsts key' (items.filterMap f)).map key' := by
        rw [mem_keys_firsts, mem_keys_firsts, hkey a b ha, List.mem_map, List.mem_map]
        constructor
        · rintro ⟨c, hc, hca⟩
          have hsome := htogether c (List.mem_append_left _ hc) a
            (List.mem_append_right _ (List.mem_singleton_self a)) hca
          rw [ha] at hsome
          obtain ⟨d, hd⟩ := Option.isSome_iff_exists.mp hsome
          exact ⟨d, List.mem_filterMap.mpr ⟨c, hc, hd⟩, (hkey c d hd).trans hca⟩
        · rintro ⟨d, hd, hda⟩
          obtain ⟨c, hc, hcd⟩ := List.mem_filterMap.mp hd
          exact ⟨c, hc, (hkey c d hcd).symm.trans hda⟩
      rw [List.filterMap_nil, firsts_append_singleton, ← hpicked, addFirst, addFirst]
      rw [← hpicked] at htaken
      by_cases hmem : key a ∈ (firsts key items).map key
      · rw [if_pos hmem, if_pos (htaken.mp hmem)]
      · rw [if_neg hmem, if_neg (mt htaken.mpr hmem), List.filterMap_append, List.filterMap_cons, ha,
          List.filterMap_nil]

theorem map_firsts {β : Type} {key' : β → String} {f : α → β} {items : List α}
    (hkey : ∀ a, key' (f a) = key a) : (firsts key items).map f = firsts key' (items.map f) := by
  rw [← List.filterMap_eq_map]
  refine filterMap_firsts (fun a b h => ?_) fun _ _ _ _ _ => rfl
  rw [← Option.some.inj h]
  exact hkey a

/-- What stays is the first item of its key. -/
theorem find?_of_mem_firsts {items : List α} {a : α} (h : a ∈ firsts key items) :
    items.find? (key · == key a) = some a := by
  induction items using List.reverseRecOn with
  | nil => cases h
  | append_singleton items b ih =>
    rw [firsts_append_singleton, addFirst] at h
    rw [List.find?_append]
    split at h
    · rw [ih h, Option.some_or]
    · rename_i hnew
      obtain h | h := List.mem_append.mp h
      · rw [ih h, Option.some_or]
      · obtain rfl := List.mem_singleton.mp h
        have hnone : items.find? (key · == key a) = none := by
          refine List.find?_eq_none.mpr fun c hc hkey => hnew ?_
          rw [mem_keys_firsts, ← beq_iff_eq.mp hkey]
          exact List.mem_map_of_mem hc
        rw [hnone, Option.none_or, List.find?_singleton, beq_self_eq_true, if_pos rfl]

end Firsts

/-! ### Nodes without what is set later -/

namespace Node

/-- A node without its metadata. -/
def bare (n : Node) : Node := { n with metadata := [] }

/-- A node without contracts, which may be set when it has been emitted. -/
def apart (n : Node) : Node :=
  { n with metadata := n.metadata.filter (·.1 != "contracts") }

end Node

theorem Datum.filter_insert (key : String) (value : Datum) (entries : List (String × Datum)) :
    (insert key value entries).filter (·.1 != key) = entries.filter (·.1 != key) := by
  induction entries with
  | nil => simp [insert]
  | cons entry entries ih =>
    obtain ⟨k, v⟩ := entry
    rw [insert]
    split
    · simp
    · rename_i heq
      obtain rfl := Std.LawfulEqOrd.eq_of_compare heq
      simp
    · rw [List.filter_cons, List.filter_cons, ih]

namespace Emission

/-- The node that is emitted. -/
def node? : Emission → Option Node
  | node n => some n
  | _ => none

/-- The edge that is emitted. -/
def edge? : Emission → Option Edge
  | edge e => some e
  | _ => none

theorem mem_nodes {n : Node} {es : List Emission} : n ∈ es.filterMap node? ↔ .node n ∈ es := by
  rw [List.mem_filterMap]
  constructor
  · rintro ⟨x, hx, h⟩
    cases x <;> cases h
    exact hx
  · exact fun h => ⟨_, h, rfl⟩

theorem mem_edges {e : Edge} {es : List Emission} : e ∈ es.filterMap edge? ↔ .edge e ∈ es := by
  rw [List.mem_filterMap]
  constructor
  · rintro ⟨x, hx, h⟩
    cases x <;> cases h
    exact hx
  · exact fun h => ⟨_, h, rfl⟩

theorem edges_addNode (g : Graph) (n : Node) : (g.addNode n).edges = g.edges := by
  unfold Graph.addNode
  split <;> rfl

theorem nodes_addEdge (g : Graph) (e : Edge) : (g.addEdge e).nodes = g.nodes := by
  unfold Graph.addEdge
  split <;> rfl

theorem edges_addEdge (g : Graph) (e : Edge) :
    (g.addEdge e).edges = addFirst Edge.id g.edges e := by
  have h : (g.edge? e.id).isSome = true ↔ e.id ∈ g.edges.map Edge.id := by
    rw [Graph.edge?, List.find?_isSome, List.mem_map]
    simp
  unfold Graph.addEdge addFirst
  by_cases hmem : e.id ∈ g.edges.map Edge.id
  · rw [if_pos (h.mpr hmem), if_pos hmem]
  · rw [if_neg (mt h.mp hmem), if_neg hmem]

theorem apart_addNode (g : Graph) (n : Node) :
    (g.addNode n).nodes.map Node.apart = addFirst Node.id (g.nodes.map Node.apart) n.apart := by
  have h : (g.node? n.id).isSome = true ↔
      n.apart.id ∈ (g.nodes.map Node.apart).map Node.id := by
    rw [Graph.node?, List.find?_isSome, List.map_map, List.mem_map]
    simp [Node.apart]
  unfold Graph.addNode addFirst
  by_cases hmem : n.apart.id ∈ (g.nodes.map Node.apart).map Node.id
  · rw [if_pos (h.mpr hmem), if_pos hmem]
  · rw [if_neg (mt h.mp hmem), if_neg hmem, List.map_append, List.map_singleton]

theorem apart_setMetadata (g : Graph) (id : String) (value : Datum) :
    (g.setMetadata id "contracts" value).nodes.map Node.apart = g.nodes.map Node.apart := by
  rw [Graph.setMetadata, List.map_map]
  refine List.map_congr_left fun n _ => ?_
  simp only [Function.comp_apply]
  split
  · rw [Node.apart, Datum.filter_insert]
    rfl
  · rfl

theorem foldl_addTo (g : Graph) (es : List Emission) :
    (es.foldl addTo g).nodes.map Node.apart =
        ((es.filterMap node?).map Node.apart).foldl (addFirst Node.id) (g.nodes.map Node.apart) ∧
      (es.foldl addTo g).edges = (es.filterMap edge?).foldl (addFirst Edge.id) g.edges := by
  induction es generalizing g with
  | nil => exact ⟨rfl, rfl⟩
  | cons x es ih =>
    obtain ⟨hnodes, hedges⟩ := ih (addTo g x)
    rw [List.foldl_cons, hnodes, hedges]
    cases x with
    | node n => exact ⟨by rw [addTo, apart_addNode]; rfl, by rw [addTo, edges_addNode]; rfl⟩
    | edge e => exact ⟨by rw [addTo, nodes_addEdge]; rfl, by rw [addTo, edges_addEdge]; rfl⟩
    | contracts id value => exact ⟨by rw [addTo, apart_setMetadata]; rfl, rfl⟩

/-- Up to contracts, the nodes are the first emitted ones of each identifier. -/
theorem build_nodes_apart (es : List Emission) :
    (build es).nodes.map Node.apart = firsts Node.id ((es.filterMap node?).map Node.apart) :=
  (foldl_addTo {} es).1

/-- Up to metadata, the nodes are the first emitted ones of each identifier. -/
theorem build_nodes (es : List Emission) :
    (build es).nodes.map Node.bare = firsts Node.id ((es.filterMap node?).map Node.bare) := by
  have hbare : ∀ nodes : List Node, (nodes.map Node.apart).map Node.bare = nodes.map Node.bare := by
    intro nodes
    rw [List.map_map]
    rfl
  have hid : ∀ n : Node, n.bare.id = n.id := fun _ => rfl
  rw [← hbare, build_nodes_apart, map_firsts hid, hbare]

/-- The edges are the first emitted ones of each identifier. -/
theorem build_edges (es : List Emission) :
    (build es).edges = firsts Edge.id (es.filterMap edge?) :=
  (foldl_addTo {} es).2

/-- A graph has the identifiers of the emitted nodes. -/
theorem mem_ids_build {es : List Emission} {id : String} :
    id ∈ (build es).nodes.map Node.id ↔ ∃ n, .node n ∈ es ∧ n.id = id := by
  have hids : (build es).nodes.map Node.id = ((build es).nodes.map Node.bare).map Node.id := by
    rw [List.map_map]
    rfl
  rw [hids, build_nodes, mem_keys_firsts, List.map_map, List.mem_map]
  simp only [mem_nodes]
  rfl

theorem nodup_ids_build (es : List Emission) : ((build es).nodes.map Node.id).Nodup := by
  have h : ((firsts Node.id ((es.filterMap node?).map Node.bare)).map Node.id).Nodup :=
    nodup_keys_firsts _
  rw [← build_nodes, List.map_map] at h
  exact h

/-- Each node of a graph has been emitted, up to its metadata. -/
theorem exists_emitted {es : List Emission} {n : Node} (h : n ∈ (build es).nodes) :
    ∃ n', .node n' ∈ es ∧ n'.bare = n.bare := by
  have hbare := List.mem_map_of_mem (f := Node.bare) h
  rw [build_nodes] at hbare
  obtain ⟨n', hn', heq⟩ := List.mem_map.mp (mem_of_mem_firsts hbare)
  exact ⟨n', mem_nodes.mp hn', heq⟩

theorem nodup_edge_ids_build (es : List Emission) : ((build es).edges.map Edge.id).Nodup := by
  rw [build_edges]
  exact nodup_keys_firsts _

theorem emitted_of_mem_edges {es : List Emission} {e : Edge} (h : e ∈ (build es).edges) :
    .edge e ∈ es := by
  rw [build_edges] at h
  exact mem_edges.mp (mem_of_mem_firsts h)

end Emission

end EventCatalog
