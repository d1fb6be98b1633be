import EventCatalog.Proofs.Compilation.Documents
import EventCatalog.Proofs.Projection.Structural
import EventCatalog.Proofs.Validation.Cycles

/-! # Containment and ownership in compiled graphs

Cycles are found among definitions, and the edges that close one of them are left out, so no edge
of containment or ownership leads to a definition that leads back
(`SymbolTable.Regular.not_transGen_of_edge`).  Edges join nodes, though, and several definitions may
share a node.  Where what is contained or owned shares its node with no other definition that
contains or owns something (`SymbolTable.Unshared`), a way along edges is a way along definitions, and
the graph has no cycle (`compile_acyclic`).  Without that it may have one
(`not_acyclic_of_shared_nodes`). -/

namespace EventCatalog

open Syntax Relation

namespace Graph

/-- A node stands for a domain, a service or an entity. -/
def CanBeCyclic (g : Graph) (id : String) : Prop :=
  ∃ n ∈ g.nodes, n.id = id ∧ ∃ k, n.kind = .definition k ∧ SymbolTable.canBeCyclic k = true

/-- An edge of containment or ownership joins two such nodes. -/
def Encloses (g : Graph) (source target : String) : Prop :=
  g.CanBeCyclic source ∧ g.CanBeCyclic target ∧
    ∃ e ∈ g.edges, e.source = source ∧ e.target = target ∧ e.IsStructural

end Graph

namespace SymbolTable

variable {t : SymbolTable}

/-- What is contained or owned shares its node with no other definition that contains or owns
something and is no duplicate. -/
def Unshared (t : SymbolTable) : Prop :=
  ∀ s u, (∃ a, t.Holds a s) → (∃ b, t.Holds u b) → u.key ∉ t.duplicates.map (·.symbol.key) →
    s.nodeId = u.nodeId → s = u

theorem unshared_of_nodup (h : (t.exports.map Symbol.nodeId).Nodup) : t.Unshared :=
  fun _ _ ⟨_, ha⟩ ⟨_, hb⟩ _ hid =>
    List.inj_on_of_nodup_map h ha.held.exported hb.holder.exported hid

/-! ### Edges that close a cycle -/

theorem findIdx?_congr {α : Type} {p q : α → Bool} {l : List α} (h : ∀ a ∈ l, p a = q a) :
    l.findIdx? p = l.findIdx? q := by
  induction l with
  | nil => rfl
  | cons a l ih =>
    rw [List.findIdx?_cons, List.findIdx?_cons, h a List.mem_cons_self,
      ih fun b hb => h b (List.mem_cons_of_mem _ hb)]

/-- A field says that its holder contains or owns a definition, both of them on one cycle. -/
def WithinCycle (t : SymbolTable) (s : Symbol) (f : Field) : Prop :=
  (∃ side, f.edge = some (.contains, side) ∨ f.edge = some (.owns, side)) ∧
    ∃ c ∈ t.cycles, s ∈ c.members ∧ ∃ u ∈ c.members, t.Means s.document f u

theorem isStructural_iff {d : Definition} {f : Field} (hf : f ∈ d.fields) :
    f.isStructural = true ↔
      ∃ side, f.edge = some (.contains, side) ∨ f.edge = some (.owns, side) := by
  constructor
  · unfold Field.isStructural
    split
    · exact fun _ => ⟨.source, .inl ‹_›⟩
    · exact fun _ => ⟨.source, .inr ‹_›⟩
    · exact nofun
  · rintro ⟨side, hedge | hedge⟩
    · obtain rfl := Projection.outward_of_mem_fields hf _ _ hedge (.inl rfl)
      rw [Field.isStructural, hedge]
    · obtain rfl := Projection.outward_of_mem_fields hf _ _ hedge (.inr rfl)
      rw [Field.isStructural, hedge]

namespace Regular

variable (ht : t.Regular)

include ht

theorem mem_members_iff {c : Cycle} (hc : c ∈ t.cycles) {s u : Symbol} (hs : t.Vertex s)
    (hu : t.Vertex u) (hsu : ReflTransGen t.Holds s u) (hus : ReflTransGen t.Holds u s) :
    s ∈ c.members ↔ u ∈ c.members := by
  obtain ⟨v, -, hmembers⟩ := (ht.reports hc).isComponent
  have hiff : ∀ w, w ∈ c.members ↔ _ := fun w => Set.ext_iff.mp hmembers w
  rw [hiff, hiff]
  constructor
  · rintro ⟨-, hvs, hsv⟩
    exact ⟨hu, hvs.trans hsu, hus.trans hsv⟩
  · rintro ⟨-, hvu, huv⟩
    exact ⟨hs, hvu.trans hus, hsu.trans huv⟩

theorem any_members_iff {c : Cycle} (hc : c ∈ t.cycles) {s : Symbol} (hs : s ∈ t.exports) :
    c.members.any (·.key == s.key) = true ↔ s ∈ c.members := by
  obtain ⟨v, -, hmembers⟩ := (ht.reports hc).isComponent
  rw [List.any_eq_true]
  constructor
  · rintro ⟨u, hu, hkey⟩
    have hvertex : t.Vertex u := (Set.ext_iff.mp hmembers u |>.mp hu).1
    exact ht.eq_of_key_eq hvertex.exported hs (beq_iff_eq.mp hkey) ▸ hu
  · exact fun hmem => ⟨s, hmem, beq_self_eq_true _⟩

/-- Members of one cycle are found on the same cycle. -/
theorem cycleOf?_eq_of_mem_members {duplicates : List (Nat × Nat)} {c : Cycle} (hc : c ∈ t.cycles)
    {s u : Symbol} (hs : s ∈ c.members) (hu : u ∈ c.members) :
    Projection.cycleOf? ⟨t, t.cycles, duplicates⟩ u.key =
      Projection.cycleOf? ⟨t, t.cycles, duplicates⟩ s.key := by
  obtain ⟨v, -, hmembers⟩ := (ht.reports hc).isComponent
  obtain ⟨hs, hvs, hsv⟩ := Set.ext_iff.mp hmembers s |>.mp hs
  obtain ⟨hu, hvu, huv⟩ := Set.ext_iff.mp hmembers u |>.mp hu
  refine findIdx?_congr fun c' hc' => ?_
  rw [Bool.eq_iff_iff, ht.any_members_iff hc' hu.exported, ht.any_members_iff hc' hs.exported,
    ht.mem_members_iff hc' hu hs (huv.trans hvs) (hsv.trans hvu)]

/-- A field closes a cycle just if its holder contains or owns a definition of its own cycle. -/
theorem closesCycle_iff {duplicates : List (Nat × Nat)} {s : Symbol} (hs : s ∈ t.exports)
    {f : Field} (hf : f ∈ s.definition.fields) :
    Projection.closesCycle ⟨t, t.cycles, duplicates⟩ s.document s.definition f = true ↔
      t.WithinCycle s f := by
  have hkey : (s.document, s.definition.id) = s.key := rfl
  rw [Projection.closesCycle, Bool.and_eq_true, Bool.and_eq_true, beq_iff_eq, hkey,
    Option.isSome_iff_exists]
  constructor
  · rintro ⟨⟨hstructural, place, hplace⟩, hsame⟩
    rw [hplace, Option.bind_eq_some_iff] at hsame
    obtain ⟨key, hkey, hkeyplace⟩ := hsame
    obtain ⟨u, hmeans, rfl⟩ := fieldTarget?_eq_some_iff.mp hkey
    have hu := ht.mem_of_means hs hf hmeans
    obtain ⟨hlt, hmem, -⟩ := List.findIdx?_eq_some_iff_getElem.mp hplace
    obtain ⟨_, humem, -⟩ := List.findIdx?_eq_some_iff_getElem.mp hkeyplace
    have hc : t.cycles[place] ∈ t.cycles := List.getElem_mem hlt
    exact ⟨isStructural_iff hf |>.mp hstructural, _, hc, (ht.any_members_iff hc hs).mp hmem,
      u, (ht.any_members_iff hc hu).mp humem, hmeans⟩
  · rintro ⟨hstructural, c, hc, hsmem, u, humem, hmeans⟩
    have hu := ht.mem_of_means hs hf hmeans
    refine ⟨⟨isStructural_iff hf |>.mpr hstructural, ?_⟩, ?_⟩
    · rw [← Option.isSome_iff_exists, Projection.cycleOf?, List.findIdx?_isSome, List.any_eq_true]
      exact ⟨c, hc, (ht.any_members_iff hc hs).mpr hsmem⟩
    · rw [(ht.fieldTarget?_iff hs hu hf).mpr hmeans, Option.bind_some,
        ht.cycleOf?_eq_of_mem_members hc hsmem humem]

/-- A field that leads to a definition which leads back closes a cycle. -/
theorem closesCycle_of_transGen {duplicates : List (Nat × Nat)} {s u : Symbol}
    (hsu : t.Holds s u) (hus : TransGen t.Holds u s) {f : Field} (hf : f ∈ s.definition.fields)
    (hstructural : f.isStructural = true) (hmeans : t.Means s.document f u) :
    Projection.closesCycle ⟨t, t.cycles, duplicates⟩ s.document s.definition f = true := by
  have hself : TransGen t.Holds s s := .head hsu hus
  obtain ⟨c, ⟨hc, hmembers⟩, -⟩ := ht.existsUnique_cycle
    ⟨s, hsu.holder, ht.setOf_membersOf hself⟩ (ht.isCyclic_of_transGen hself)
  have hmem : s ∈ c.members := by
    have := (ht.mem_membersOf hsu.holder).mpr ⟨hself, hself⟩
    exact Set.ext_iff.mp hmembers s |>.mpr this
  have humem : u ∈ c.members :=
    (ht.mem_members_iff hc hsu.holder hsu.held (.single hsu) hus.to_reflTransGen).mp hmem
  rw [ht.closesCycle_iff hsu.holder.exported hf]
  exact ⟨(isStructural_iff hf).mp hstructural, c, hc, hmem, u, humem, hmeans⟩

end Regular

/-! ### The graph of documents -/

variable {generation : Nat} {documents : List Document}

theorem exists_relationships_of_edge {cycles : List Cycle} {duplicates : List (Nat × Nat)}
    (hpaths : (documents.map Document.path).Nodup) {e : Edge}
    (he : .edge e ∈ documents.flatMap
      (Projection.document ⟨link generation documents, cycles, duplicates⟩)) :
    ∃ s ∈ (link generation documents).exports, .edge e ∈ Projection.relationships
      ⟨link generation documents, cycles, duplicates⟩ s.document s.definition := by
  obtain ⟨doc, hdoc, he⟩ := List.mem_flatMap.mp he
  obtain ⟨number, hnumber⟩ := List.mem_iff_getElem?.mp hdoc
  rw [Projection.document, documentAt?_link hpaths hnumber] at he
  simp only at he
  rw [Projection.definitions_eq_flatMap] at he
  obtain ⟨d, hd, he⟩ := List.mem_flatMap.mp he
  obtain ⟨c, hc, he⟩ := Projection.mem_edge_definition he
  exact ⟨⟨number, c⟩, mem_exports_link.mpr ⟨doc, hnumber, Definition.mem_allOf.mpr ⟨d, hd, hc⟩⟩, he⟩

/-- The kind of a node of the graph is that of the definitions with its identifier. -/
theorem canBeCyclic_of_nodeId {cycles : List Cycle} {s : Symbol}
    (h : ((link generation documents).graph cycles documents).CanBeCyclic s.nodeId) :
    canBeCyclic s.kind = true := by
  obtain ⟨n, hn, hid, k, hkind, hk⟩ := h
  have hnamed := (graph_wellFormed generation documents cycles).node_id n hn
  let own : Node := Projection.definitionNode (.ofString "") none s.definition
  have hown : own.IsNamed := Node.isNamed_of_id _ _ rfl
  have hsame : n.kind = .definition s.kind := hnamed.kind_eq hown hid
  rw [hkind] at hsame
  cases hsame
  exact hk

theorem not_canBeCyclic_unresolved {cycles : List Cycle} {r : Reference} :
    ¬((link generation documents).graph cycles documents).CanBeCyclic
      (Projection.unresolvedNode r).id := by
  rintro ⟨n, hn, hid, k, hkind, -⟩
  have hnamed := (graph_wellFormed generation documents cycles).node_id n hn
  have hown : (Projection.unresolvedNode r).IsNamed := Node.isNamed_of_id _ _ rfl
  have hsame := hnamed.kind_eq hown hid
  rw [hkind] at hsame
  cases hsame

/-- An edge of containment or ownership of the graph comes from a definition that contains or owns
another one, and no way leads back. -/
theorem Regular.not_transGen_of_edge (ht : (link generation documents).Regular)
    (hpaths : (documents.map Document.path).Nodup) {source target : String}
    (h : ((link generation documents).graph (link generation documents).cycles
      documents).Encloses source target) :
    ∃ s u, (link generation documents).Holds s u ∧
      ¬TransGen (link generation documents).Holds u s ∧
      s.key ∉ (link generation documents).duplicates.map (·.symbol.key) ∧
      s.nodeId = source ∧ u.nodeId = target := by
  obtain ⟨hsource, htarget, e, he, rfl, rfl, hkind⟩ := h
  obtain ⟨s, hs, he⟩ := exists_relationships_of_edge hpaths (Emission.emitted_of_mem_edges he)
  obtain ⟨hduplicate, hsid, f, hf, hstructural, hcycle, hmeans⟩ :=
    Projection.exists_field_of_edge he hkind
  rcases hmeans with ⟨u, hmeans, hid⟩ | hid
  · rw [hsid] at hsource
    rw [hid] at htarget
    have hu := ht.mem_of_means hs hf hmeans
    have hholds : (link generation documents).Holds s u :=
      ⟨⟨hs, canBeCyclic_of_nodeId hsource⟩, ⟨hu, canBeCyclic_of_nodeId htarget⟩,
        f, hf, hstructural, hmeans⟩
    refine ⟨s, u, hholds, fun hback => ?_, hduplicate, hsid.symm, hid.symm⟩
    rw [ht.closesCycle_of_transGen hholds hback hf hstructural hmeans] at hcycle
    cases hcycle
  · rw [hid] at htarget
    exact absurd htarget not_canBeCyclic_unresolved

/-- A way along edges of the graph is a way along definitions that does not lead back. -/
theorem Regular.exists_way_of_transGen (ht : (link generation documents).Regular)
    (hpaths : (documents.map Document.path).Nodup)
    (hnodes : (link generation documents).Unshared) {source target : String}
    (h : TransGen ((link generation documents).graph (link generation documents).cycles
      documents).Encloses source target) :
    ∃ s u v, (link generation documents).Holds s u ∧
      ¬TransGen (link generation documents).Holds u s ∧
      s.key ∉ (link generation documents).duplicates.map (·.symbol.key) ∧ s.nodeId = source ∧
      ReflTransGen (link generation documents).Holds u v ∧
      (∃ a, (link generation documents).Holds a v) ∧ v.nodeId = target := by
  induction h with
  | single h =>
    obtain ⟨s, u, hsu, hback, hduplicate, hs, hu⟩ := ht.not_transGen_of_edge hpaths h
    exact ⟨s, u, u, hsu, hback, hduplicate, hs, .refl, ⟨s, hsu⟩, hu⟩
  | tail _ h ih =>
    obtain ⟨s, u, v, hsu, hback, hduplicate, hs, huv, hheld, hv⟩ := ih
    obtain ⟨v', w, hvw, -, hduplicate', hv', hw⟩ := ht.not_transGen_of_edge hpaths h
    obtain rfl := hnodes v v' hheld ⟨w, hvw⟩ hduplicate' (hv.trans hv'.symm)
    exact ⟨s, u, w, hsu, hback, hduplicate, hs, huv.tail hvw, ⟨v, hvw⟩, hw⟩

end SymbolTable

/-- Where no definition shares its node in the way of `SymbolTable.Unshared`, the edges of
containment and ownership between domains, services and entities have no cycle. -/
theorem compile_acyclic (config : Config) (resolver : Option ImportResolver)
    (sources : List (String × String))
    (hnodes : (SymbolTable.link 1 (gather config resolver sources).1).Unshared) (id : String) :
    ¬TransGen (compile config resolver sources).graph.Encloses id id := by
  have ht : (SymbolTable.link 1 (gather config resolver sources).1).Regular := by
    refine SymbolTable.regular_link fun d hd => ?_
    obtain ⟨path, text, rfl⟩ := read_of_mem_gather hd
    exact nodup_ids_parse text
  intro h
  obtain ⟨s, u, v, hsu, hback, hduplicate, hs, huv, hheld, hv⟩ :=
    ht.exists_way_of_transGen (nodup_paths_gather config resolver sources) hnodes h
  obtain rfl := hnodes v s hheld ⟨u, hsu⟩ hduplicate (hv.trans hs.symm)
  rcases reflTransGen_iff_eq_or_transGen.mp huv with rfl | huv
  · exact hback (.single hsu)
  · exact hback huv

/-- Definitions that own each other have nodes of their own, and no edge between them is left. -/
theorem compile_acyclic_mutual :
    let sources := [("orders.ec",
      "entity Order \x7b\n  owns entity Line\n\x7d\nentity Line \x7b\n  owns entity Order\n\x7d\n")]
    (SymbolTable.link 1 (gather {} none sources).1).Unshared ∧
      ¬TransGen (compile {} none sources).graph.Encloses "entity:Order" "entity:Order" := by
  intro sources
  have hnodes : (SymbolTable.link 1 (gather {} none sources).1).Unshared := by
    apply SymbolTable.unshared_of_nodup
    rw [gather_none]
    decide +kernel
  exact ⟨hnodes, compile_acyclic {} none sources hnodes "entity:Order"⟩

/-! ### Shared nodes -/

/-- Two documents define an entity of one name, which is no clash since one of them imports the other
one's under another name. -/
def sharedNode : List (String × String) :=
  [("a.ec", "import \x7b E as Other \x7d from \"b.ec\"\nentity E \x7b\n  owns entity F\n\x7d\n"),
    ("b.ec", "entity E\nentity F \x7b\n  owns entity E\n\x7d\n")]

theorem cycles_sharedNode : (SymbolTable.link 1 (readSources sharedNode)).cycles = [] := by
  have hordered : (SymbolTable.link 1 (readSources sharedNode)).orderedSymbols =
      (SymbolTable.link 1 (readSources sharedNode)).cyclicSymbols :=
    List.mergeSort_of_pairwise (by decide +kernel)
  have hnone : ∀ s ∈ (SymbolTable.link 1 (readSources sharedNode)).cyclicSymbols,
      (SymbolTable.link 1 (readSources sharedNode)).componentKeys s = [] := by
    decide +kernel
  rw [SymbolTable.cycles_eq, hordered, List.filterMap_eq_nil_iff]
  intro s hs
  rw [SymbolTable.cycleFrom?, SymbolTable.membersOf, hnone s hs]
  simp

theorem graph_sharedNode :
    (compile {} none sharedNode).graph.nodes.map (fun n => (n.id, n.kind)) =
        [("entity:E", .definition .entity), ("entity:F", .definition .entity)] ∧
      (compile {} none sharedNode).graph.edges =
        [⟨"entity:E", .owns, "entity:F", none⟩, ⟨"entity:F", .owns, "entity:E", none⟩] := by
  rw [(compile_none {} sharedNode 1).1, Linked.link]
  simp only [cycles_sharedNode]
  decide +kernel

/-- Where definitions share a node, ownership may go round in the graph though it does not among
definitions. -/
theorem not_acyclic_of_shared_nodes :
    ¬∀ (config : Config) (resolver : Option ImportResolver) (sources : List (String × String))
      (id : String), ¬TransGen (compile config resolver sources).graph.Encloses id id := by
  intro h
  obtain ⟨hnodes, hedges⟩ := graph_sharedNode
  have hcyclic : ∀ id, (id, NodeKind.definition .entity) ∈
      [("entity:E", NodeKind.definition .entity), ("entity:F", .definition .entity)] →
        (compile {} none sharedNode).graph.CanBeCyclic id := by
    intro id hid
    rw [← hnodes] at hid
    obtain ⟨n, hn, heq⟩ := List.mem_map.mp hid
    obtain ⟨hid, hkind⟩ := Prod.mk.inj heq
    exact ⟨n, hn, hid, .entity, hkind, rfl⟩
  have hedge : ∀ source target, (⟨source, .owns, target, none⟩ : Edge) ∈
      [(⟨"entity:E", .owns, "entity:F", none⟩ : Edge), ⟨"entity:F", .owns, "entity:E", none⟩] →
      (compile {} none sharedNode).graph.CanBeCyclic source →
      (compile {} none sharedNode).graph.CanBeCyclic target →
        (compile {} none sharedNode).graph.Encloses source target :=
    fun source target hmem hsource htarget =>
      ⟨hsource, htarget, _, hedges ▸ hmem, rfl, rfl, .inr rfl⟩
  have hE := hcyclic "entity:E" (by simp)
  have hF := hcyclic "entity:F" (by simp)
  refine h {} none sharedNode "entity:E" (.tail (.single (hedge _ "entity:F" ?_ hE hF))
    (hedge _ _ ?_ hF hE))
  · simp
  · simp

end EventCatalog
