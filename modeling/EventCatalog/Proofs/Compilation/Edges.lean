import EventCatalog.Proofs.Compilation.Sources
import EventCatalog.Proofs.Projection.Links

/-! # The edges of compiled graphs

Where names, versions and selectors have no colon, no two edges with different ends or kinds have
one identifier.  Then the edges of a compiled graph are those that definitions declare which are no
duplicates.  Between the steps of flows there are the declared edges in order, of several with the
same ends the first (`compile_flow_steps`); apart from these the graph has an edge just where a
definition declares one (`compile_relationships`). -/

namespace EventCatalog

open Syntax

/-- There is an edge of a kind from a node to a node. -/
def Graph.Joins (g : Graph) (source : String) (kind : EdgeKind) (target : String) : Prop :=
  ∃ label, ⟨source, kind, target, label⟩ ∈ g.edges

section

variable (config : Config) (resolver : Option ImportResolver) (sources : List (String × String))

theorem SymbolTable.regular_gather :
    (SymbolTable.link 1 (gather config resolver sources).1).Regular := by
  refine SymbolTable.regular_link fun d hd => ?_
  obtain ⟨path, text, rfl⟩ := read_of_mem_gather hd
  exact nodup_ids_parse text

/-- A compiled graph is built from the edges that the definitions make which are no duplicates. -/
theorem exists_emissions_compile :
    let t := SymbolTable.link 1 (gather config resolver sources).1
    ∃ es, (compile config resolver sources).graph = Emission.build es ∧
      es.filterMap Emission.edge? = t.originals.flatMap t.declaredEdges :=
  ⟨_, rfl, SymbolTable.edges_originals (nodup_paths_gather config resolver sources)⟩

theorem isPlain_of_mem_declaredEdges
    (hcolons : (SymbolTable.link 1 (gather config resolver sources).1).Colonless) :
    let t := SymbolTable.link 1 (gather config resolver sources).1
    ∀ e ∈ t.originals.flatMap t.declaredEdges, e.IsPlain := by
  intro t e he
  obtain ⟨s, hs, he⟩ := List.mem_flatMap.mp he
  exact hcolons.isPlain (SymbolTable.mem_originals.mp hs).1
    (SymbolTable.regular_gather config resolver sources) he

/-! ### Steps of flows -/

/-- Between steps there are exactly the edges that flows declare, in order and without those whose
ends come before, and none from the end of a chain to the beginning of another. -/
theorem compile_flow_steps
    (hcolons : (SymbolTable.link 1 (gather config resolver sources).1).Colonless) :
    let t := SymbolTable.link 1 (gather config resolver sources).1
    (compile config resolver sources).graph.edgesOf .flowStep =
        (t.originals.flatMap t.declaredSteps).eraseDupsBy Edge.sameEnds ∧
      ∀ e ∈ (compile config resolver sources).graph.edgesOf .flowStep,
        ∃ s ∈ t.originals, ∃ b, s.definition.body = .flow b ∧ t.Declares s b e := by
  intro t
  obtain ⟨es, hgraph, hes⟩ := exists_emissions_compile config resolver sources
  have hplain : ∀ e ∈ es.filterMap Emission.edge?, e.IsPlain :=
    hes ▸ isPlain_of_mem_declaredEdges config resolver sources hcolons
  have hsteps : (es.filterMap Emission.edge?).filter (·.kind == .flowStep) =
      t.originals.flatMap t.declaredSteps := by
    rw [hes, List.filter_flatMap]
    exact List.flatMap_congr fun s _ => t.filter_declaredEdges s
  constructor
  · rw [hgraph, Emission.edgesOf_build hplain, hsteps]
  · intro e he
    rw [hgraph, Graph.edgesOf, List.mem_filter] at he
    have hemitted := Emission.mem_edges.mpr (Emission.emitted_of_mem_edges he.1)
    have hdeclared : e ∈ t.originals.flatMap t.declaredSteps :=
      hsteps ▸ List.mem_filter.mpr ⟨hemitted, he.2⟩
    obtain ⟨s, hs, he⟩ := List.mem_flatMap.mp hdeclared
    exact ⟨s, hs, t.mem_declaredSteps.mp he⟩

/-- What ends a chain does not lead to what begins the next one, and a step that comes again keeps
its first label. -/
theorem compile_flow_steps_checkout :
    let sources := [("checkout.ec",
      "flow Checkout \x7b\n  \"Buys\" -> Order \"submits\" -> Ordered\n" ++
      "  Reserved -> Order \"again\" -> Ordered\n" ++
      "  when Ordered and Reserved\n    Pay \"charge\" -> \"ok\": Paid\n\x7d\ncommand Order\n")]
    (SymbolTable.link 1 (gather {} none sources).1).Colonless ∧
      ((compile {} none sources).graph.edgesOf .flowStep).map
          (fun e => (e.source, e.target, e.label)) =
        [("step:Checkout/0.0", "command:Order", none),
          ("command:Order", "unresolved:Ordered", some "submits"),
          ("unresolved:Reserved", "command:Order", none),
          ("unresolved:Ordered", "unresolved:Pay", some "charge"),
          ("unresolved:Reserved", "unresolved:Pay", some "charge"),
          ("unresolved:Pay", "unresolved:Paid", some "ok")] := by
  intro sources
  have hcolons : (SymbolTable.link 1 (gather {} none sources).1).Colonless := by
    rw [gather_none]
    decide +kernel
  refine ⟨hcolons, ?_⟩
  rw [(compile_flow_steps {} none sources hcolons).1, gather_none]
  decide +kernel

/-! ### Relationships -/

/-- Apart from the steps of flows there is an edge just where a definition that is no duplicate
declares one.  So what is received directly comes over no channel, and what comes over none is
received directly unless it is of the wrong kind. -/
theorem compile_relationships
    (hcolons : (SymbolTable.link 1 (gather config resolver sources).1).Colonless) :
    let t := SymbolTable.link 1 (gather config resolver sources).1
    (∀ source kind target, kind ≠ .flowStep →
      ((compile config resolver sources).graph.Joins source kind target ↔
        ∃ s ∈ t.originals, t.Links s source kind target)) ∧
      (∀ source target, (compile config resolver sources).graph.Joins source .receives target ↔
        ∃ s ∈ t.originals, target = s.nodeId ∧ ∃ f, s.definition.Receives f ∧
          t.LeadsTo s.document f.reference f.wanted f.inlined source) ∧
      ∀ s ∈ t.originals, ∀ f, s.definition.Receives f →
        (∃ source, t.LeadsTo s.document f.reference f.wanted f.inlined source ∧
          (compile config resolver sources).graph.Joins source .receives s.nodeId) ∨
        f.inlined = none ∧
          ∃ found, t.resolve s.document f.reference f.wanted = .error (.kindMismatch found) := by
  intro t
  obtain ⟨es, hgraph, hes⟩ := exists_emissions_compile config resolver sources
  have hplain : ∀ e ∈ es.filterMap Emission.edge?, e.IsPlain :=
    hes ▸ isPlain_of_mem_declaredEdges config resolver sources hcolons
  have hlinks : ∀ source kind target, kind ≠ .flowStep →
      ((compile config resolver sources).graph.Joins source kind target ↔
        ∃ s ∈ t.originals, t.Links s source kind target) := by
    intro source kind target hkind
    rw [hgraph, Graph.Joins, Emission.exists_edge_build_iff hplain]
    simp only [← Emission.mem_edges, hes, List.mem_flatMap]
    rw [exists_comm]
    refine exists_congr fun s => ?_
    rw [exists_and_left]
    exact and_congr_right fun hs => (SymbolTable.regular_gather config resolver
      sources).exists_declaredEdge_iff (SymbolTable.mem_originals.mp hs).1 hkind
  have hreceives : ∀ source target,
      (compile config resolver sources).graph.Joins source .receives target ↔
        ∃ s ∈ t.originals, target = s.nodeId ∧ ∃ f, s.definition.Receives f ∧
          t.LeadsTo s.document f.reference f.wanted f.inlined source := by
    intro source target
    rw [hlinks source .receives target nofun]
    exact exists_congr fun s => and_congr_right fun _ => SymbolTable.links_receives_iff
  refine ⟨hlinks, hreceives, fun s hs f hf => ?_⟩
  refine (t.leadsTo_or_mismatch s.document f.reference f.wanted f.inlined).imp_left ?_
  rintro ⟨source, hsource⟩
  exact ⟨source, hsource, (hreceives source s.nodeId).mpr ⟨s, hs, rfl, f, hf, hsource⟩⟩

end

/-- What is received over a channel is published to it and not received directly, and what is
received without one is. -/
theorem compile_relationships_billing :
    let sources := [("shop.ec",
      "service Billing \x7b\n  receives event Placed from topic\n  receives event Paid\n\x7d\n" ++
      "event Placed\nchannel topic\n")]
    (SymbolTable.link 1 (gather {} none sources).1).Colonless ∧
      (compile {} none sources).graph.Joins "event:Placed" .publishes "channel:topic" ∧
      (compile {} none sources).graph.Joins "unresolved:Paid" .receives "service:Billing" ∧
      ¬(compile {} none sources).graph.Joins "event:Placed" .receives "service:Billing" := by
  intro sources
  let t := SymbolTable.link 1 (gather {} none sources).1
  have hfacts : t.Colonless ∧
      (∃ s ∈ t.originals, ∃ m ∈ s.definition.messages .incoming, ∃ channel ∈ m.channels,
        t.LeadsTo s.document m.target (.only m.kind.value) (m.inlined.bind s.definition.child?)
          "event:Placed" ∧
        t.LeadsTo s.document channel (.only .channel) none "channel:topic") ∧
      (∃ s ∈ t.originals, "service:Billing" = s.nodeId ∧
        ∃ m ∈ s.definition.messages .incoming, m.channels = [] ∧
          t.LeadsTo s.document m.target (.only m.kind.value)
            (m.inlined.bind s.definition.child?) "unresolved:Paid") ∧
      ∀ s ∈ t.originals, s.definition.kind ≠ .dataProduct ∧
        ∀ m ∈ s.definition.messages .incoming, m.channels = [] →
          ¬t.LeadsTo s.document m.target (.only m.kind.value)
            (m.inlined.bind s.definition.child?) "event:Placed" := by
    simp only [t, gather_none]
    decide +kernel
  obtain ⟨hcolons, hpublished, hreceived, hnone⟩ := hfacts
  obtain ⟨hlinks, hreceives, -⟩ := compile_relationships {} none sources hcolons
  refine ⟨hcolons, ?_, ?_, ?_⟩
  · obtain ⟨s, hs, m, hm, channel, hchannel, hmessage, htarget⟩ := hpublished
    exact (hlinks _ .publishes _ nofun).mpr ⟨s, hs, .publishes hm hchannel hmessage htarget⟩
  · obtain ⟨s, hs, hid, m, hm, hchannels, hmessage⟩ := hreceived
    exact (hreceives _ _).mpr ⟨s, hs, hid, _, .message hm hchannels, hmessage⟩
  · intro h
    obtain ⟨s, hs, -, f, hf, hsource⟩ := (hreceives _ _).mp h
    obtain ⟨hkind, hmessages⟩ := hnone s hs
    cases hf with
    | message hm hchannels => exact hmessages _ hm hchannels hsource
    | input hbody => exact hkind (congrArg Body.kind hbody)

end EventCatalog
