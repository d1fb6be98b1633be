import EventCatalog.Proofs.Compilation.Sources
import EventCatalog.Proofs.Projection.Parents
import EventCatalog.Proofs.Scope.Identity

/-! # The nodes of compiled graphs

Each definition in a linked document is represented by a node of its kind.  The first one of an
identifier determines the node: its label, its parent, which is the nearest domain around the
definition, and its metadata (`compile_definitions`).  So a definition may find its node under
another name (`not_label_of_definition`). -/

namespace EventCatalog

open Syntax

/-- Definitions of one node are of one kind, and of one name unless one of the names goes on, behind
an at sign, as the version of the other begins. -/
theorem Syntax.Definition.eq_or_of_nodeId {c d : Definition} (h : c.nodeId = d.nodeId) :
    c.kind = d.kind ∧ (c.name.value = d.name.value ∨ ∃ rest,
      c.name.value = d.name.value ++ "@" ++ rest ∨ d.name.value = c.name.value ++ "@" ++ rest) := by
  obtain ⟨hkind, hnames⟩ := nodeId_eq_iff.mp h
  refine ⟨NodeKind.definition.inj hkind, or_iff_not_imp_left.mpr fun hne => ?_⟩
  obtain ⟨rest, hd, -⟩ | ⟨rest, hc, -⟩ := (append_versionMark_eq_iff hne).mp hnames
  · exact ⟨rest, .inr hd⟩
  · exact ⟨rest, .inl hc⟩

/-- Each definition in a linked document has a node of its kind, which bears its name unless that
goes on as another name with a version does.  A node of a definition has its label, its parent and
all metadata but contracts from the first definition of its identifier, and the parent is the
nearest domain around that. -/
theorem compile_definitions (config : Config) (resolver : Option ImportResolver)
    (sources : List (String × String)) :
    let graph := (compile config resolver sources).graph
    let documents := (gather config resolver sources).1
    (∀ document ∈ documents, ∀ around d, document.Holds around d →
      ∃ n ∈ graph.nodes, n.id = d.nodeId ∧ n.kind = .definition d.kind ∧
        (n.label = d.name.value ∨ ∃ rest, n.label = d.name.value ++ "@" ++ rest ∨
          d.name.value = n.label ++ "@" ++ rest)) ∧
    ∀ n ∈ graph.nodes, ∀ kind, n.kind = .definition kind →
      ∃ first, (documents.flatMap Document.placements).find? (·.definition.nodeId == n.id) =
          some first ∧
        first.definition.kind = kind ∧ n.label = first.definition.name.value ∧
        n.parent = (first.around.find? (·.kind = .domain)).map Definition.nodeId ∧
        n.metadata.filter (·.1 != "contracts") =
          (Projection.metadata first.path first.definition).filter (·.1 != "contracts") := by
  intro graph documents
  constructor
  · intro document hdocument around d hd
    have hplace : ⟨document.path, around, d⟩ ∈ documents.flatMap Document.placements :=
      List.mem_flatMap.mpr ⟨document, hdocument, Document.mem_placements_iff.mpr ⟨rfl, hd⟩⟩
    obtain ⟨n, hn, hid, kind, hkind⟩ := SymbolTable.exists_definition 1 documents
      (SymbolTable.link 1 documents).cycles hplace
    obtain ⟨first, hfind, heq⟩ := SymbolTable.exists_first 1 documents _ hn hkind
    have hfirst := List.find?_some hfind
    rw [beq_iff_eq] at hfirst
    obtain ⟨hkinds, hnames⟩ := Definition.eq_or_of_nodeId (hfirst.trans hid)
    refine ⟨n, hn, hid, (congrArg Node.kind heq).trans (congrArg NodeKind.definition hkinds), ?_⟩
    rw [show n.label = first.definition.name.value from congrArg Node.label heq]
    exact hnames
  · intro n hn kind hkind
    obtain ⟨first, hfind, heq⟩ := SymbolTable.exists_first 1 documents _ hn hkind
    refine ⟨first, hfind, ?_, congrArg Node.label heq, congrArg Node.parent heq,
      congrArg Node.metadata heq⟩
    exact NodeKind.definition.inj ((congrArg Node.kind heq).symm.trans hkind)

/-- An event that is defined in a service belongs to the domain around the service, also where it is
defined once more behind. -/
theorem compile_definitions_shop :
    let sources := [("shop.ec", "domain Shop \x7b\n  service Orders \x7b\n" ++
      "    sends event Placed \x7b summary \"placed\" \x7d\n  \x7d\n\x7d\nevent Placed\n")]
    ∃ n ∈ (compile {} none sources).graph.nodes, n.id = "event:Placed" ∧
      n.kind = .definition .event ∧ n.label = "Placed" ∧ n.parent = some "domain:Shop" := by
  intro sources
  have hdefined : ∃ document ∈ readSources sources, ∃ d ∈ document.program.definitions,
      d.nodeId = "event:Placed" ∧ d.kind = .event := by
    decide +kernel
  have hfirst : (((readSources sources).flatMap Document.placements).find?
      (·.definition.nodeId == "event:Placed")).map (fun p => (p.definition.name.value, p.parent)) =
        some ("Placed", some "domain:Shop") := by
    decide +kernel
  obtain ⟨hnodes, hfirsts⟩ := compile_definitions {} none sources
  rw [gather_none] at hnodes hfirsts
  obtain ⟨document, hdocument, d, hd, hid, hevent⟩ := hdefined
  obtain ⟨n, hn, hnode, hkind, -⟩ := hnodes document hdocument [] d (.top hd)
  obtain ⟨first, hfind, -, hlabel, hparent, -⟩ := hfirsts n hn _ hkind
  rw [hnode, hid] at hfind
  rw [hfind] at hfirst
  obtain ⟨hname, hdomain⟩ := Prod.mk.inj (Option.some.inj hfirst)
  exact ⟨n, hn, hnode.trans hid, hkind.trans (congrArg _ hevent), hlabel.trans hname,
    hparent.trans hdomain⟩

/-- An event whose name is written like that of another with its version is represented by the node
of the other, under the name of the other. -/
theorem not_label_of_definition :
    ¬∀ (config : Config) (resolver : Option ImportResolver) (sources : List (String × String)),
      ∀ document ∈ (gather config resolver sources).1, ∀ around d, document.Holds around d →
        ∃ n ∈ (compile config resolver sources).graph.nodes,
          n.id = d.nodeId ∧ n.kind = .definition d.kind ∧ n.label = d.name.value := by
  intro h
  let sources := [("a.ec", "event A \x7b\n  version 1\n\x7d\nevent \"A@1\"\n")]
  have hdefined : ∃ document ∈ readSources sources, ∃ d ∈ document.program.definitions,
      d.nodeId = "event:A@1" ∧ d.name.value = "A@1" := by
    decide +kernel
  have hfirst : (((readSources sources).flatMap Document.placements).find?
      (·.definition.nodeId == "event:A@1")).map (·.definition.name.value) = some "A" := by
    decide +kernel
  obtain ⟨document, hdocument, d, hd, hid, hname⟩ := hdefined
  rw [← gather_none {} sources] at hdocument hfirst
  obtain ⟨n, hn, hnode, hkind, hlabel⟩ := h {} none sources document hdocument [] d (.top hd)
  obtain ⟨first, hfind, hbare⟩ := SymbolTable.exists_first 1 (gather {} none sources).1 _ hn hkind
  rw [hnode, hid] at hfind
  rw [hfind] at hfirst
  have hA : n.label = "A" := (congrArg Node.label hbare).trans (Option.some.inj hfirst)
  rw [hlabel, hname] at hA
  exact absurd hA (by decide)

end EventCatalog
