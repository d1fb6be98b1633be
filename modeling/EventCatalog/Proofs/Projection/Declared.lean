import EventCatalog.Proofs.Compilation.Documents
import EventCatalog.Proofs.Projection.Edges
import EventCatalog.Proofs.Projection.Insertion
import EventCatalog.Proofs.Version.Identity

/-! # The edges that definitions declare

A flow declares the steps from each node of a chain to the next one and those of its triggers
(`SymbolTable.declaredSteps`), and this is what its body makes (`Projection.edges_bodyEmissions`).
All documents together make the edges that the definitions which are no duplicates declare, in the
order of the table (`SymbolTable.edges_originals`), and these are plain where names, versions and
selectors have no colon (`SymbolTable.Colonless.isPlain`). -/

namespace EventCatalog

open Syntax

/-! ### Flows -/

/-- The label of the edge that leaves a step. -/
def Syntax.Step.mark? : Step → Option String
  | .reference _ label => label.map (·.value)
  | .node _ => none

/-- The edges from each node to the next one, with the labels of the first. -/
def joined (nodes : List (String × Option String)) : List Edge :=
  List.zipWith (fun a b => ⟨a.1, .flowStep, b.1, a.2⟩) nodes nodes.tail

namespace SymbolTable

variable (t : SymbolTable) (document : Nat)

/-- The node that a reference in a flow leads to, whatever its kind. -/
def flowNode (r : Reference) : String :=
  match t.resolve document r .any with
  | .ok s => s.nodeId
  | .error _ => nodeId .unresolved r.name.value r.selector.text?

/-- The node of a step; a label alone has a node that is named after its place in the flow. -/
def stepNode (d : Definition) (chain index : Nat) : Step → String
  | .reference target _ => t.flowNode document target
  | .node _ =>
    nodeId .step (d.versionedName ++ "/" ++ Nat.repr chain ++ "." ++ Nat.repr index) none

/-- The nodes of the steps of a chain, with the labels of the edges that leave them. -/
def chainNodes (d : Definition) (chain : Nat) (steps : List Step) :
    List (String × Option String) :=
  steps.zipIdx.map fun (s, index) => (t.stepNode document d chain index s, s.mark?)

/-- The edges to an action from its conditions, and those to its outputs. -/
def actionEdges (conditions : List Reference) (a : Action) : List Edge :=
  conditions.map (fun c =>
    ⟨t.flowNode document c, .flowStep, t.flowNode document a.target, a.label.map (·.value)⟩) ++
  a.outputs.map fun o =>
    ⟨t.flowNode document a.target, .flowStep, t.flowNode document o.target,
      o.label.map (·.value)⟩

/-- The steps that a definition declares if it is a flow: chain by chain, and then action by
action. -/
def declaredSteps (s : Symbol) : List Edge :=
  match s.definition.body with
  | .flow b =>
    b.chains.zipIdx.flatMap (fun (steps, chain) =>
      joined (t.chainNodes s.document s.definition chain steps)) ++
    b.triggers.flatMap fun r => r.actions.flatMap (t.actionEdges s.document r.conditions)
  | _ => []

/-- What follows what in a flow: a step of a chain the one before it, an action its conditions, and
an output its action. -/
inductive Declares (t : SymbolTable) (s : Symbol) (b : FlowBody) : Edge → Prop
  | next {steps : List Step} {chain index : Nat} {a a' : Step}
      (hchain : b.chains[chain]? = some steps) (ha : steps[index]? = some a)
      (ha' : steps[index + 1]? = some a') :
      Declares t s b ⟨t.stepNode s.document s.definition chain index a, .flowStep,
        t.stepNode s.document s.definition chain (index + 1) a', a.mark?⟩
  | condition {r : Trigger} {a : Action} {c : Reference} (hr : r ∈ b.triggers)
      (ha : a ∈ r.actions) (hc : c ∈ r.conditions) :
      Declares t s b ⟨t.flowNode s.document c, .flowStep, t.flowNode s.document a.target,
        a.label.map (·.value)⟩
  | output {r : Trigger} {a : Action} {o : Output} (hr : r ∈ b.triggers) (ha : a ∈ r.actions)
      (ho : o ∈ a.outputs) :
      Declares t s b ⟨t.flowNode s.document a.target, .flowStep, t.flowNode s.document o.target,
        o.label.map (·.value)⟩

theorem mem_joined {nodes : List (String × Option String)} {e : Edge} :
    e ∈ joined nodes ↔ ∃ (index : Nat) (a b : String × Option String),
      nodes[index]? = some a ∧ nodes[index + 1]? = some b ∧ e = ⟨a.1, .flowStep, b.1, a.2⟩ := by
  rw [List.mem_iff_getElem?]
  refine exists_congr fun index => ?_
  rw [joined, List.getElem?_zipWith, List.getElem?_tail]
  cases nodes[index]? <;> cases nodes[index + 1]? <;> simp [eq_comm]

theorem getElem?_chainNodes {d : Definition} {chain : Nat} {steps : List Step} {index : Nat}
    {x : String × Option String} :
    (t.chainNodes document d chain steps)[index]? = some x ↔
      ∃ a, steps[index]? = some a ∧ x = (t.stepNode document d chain index a, a.mark?) := by
  rw [chainNodes, List.getElem?_map, List.getElem?_zipIdx]
  cases steps[index]? <;> simp [eq_comm]

theorem mem_declaredSteps {s : Symbol} {e : Edge} :
    e ∈ t.declaredSteps s ↔ ∃ b, s.definition.body = .flow b ∧ t.Declares s b e := by
  unfold declaredSteps
  split
  · rename_i b hbody
    simp only [hbody, Body.flow.injEq, exists_eq_left', List.mem_append, List.mem_flatMap,
      mem_joined, getElem?_chainNodes, actionEdges, List.mem_map]
    constructor
    · rintro (⟨⟨steps, chain⟩, hchain, index, _, _, ⟨a, ha, rfl⟩, ⟨a', ha', rfl⟩, rfl⟩ |
        ⟨r, hr, a, ha, ⟨c, hc, rfl⟩ | ⟨o, ho, rfl⟩⟩)
      · exact .next (List.mk_mem_zipIdx_iff_getElem?.mp hchain) ha ha'
      · exact .condition hr ha hc
      · exact .output hr ha ho
    · intro h
      cases h with
      | @next steps chain index a a' hchain ha ha' =>
        exact .inl ⟨(steps, chain), List.mk_mem_zipIdx_iff_getElem?.mpr hchain, index, _, _,
          ⟨a, ha, rfl⟩, ⟨a', ha', rfl⟩, rfl⟩
      | condition hr ha hc => exact .inr ⟨_, hr, _, ha, .inl ⟨_, hc, rfl⟩⟩
      | output hr ha ho => exact .inr ⟨_, hr, _, ha, .inr ⟨_, ho, rfl⟩⟩
  · rename_i hno
    simp only [List.not_mem_nil, false_iff]
    rintro ⟨b, hbody, -⟩
    exact hno b hbody

end SymbolTable

namespace Projection

open Emission SymbolTable

variable {p : Projection} {document : Nat} {flow : String} {d : Definition}

theorem exists_target?_any (p : Projection) (document : Nat) (r : Reference) :
    ∃ before, p.target? document r none .any = some (p.table.flowNode document r, before) := by
  rw [← leadsTo_iff, flowNode]
  cases h : p.table.resolve document r .any with
  | ok s => exact .meant h
  | error error =>
    refine .missing ⟨?_, rfl⟩
    cases error with
    | kindMismatch found => exact absurd h (resolve_any_ne_kindMismatch found)
    | notFound => exact .inl h
    | noMatchingVersion => exact .inr h

/-- A step has a node, and an edge leaves it with its label. -/
theorem exists_step? (p : Projection) (document : Nat) (flow : String) (d : Definition)
    (chain index : Nat) (s : Step) :
    ∃ before, p.step? document flow d chain index s =
        some (p.table.stepNode document d chain index s, s.mark?, before) ∧
      before.filterMap edge? = [] := by
  cases s with
  | reference target label =>
    obtain ⟨before, htarget⟩ := p.exists_target?_any document target
    exact ⟨before, by rw [step?, htarget]; rfl, edges_of_target? htarget⟩
  | node label => exact ⟨_, rfl, rfl⟩

/-- A chain makes the edges from each step to the next one. -/
theorem edges_chainEmissions (chain index : Nat) (previous : Option (String × Option String))
    (steps : List Step) :
    (p.chainEmissions document flow d chain index previous steps).filterMap edge? =
      joined (previous.toList ++ (steps.zipIdx index).map fun (s, index) =>
        (p.table.stepNode document d chain index s, s.mark?)) := by
  induction steps generalizing index previous with
  | nil => cases previous <;> rfl
  | cons s steps ih =>
    obtain ⟨before, hstep, hbefore⟩ := p.exists_step? document flow d chain index s
    rw [chainEmissions, hstep]
    simp only [List.filterMap_append, hbefore, ih, List.zipIdx_cons, List.map_cons]
    cases previous <;> simp [joined, edge?]

theorem edges_actionEmissions (conditions : List Reference) (a : Action) :
    (p.actionEmissions document (conditions.map (p.table.flowNode document)) a).filterMap edge? =
      p.table.actionEdges document conditions a := by
  have houtput (action : String) (o : Output) :
      (p.outputEmissions document action o).filterMap edge? =
        [⟨action, .flowStep, p.table.flowNode document o.target, o.label.map (·.value)⟩] := by
    obtain ⟨before, htarget⟩ := p.exists_target?_any document o.target
    rw [outputEmissions, htarget]
    simp [edges_of_target? htarget, edge?]
  obtain ⟨before, htarget⟩ := p.exists_target?_any document a.target
  rw [actionEmissions, htarget, actionEdges]
  simp only [List.filterMap_append, edges_of_target? htarget, List.nil_append,
    List.filterMap_flatMap, houtput, edges_map]
  rw [List.map_map, List.map_eq_flatMap (l := a.outputs)]
  rfl

theorem edges_triggerEmissions (r : Trigger) :
    (p.triggerEmissions document r).filterMap edge? =
      r.actions.flatMap (p.table.actionEdges document r.conditions) := by
  have hconditions : (r.conditions.filterMap fun c => p.target? document c none .any).map (·.1) =
      r.conditions.map (p.table.flowNode document) := by
    rw [List.map_filterMap, ← List.filterMap_eq_map]
    refine List.filterMap_congr fun c _ => ?_
    obtain ⟨before, htarget⟩ := p.exists_target?_any document c
    rw [htarget]
    rfl
  have hbefore : ∀ c ∈ r.conditions.filterMap fun c => p.target? document c none .any,
      c.2.filterMap edge? = [] := by
    intro c hc
    obtain ⟨target, -, htarget⟩ := List.mem_filterMap.mp hc
    exact edges_of_target? htarget
  rw [triggerEmissions]
  simp only [hconditions, List.filterMap_append, List.filterMap_flatMap, edges_actionEmissions]
  rw [List.flatMap_eq_nil_iff.mpr hbefore, List.nil_append]

theorem kind_of_mem_declaredSteps {t : SymbolTable} {s : Symbol} {e : Edge}
    (he : e ∈ t.declaredSteps s) : e.kind = .flowStep := by
  obtain ⟨b, -, h⟩ := (t.mem_declaredSteps).mp he
  cases h <;> rfl

/-- A body makes the steps that it declares if it is that of a flow, and otherwise the edges of its
messages over channels. -/
theorem edges_bodyEmissions (document : Nat) (owner : String) (d : Definition) :
    (p.bodyEmissions document owner d).filterMap edge? =
      ([Direction.outgoing, .incoming].flatMap fun direction =>
        ((d.messages direction).flatMap
          (p.routeEmissions document owner d direction)).filterMap edge?) ++
      p.table.declaredSteps ⟨document, d⟩ := by
  unfold bodyEmissions declaredSteps Definition.messages
  cases hbody : d.body with
  | domain b | service b => simp
  | flow b =>
    simp only [List.filterMap_append, List.filterMap_flatMap, edges_chainEmissions,
      edges_triggerEmissions]
    rfl
  | channel b =>
    have hnone : ∀ x ∈ b.parameters.map fun q => Emission.node (parameterNode owner d q),
        edge? x = none := by
      intro x hx
      obtain ⟨q, -, rfl⟩ := List.mem_map.mp hx
      rfl
    exact List.filterMap_eq_nil_iff.mpr hnone
  | dataProduct b =>
    simp only
    split <;> rfl
  | _ => rfl

end Projection

namespace SymbolTable

variable {generation : Nat} {documents : List Document} {cycles : List Cycle}

/-- Documents make the edges of their definitions, in the order of the table. -/
theorem edges_documents (hpaths : (documents.map Document.path).Nodup)
    (duplicates : List (Nat × Nat)) :
    (documents.flatMap (Projection.document
        ⟨link generation documents, cycles, duplicates⟩)).filterMap Emission.edge? =
      (link generation documents).exports.flatMap fun s =>
        (Projection.relationships ⟨link generation documents, cycles, duplicates⟩ s.document
          s.definition).filterMap Emission.edge? := by
  have hdocument : ∀ x ∈ documents.zipIdx, (Projection.document
      ⟨link generation documents, cycles, duplicates⟩ x.1).filterMap Emission.edge? =
        (x.1.exports.map (⟨x.2, ·⟩ : Definition → Symbol)).flatMap fun s =>
          (Projection.relationships ⟨link generation documents, cycles, duplicates⟩ s.document
            s.definition).filterMap Emission.edge? := by
    rintro ⟨d, number⟩ hd
    have hnumber : (link generation documents).documentAt? d.path = some number :=
      documentAt?_link hpaths (List.mk_mem_zipIdx_iff_getElem?.mp hd)
    rw [Projection.document, hnumber]
    simp only [Projection.definitions_eq_flatMap, List.filterMap_flatMap,
      Projection.edges_definition]
    rw [Document.exports, Program.all, Definition.allOf_eq_flatMap, List.flatMap_map,
      List.flatMap_assoc]
  have hexports : (link generation documents).exports =
      documents.zipIdx.flatMap fun x => x.1.exports.map (⟨x.2, ·⟩) :=
    exportsOf_eq_flatMap 0 documents
  have hnumbered (g : Document → List Edge) :
      documents.flatMap g = documents.zipIdx.flatMap fun x => g x.1 := by
    rw [← List.flatMap_map Prod.fst g, List.zipIdx_map_fst]
  rw [hexports, List.flatMap_assoc, List.filterMap_flatMap, hnumbered]
  exact List.flatMap_congr hdocument

/-- The edges that the fields of a definition and its body make. -/
def declaredEdges (t : SymbolTable) (s : Symbol) : List Edge :=
  (s.definition.fields.flatMap
      (t.projection.fieldEmissions s.document s.nodeId s.definition)).filterMap Emission.edge? ++
    (t.projection.bodyEmissions s.document s.nodeId s.definition).filterMap Emission.edge?

theorem mem_declaredEdges {t : SymbolTable} {s : Symbol} {e : Edge} :
    e ∈ t.declaredEdges s ↔
      (∃ f ∈ s.definition.fields,
        .edge e ∈ t.projection.fieldEmissions s.document s.nodeId s.definition f) ∨
      (∃ direction, ∃ m ∈ s.definition.messages direction,
        .edge e ∈ t.projection.routeEmissions s.document s.nodeId s.definition direction m) ∨
      e ∈ t.declaredSteps s := by
  have hdirection (direction : Direction) : direction ∈ [Direction.outgoing, .incoming] := by
    cases direction <;> decide
  simp only [declaredEdges, Projection.edges_bodyEmissions, List.mem_append, List.mem_flatMap,
    List.filterMap_flatMap, Emission.mem_edges, hdirection, true_and]
  rfl

/-- The steps among the edges that a definition makes are those that it declares. -/
theorem filter_declaredEdges (t : SymbolTable) (s : Symbol) :
    (t.declaredEdges s).filter (·.kind == .flowStep) = t.declaredSteps s := by
  have hnone (es : List Edge) (h : ∀ e ∈ es, e.kind ≠ .flowStep) :
      es.filter (·.kind == .flowStep) = [] :=
    List.filter_eq_nil_iff.mpr fun e he hkind => h e he (beq_iff_eq.mp hkind)
  have hfields : ∀ e ∈ (s.definition.fields.flatMap (t.projection.fieldEmissions s.document
      s.nodeId s.definition)).filterMap Emission.edge?, e.kind ≠ .flowStep := by
    intro e he
    obtain ⟨f, hf, he⟩ := List.mem_flatMap.mp (Emission.mem_edges.mp he)
    obtain ⟨kind, side, target, hedge, -, -, rfl⟩ := Projection.edge_mem_fieldEmissions.mp he
    have hkind : kind ≠ .flowStep := by
      obtain h | ⟨rfl, -⟩ := Definition.receives_of_mem_fields hf hedge
      · exact h.2
      · exact nofun
    cases side <;> exact hkind
  have hroutes : ∀ e ∈ [Direction.outgoing, .incoming].flatMap fun direction =>
      ((s.definition.messages direction).flatMap (t.projection.routeEmissions s.document s.nodeId
        s.definition direction)).filterMap Emission.edge?, e.kind ≠ .flowStep := by
    intro e he
    obtain ⟨direction, -, he⟩ := List.mem_flatMap.mp he
    obtain ⟨m, -, he⟩ := List.mem_flatMap.mp (Emission.mem_edges.mp he)
    obtain ⟨_, _, _, -, -, -, rfl | ⟨-, rfl⟩⟩ := Projection.edge_mem_routeEmissions.mp he
    · exact nofun
    · exact nofun
  have hsteps : ∀ e ∈ t.declaredSteps s, (e.kind == .flowStep) = true :=
    fun e he => beq_iff_eq.mpr (Projection.kind_of_mem_declaredSteps he)
  rw [declaredEdges, Projection.edges_bodyEmissions, List.filter_append, List.filter_append,
    hnone _ hfields, hnone _ hroutes, List.nil_append, List.nil_append]
  exact List.filter_eq_self.mpr hsteps

/-- Linked documents make the edges of all definitions but the duplicates. -/
theorem edges_originals (hpaths : (documents.map Document.path).Nodup) :
    (documents.flatMap (link generation documents).projection.document).filterMap Emission.edge? =
      (link generation documents).originals.flatMap (link generation documents).declaredEdges := by
  have hfilter {α : Type} (kept : Symbol → Bool) (g : Symbol → List α) (symbols : List Symbol) :
      (symbols.flatMap fun s => if kept s then g s else []) = (symbols.filter kept).flatMap g := by
    induction symbols with
    | nil => rfl
    | cons s symbols ih =>
      rw [List.flatMap_cons, ih]
      cases h : kept s <;> simp [h]
  rw [projection, edges_documents hpaths, originals, ← hfilter]
  refine List.flatMap_congr fun s _ => ?_
  rw [Projection.relationships, Symbol.key]
  simp only
  split
  · rename_i hduplicate
    rw [hduplicate]
    rfl
  · rename_i hduplicate
    rw [Bool.eq_false_iff.mpr hduplicate]
    exact List.filterMap_append

end SymbolTable

/-! ### Plain edges -/

namespace SymbolTable.Colonless

open Syntax.Definition

variable {t : SymbolTable} (ht : t.Colonless) {s : Symbol} (hs : s ∈ t.exports)

include ht hs

theorem isPlainId_flowNode {f : Field} (hf : f ∈ s.definition.fields) :
    IsPlainId (t.flowNode s.document f.reference) := by
  unfold flowNode
  split
  · rename_i u hu
    exact ht.isPlainId_nodeId (mem_exports_of_resolve hu)
  · obtain ⟨hname, hselector⟩ := (ht s hs).2.2 f hf
    exact EventCatalog.isPlainId_nodeId hname hselector

theorem colon_not_mem_versionedName : ':' ∉ s.definition.versionedName.toList := by
  obtain ⟨hname, hversion, -⟩ := ht s hs
  unfold versionedName
  split
  · rename_i v hv
    simp only [String.toList_append, List.mem_append, not_or]
    exact ⟨⟨hname, by decide⟩, hversion v hv⟩
  · exact hname

theorem isPlainId_stepNode {b : FlowBody} (hbody : s.definition.body = .flow b)
    {steps : List Step} (hsteps : steps ∈ b.chains) {a : Step} (ha : a ∈ steps)
    (chain index : Nat) : IsPlainId (t.stepNode s.document s.definition chain index a) := by
  cases a with
  | reference r label =>
    exact ht.isPlainId_flowNode hs (mem_fields_of_step hbody hsteps ha)
  | node label =>
    have hdigits (n : Nat) : ':' ∉ (Nat.repr n).toList := fun h =>
      absurd (Text.isDigit_of_mem_repr h) (by decide)
    rw [stepNode]
    refine EventCatalog.isPlainId_nodeId ?_ ?_
    · simp only [String.toList_append, List.mem_append, not_or]
      exact ⟨⟨⟨⟨ht.colon_not_mem_versionedName hs, by decide⟩, hdigits chain⟩, by decide⟩,
        hdigits index⟩
    · simp

theorem isPlain_of_mem_declaredSteps {e : Edge} (he : e ∈ t.declaredSteps s) : e.IsPlain := by
  obtain ⟨b, hbody, he⟩ := t.mem_declaredSteps.mp he
  cases he with
  | next hchain ha ha' =>
    have hsteps := List.mem_of_getElem? hchain
    exact ⟨ht.isPlainId_stepNode hs hbody hsteps (List.mem_of_getElem? ha) _ _,
      ht.isPlainId_stepNode hs hbody hsteps (List.mem_of_getElem? ha') _ _⟩
  | condition hr ha hc =>
    exact ⟨ht.isPlainId_flowNode hs (mem_fields_of_condition hbody hr hc),
      ht.isPlainId_flowNode hs (mem_fields_of_action hbody hr ha List.mem_cons_self)⟩
  | output hr ha ho =>
    exact ⟨ht.isPlainId_flowNode hs (mem_fields_of_action hbody hr ha List.mem_cons_self),
      ht.isPlainId_flowNode hs (mem_fields_of_action hbody hr ha
        (List.mem_cons_of_mem _ (List.mem_map_of_mem ho)))⟩

variable (hregular : t.Regular)

include hregular

theorem isPlain_of_mem_fieldEmissions {f : Field} (hf : f ∈ s.definition.fields) {e : Edge}
    (he : .edge e ∈ t.projection.fieldEmissions s.document s.nodeId s.definition f) :
    e.IsPlain := by
  obtain ⟨kind, side, target, -, -, hleads, rfl⟩ := Projection.edge_mem_fieldEmissions.mp he
  have howner := ht.isPlainId_nodeId hs
  have htarget := ht.isPlainId_of_leadsTo hregular hs hf
    (fun c hc => nested_of_inlined hf hc) hleads
  cases side with
  | source => exact ⟨howner, htarget⟩
  | target => exact ⟨htarget, howner⟩

theorem isPlain_of_mem_routeEmissions {direction : Direction} {m : Message}
    (hm : m ∈ s.definition.messages direction) {e : Edge}
    (he : .edge e ∈ t.projection.routeEmissions s.document s.nodeId s.definition direction m) :
    e.IsPlain := by
  obtain ⟨message, channel, target, hchannel, hmessage, htarget, he⟩ :=
    Projection.edge_mem_routeEmissions.mp he
  obtain ⟨f, hf, href, -⟩ := mem_fields_of_message hm
  have hmessage : IsPlainId message := by
    rw [← href] at hmessage
    exact ht.isPlainId_of_leadsTo hregular hs hf (fun c hc => nested_of_child? hc) hmessage
  have htarget : IsPlainId target :=
    ht.isPlainId_of_leadsTo hregular hs
      (mem_fields_of_channel hm (List.mem_map_of_mem hchannel)) (by simp) htarget
  rcases he with rfl | ⟨-, rfl⟩
  · exact ⟨hmessage, htarget⟩
  · exact ⟨htarget, ht.isPlainId_nodeId hs⟩

/-- What a definition declares are plain edges. -/
theorem isPlain {e : Edge} (he : e ∈ t.declaredEdges s) : e.IsPlain := by
  obtain ⟨f, hf, he⟩ | ⟨direction, m, hm, he⟩ | he := mem_declaredEdges.mp he
  · exact ht.isPlain_of_mem_fieldEmissions hs hregular hf he
  · exact ht.isPlain_of_mem_routeEmissions hs hregular hm he
  · exact ht.isPlain_of_mem_declaredSteps hs he

end SymbolTable.Colonless

end EventCatalog
