import EventCatalog.Proofs.Projection.Grounded
import Mathlib.Logic.Basic
import Mathlib.Tactic.ByContra

/-! # Which unresolved nodes are made

`Mints es id`: the emissions `es` make an unresolved node with the identifier `id`.  Each part of a
projection mints the identifiers of those references it looks at that are missing
(`SymbolTable.Missing`).  Fields with an edge, messages over channels and flows look at references
on different ways; together they come to every field of a definition that is not cut off
(`Projection.mints_relationships`). -/

namespace EventCatalog

open Syntax

/-! ### What is missing -/

namespace SymbolTable

/-- A reference in a document means nothing, and the identifier is that of the node in its place. -/
def Missing (t : SymbolTable) (document : Nat) (r : Reference) (wanted : Wanted) (id : String) :
    Prop :=
  (t.resolve document r wanted = .error .notFound ∨
      t.resolve document r wanted = .error .noMatchingVersion) ∧
    id = nodeId .unresolved r.name.value r.selector.text?

/-- The target of a message is a definition of the wrong kind. -/
def Mistakes (t : SymbolTable) (document : Nat) (d : Definition) (m : Message) : Prop :=
  m.inlined.bind d.child? = none ∧
    ∃ found, t.resolve document m.target (.only m.kind.value) = .error (.kindMismatch found)

/-- A field is a channel of messages whose own targets are all of the wrong kind. -/
def CutOff (t : SymbolTable) (document : Nat) (d : Definition) (f : Field) : Prop :=
  ∃ direction : Direction,
    (∃ m ∈ d.messages direction, f ∈ m.channelFields direction) ∧
      ∀ m ∈ d.messages direction, f ∈ m.channelFields direction → t.Mistakes document d m

/-- A field is in place for a reference that means nothing, and is not cut off. -/
def Dangles (t : SymbolTable) (document : Nat) (d : Definition) (f : Field) (id : String) : Prop :=
  f.inlined = none ∧ ¬ t.CutOff document d f ∧ t.Missing document f.reference f.wanted id

end SymbolTable

/-! ### Minting along emissions -/

namespace Emission

/-- An unresolved node with the identifier is emitted. -/
def Mints (es : List Emission) (id : String) : Prop :=
  ∃ n, .node n ∈ es ∧ n.kind = .unresolved ∧ n.id = id

variable {es es' : List Emission} {id : String}

@[simp] theorem mints_nil : ¬ Mints [] id := by
  rintro ⟨n, hn, -⟩
  cases hn

@[simp] theorem mints_append : Mints (es ++ es') id ↔ Mints es id ∨ Mints es' id := by
  constructor
  · rintro ⟨n, hn, h⟩
    obtain hn | hn := List.mem_append.mp hn
    · exact .inl ⟨n, hn, h⟩
    · exact .inr ⟨n, hn, h⟩
  · rintro (⟨n, hn, h⟩ | ⟨n, hn, h⟩)
    · exact ⟨n, List.mem_append_left _ hn, h⟩
    · exact ⟨n, List.mem_append_right _ hn, h⟩

@[simp] theorem mints_flatMap {α : Type} {items : List α} {g : α → List Emission} :
    Mints (items.flatMap g) id ↔ ∃ a ∈ items, Mints (g a) id := by
  constructor
  · rintro ⟨n, hn, h⟩
    obtain ⟨a, ha, hn⟩ := List.mem_flatMap.mp hn
    exact ⟨a, ha, n, hn, h⟩
  · rintro ⟨a, ha, n, hn, h⟩
    exact ⟨n, List.mem_flatMap.mpr ⟨a, ha, hn⟩, h⟩

@[simp] theorem mints_node {n : Node} :
    Mints (.node n :: es) id ↔ (n.kind = .unresolved ∧ n.id = id) ∨ Mints es id := by
  constructor
  · rintro ⟨n', hn, h⟩
    obtain heq | hn := List.mem_cons.mp hn
    · cases heq
      exact .inl h
    · exact .inr ⟨n', hn, h⟩
  · rintro (h | ⟨n', hn, h⟩)
    · exact ⟨n, List.mem_cons_self, h⟩
    · exact ⟨n', List.mem_cons_of_mem _ hn, h⟩

@[simp] theorem mints_edge {e : Edge} : Mints (.edge e :: es) id ↔ Mints es id := by
  simp [Mints]

@[simp] theorem mints_contracts {owner : String} {value : Datum} :
    Mints (.contracts owner value :: es) id ↔ Mints es id := by
  simp [Mints]

@[simp] theorem not_mints_edges {α : Type} {items : List α} {g : α → Edge} :
    ¬ Mints (items.map fun a => .edge (g a)) id := by
  simp [Mints]

end Emission

namespace Projection

open Emission SymbolTable

variable {p : Projection} {document : Nat} {owner id : String} {d : Definition}

theorem mints_target? {r : Reference} {inlined : Option Definition} {wanted : Wanted}
    {target : String} {before : List Emission}
    (h : p.target? document r inlined wanted = some (target, before)) :
    Mints before id ↔ inlined = none ∧ p.table.Missing document r wanted id := by
  unfold target? at h
  split at h
  · cases h
    simp
  · split at h
    · rename_i s hs
      cases h
      simp [Missing, hs]
    · cases h
    · rename_i e hne he
      cases h
      have hmissing : e = .notFound ∨ e = .noMatchingVersion := by
        cases e with
        | kindMismatch found => exact absurd rfl (hne found)
        | notFound => exact .inl rfl
        | noMatchingVersion => exact .inr rfl
      simp [Missing, he, hmissing, unresolvedNode, eq_comm]

theorem target?_eq_none {r : Reference} {inlined : Option Definition} {wanted : Wanted} :
    p.target? document r inlined wanted = none ↔
      inlined = none ∧
        ∃ found, p.table.resolve document r wanted = .error (.kindMismatch found) := by
  unfold target?
  split
  · simp
  · split
    · rename_i hs
      simp [hs]
    · rename_i found he
      simp [he]
    · rename_i e hne he
      have hkind : ∀ found, e ≠ .kindMismatch found := hne
      simp [he, hkind]

theorem not_missing_of_target? {r : Reference} {inlined : Option Definition} {wanted : Wanted}
    (h : p.target? document r inlined wanted = none) :
    ¬ p.table.Missing document r wanted id := by
  obtain ⟨-, found, hfound⟩ := target?_eq_none.mp h
  simp [Missing, hfound]

/-! ### The parts of a projection -/

/-- What is missing closes no cycle. -/
theorem not_closesCycle_of_missing {f : Field} (hinlined : f.inlined = none)
    (h : p.table.Missing document f.reference f.wanted id) :
    p.closesCycle document d f = false := by
  have htarget : p.table.fieldTarget? document f = none := by
    unfold SymbolTable.fieldTarget?
    rw [hinlined]
    obtain ⟨h | h, -⟩ := h
    · simp [h, Except.toOption]
    · simp [h, Except.toOption]
  rw [closesCycle, htarget]
  cases p.cycleOf? (document, d.id) <;> simp

theorem mints_fieldEmissions {f : Field} :
    Mints (p.fieldEmissions document owner d f) id ↔
      f.edge ≠ none ∧ f.inlined = none ∧ p.table.Missing document f.reference f.wanted id := by
  unfold fieldEmissions
  cases hedge : f.edge with
  | none => simp
  | some edge =>
    obtain ⟨kind, side⟩ := edge
    simp only
    split
    · rename_i hcycle
      simp only [mints_nil, false_iff, not_and]
      intro _ hinlined hmissing
      rw [not_closesCycle_of_missing hinlined hmissing] at hcycle
      cases hcycle
    · split
      · rename_i hnone
        simp [not_missing_of_target? hnone]
      · rename_i target before htarget
        rw [mints_append, mints_target? htarget]
        cases side <;> simp

theorem mints_channelEmissions {message : String} {direction : Direction} {channel : Reference} :
    Mints (p.channelEmissions document owner message direction channel) id ↔
      p.table.Missing document channel (.only .channel) id := by
  unfold channelEmissions
  split
  · rename_i hnone
    simp [not_missing_of_target? hnone]
  · rename_i htarget
    rw [mints_append, mints_target? htarget, mints_edge]
    cases direction <;> simp

/-- A message over channels comes to its target, and to its channels if that is of the right
kind. -/
theorem mints_routeEmissions {direction : Direction} {m : Message} :
    Mints (p.routeEmissions document owner d direction m) id ↔
      m.channels ≠ [] ∧ m.inlined.bind d.child? = none ∧
          p.table.Missing document m.target (.only m.kind.value) id ∨
        ¬ p.table.Mistakes document d m ∧
          ∃ channel ∈ m.channels, p.table.Missing document channel (.only .channel) id := by
  unfold routeEmissions
  split
  · rename_i hempty
    rw [List.isEmpty_iff] at hempty
    simp [hempty]
  · rename_i hchannels
    rw [List.isEmpty_iff] at hchannels
    split
    · rename_i hnone
      have hmistakes : p.table.Mistakes document d m := target?_eq_none.mp hnone
      simp [not_missing_of_target? hnone, hmistakes]
    · rename_i target before htarget
      have hmistakes : ¬ p.table.Mistakes document d m := by
        intro h
        rw [target?_eq_none.mpr h] at htarget
        cases htarget
      rw [mints_append, mints_target? htarget, mints_flatMap]
      simp [hchannels, hmistakes, mints_channelEmissions]

theorem mints_chainEmissions {chain index : Nat} {previous : Option (String × Option String)}
    {steps : List Step} :
    Mints (p.chainEmissions document owner d chain index previous steps) id ↔
      ∃ f ∈ steps.filterMap Definition.stepField?,
        p.table.Missing document f.reference f.wanted id := by
  induction steps generalizing index previous with
  | nil => simp [chainEmissions]
  | cons s steps ih =>
    rw [chainEmissions]
    cases s with
    | node label =>
      have hkind : (stepNode owner d chain index label.value).kind ≠ .unresolved := by
        simp [stepNode]
      simp only [step?, List.filterMap_cons, Definition.stepField?, mints_append, ih, mints_node,
        mints_nil, hkind]
      cases previous <;> simp
    | reference r label =>
      rw [step?]
      cases htarget : p.target? document r none .any with
      | none =>
        have hnot : ¬ p.table.Missing document r .any id := not_missing_of_target? htarget
        simp [Definition.stepField?, Field.plain, ih, hnot]
      | some target =>
        obtain ⟨target, before⟩ := target
        simp only [Option.map_some, List.filterMap_cons, Definition.stepField?, mints_append, ih,
          mints_target? htarget, List.mem_cons, Field.plain]
        cases previous <;> simp

theorem mints_outputEmissions {action : String} {o : Output} :
    Mints (p.outputEmissions document action o) id ↔ p.table.Missing document o.target .any id := by
  unfold outputEmissions
  split
  · rename_i hnone
    simp [not_missing_of_target? hnone]
  · rename_i htarget
    simp [mints_target? htarget]

/-- Any kind of definition will do for an action, so its outputs are looked at. -/
theorem mints_actionEmissions {conditions : List String} {a : Action} :
    Mints (p.actionEmissions document conditions a) id ↔
      ∃ f ∈ Definition.actionFields a, p.table.Missing document f.reference f.wanted id := by
  unfold actionEmissions
  split
  · rename_i hnone
    obtain ⟨-, found, hfound⟩ := target?_eq_none.mp hnone
    exact absurd hfound (resolve_any_ne_kindMismatch found)
  · rename_i htarget
    simp [mints_target? htarget, mints_outputEmissions, Definition.actionFields, Field.plain]

theorem mints_triggerEmissions {t : Trigger} :
    Mints (p.triggerEmissions document t) id ↔
      ∃ f ∈ Definition.triggerFields t, p.table.Missing document f.reference f.wanted id := by
  have hconditions : (∃ c ∈ t.conditions.filterMap fun c => p.target? document c none .any,
      Mints c.2 id) ↔ ∃ c ∈ t.conditions, p.table.Missing document c .any id := by
    constructor
    · rintro ⟨⟨target, before⟩, hc, hmints⟩
      obtain ⟨r, hr, htarget⟩ := List.mem_filterMap.mp hc
      exact ⟨r, hr, ((mints_target? htarget).mp hmints).2⟩
    · rintro ⟨r, hr, hmissing⟩
      obtain ⟨target, htarget⟩ := Option.ne_none_iff_exists'.mp fun hnone =>
        not_missing_of_target? hnone hmissing
      refine ⟨target, List.mem_filterMap.mpr ⟨r, hr, htarget⟩, ?_⟩
      exact (mints_target? htarget).mpr ⟨rfl, hmissing⟩
  rw [triggerEmissions, mints_append, mints_flatMap, mints_flatMap, hconditions]
  simp only [mints_actionEmissions, Definition.triggerFields, List.mem_append, or_and_right,
    exists_or, List.mem_map, exists_exists_and_eq_and, Field.plain, List.mem_flatMap]
  refine or_congr_right ⟨?_, ?_⟩
  · rintro ⟨a, ha, f, hf, hmissing⟩
    exact ⟨f, ⟨a, ha, hf⟩, hmissing⟩
  · rintro ⟨f, ⟨a, ha, hf⟩, hmissing⟩
    exact ⟨a, ha, f, hf, hmissing⟩

/-! ### Definitions -/

theorem dangles_of_missing {f : Field} (hinlined : f.inlined = none)
    (hchannel : ∀ (m : Message) (direction : Direction), f ∉ m.channelFields direction)
    (h : p.table.Missing document f.reference f.wanted id) : p.table.Dangles document d f id :=
  ⟨hinlined, fun ⟨direction, ⟨m, _, hf⟩, _⟩ => hchannel m direction hf, h⟩

/-- What a message over channels mints belongs to fields that are not cut off. -/
theorem dangles_of_mints_route {direction : Direction} {m : Message}
    (hm : m ∈ d.messages direction)
    (h : Mints (p.routeEmissions document owner d direction m) id) :
    ∃ f ∈ d.fields, p.table.Dangles document d f id := by
  obtain ⟨-, hinlined, hmissing⟩ | ⟨hmistakes, channel, hchannel, hmissing⟩ :=
    mints_routeEmissions.mp h
  · obtain ⟨f, hf, hreference, hf', hwanted, hnot⟩ := Definition.mem_fields_of_message hm
    refine ⟨f, hf, dangles_of_missing (hf'.trans hinlined) hnot ?_⟩
    rw [hreference, hwanted]
    exact hmissing
  · have hf : .plain direction.channelWord (.only .channel) channel ∈ m.channelFields direction :=
      List.mem_map_of_mem hchannel
    refine ⟨_, Definition.mem_fields_of_channel hm hf, rfl, ?_, hmissing⟩
    rintro ⟨direction', ⟨m', -, hf'⟩, hall⟩
    obtain rfl : direction = direction' :=
      Direction.channelWord_injective (Message.word_of_mem_channelFields hf')
    exact hmistakes (hall m hm hf)

theorem mints_body_of_route {direction : Direction} {m : Message}
    (hm : m ∈ d.messages direction)
    (h : Mints (p.routeEmissions document owner d direction m) id) :
    Mints (p.bodyEmissions document owner d) id := by
  unfold bodyEmissions
  cases hbody : d.body with
  | domain b | service b =>
    simp only [mints_append, mints_flatMap]
    cases direction <;> simp only [Definition.messages, hbody] at hm
    · exact .inl ⟨m, hm, h⟩
    · exact .inr ⟨m, hm, h⟩
  | _ => simp [Definition.messages, hbody] at hm

/-- A flow comes to all its fields. -/
theorem mints_flow {b : FlowBody} (hbody : d.body = .flow b) :
    Mints (p.bodyEmissions document owner d) id ↔
      ∃ f ∈ d.fields, p.table.Missing document f.reference f.wanted id := by
  have hchains : (∃ c ∈ b.chains.zipIdx,
      Mints (p.chainEmissions document owner d c.2 0 none c.1) id) ↔
        ∃ f ∈ b.chains.flatten.filterMap Definition.stepField?,
          p.table.Missing document f.reference f.wanted id := by
    simp only [mints_chainEmissions, List.mem_filterMap, List.mem_flatten]
    constructor
    · rintro ⟨⟨steps, chain⟩, hc, f, ⟨s, hs, hf⟩, hmissing⟩
      exact ⟨f, ⟨s, ⟨steps, List.fst_mem_of_mem_zipIdx hc, hs⟩, hf⟩, hmissing⟩
    · rintro ⟨f, ⟨s, ⟨steps, hsteps, hs⟩, hf⟩, hmissing⟩
      obtain ⟨chain, hchain⟩ := List.mem_iff_getElem?.mp hsteps
      exact ⟨(steps, chain), List.mem_zipIdx_iff_getElem?.mpr hchain, f, ⟨s, hs, hf⟩, hmissing⟩
  simp only [bodyEmissions, Definition.fields, hbody, mints_append, mints_flatMap, hchains,
    mints_triggerEmissions, List.mem_append, or_and_right, exists_or, List.mem_flatMap]
  refine or_congr_right ⟨?_, ?_⟩
  · rintro ⟨t, ht, f, hf, hmissing⟩
    exact ⟨f, ⟨t, ht, hf⟩, hmissing⟩
  · rintro ⟨f, ⟨t, ht, hf⟩, hmissing⟩
    exact ⟨t, ht, f, hf, hmissing⟩

theorem dangles_of_mints_body (h : Mints (p.bodyEmissions document owner d) id) :
    ∃ f ∈ d.fields, p.table.Dangles document d f id := by
  cases hbody : d.body with
  | domain b | service b =>
    simp only [bodyEmissions, hbody, mints_append, mints_flatMap] at h
    obtain ⟨m, hm, h⟩ | ⟨m, hm, h⟩ := h
    · exact dangles_of_mints_route (by simpa only [Definition.messages, hbody] using hm) h
    · exact dangles_of_mints_route (by simpa only [Definition.messages, hbody] using hm) h
  | flow b =>
    obtain ⟨f, hf, hmissing⟩ := (mints_flow hbody).mp h
    obtain ⟨hinlined, hnot⟩ := Definition.fields_of_flow hbody hf
    exact ⟨f, hf, dangles_of_missing hinlined hnot hmissing⟩
  | channel b =>
    simp only [bodyEmissions, hbody] at h
    obtain ⟨n, hn, hkind, -⟩ := h
    obtain ⟨q, -, heq⟩ := List.mem_map.mp hn
    cases heq
    cases hkind
  | dataProduct b =>
    simp only [bodyEmissions, hbody] at h
    split at h <;> simp at h
  | _ => simp [bodyEmissions, hbody] at h

/-- A field without an edge that is not cut off is looked at with the body. -/
theorem mints_body_of_edgeless {f : Field} (hf : f ∈ d.fields) (hedge : f.edge = none)
    (h : p.table.Dangles document d f id) : Mints (p.bodyEmissions document owner d) id := by
  obtain ⟨hinlined, hnot, hmissing⟩ := h
  obtain ⟨m, hm, hchannels, hreference, hf', hwanted⟩ | ⟨direction, m, hm, hchannel⟩ | ⟨b, hbody⟩ :=
    Definition.edgeless_cases hf hedge
  · rw [hreference, hwanted] at hmissing
    exact mints_body_of_route hm (mints_routeEmissions.mpr
      (.inl ⟨hchannels, hf'.symm.trans hinlined, hmissing⟩))
  · -- Some message with the channel has a target of the right kind.
    have hright : ∃ m ∈ d.messages direction, f ∈ m.channelFields direction ∧
        ¬ p.table.Mistakes document d m := by
      by_contra hall
      apply hnot
      refine ⟨direction, ⟨m, hm, hchannel⟩, ?_⟩
      intro m' hm' hf'
      by_contra hmistakes
      exact hall ⟨m', hm', hf', hmistakes⟩
    obtain ⟨m, hm, hf, hmistakes⟩ := hright
    obtain ⟨channel, hmem, rfl⟩ := List.mem_map.mp hf
    exact mints_body_of_route hm (mints_routeEmissions.mpr
      (.inr ⟨hmistakes, channel, hmem, hmissing⟩))
  · exact (mints_flow hbody).mpr ⟨f, hf, hmissing⟩

/-- The relationships of a definition mint what its fields miss, those fields apart that are cut
off; a duplicate mints nothing. -/
theorem mints_relationships :
    Mints (p.relationships document d) id ↔
      (document, d.id) ∉ p.duplicates ∧ ∃ f ∈ d.fields, p.table.Dangles document d f id := by
  unfold relationships
  split
  · rename_i hduplicate
    simp only [List.contains_iff_mem] at hduplicate
    simp [hduplicate]
  · rename_i hduplicate
    simp only [List.contains_iff_mem] at hduplicate
    simp only [mints_append, mints_flatMap, hduplicate, not_false_eq_true, true_and]
    constructor
    · rintro (⟨f, hf, h⟩ | h)
      · obtain ⟨hedge, hinlined, hmissing⟩ := mints_fieldEmissions.mp h
        refine ⟨f, hf, dangles_of_missing hinlined ?_ hmissing⟩
        intro m direction hchannel
        exact hedge (Message.edge_of_mem_channelFields hchannel)
      · exact dangles_of_mints_body h
    · rintro ⟨f, hf, h⟩
      by_cases hedge : f.edge = none
      · exact .inr (mints_body_of_edgeless hf hedge h)
      · exact .inl ⟨f, hf, mints_fieldEmissions.mpr ⟨hedge, h.1, h.2.2⟩⟩

/-- A definition mints what it and the definitions inside it mint. -/
theorem mints_definition {path : DocumentPath} {parent : Option String} :
    Mints (p.definition document path parent d) id ↔
      ∃ c ∈ d.all, Mints (p.relationships document c) id := by
  induction d using Definition.induction generalizing parent with
  | h d ih =>
    have hkind : (definitionNode path parent d).kind ≠ .unresolved := by
      simp [definitionNode]
    rw [definition_eq, definitions_eq_flatMap, List.cons_append, mints_node, mints_append,
      mints_flatMap, Definition.all_eq]
    simp only [hkind, false_and, false_or, List.mem_cons, exists_eq_or_imp]
    refine or_congr_right ⟨?_, ?_⟩
    · rintro ⟨c, hc, h⟩
      obtain ⟨e, he, h⟩ := (ih c hc).mp h
      exact ⟨e, Definition.mem_allOf.mpr ⟨c, hc, he⟩, h⟩
    · rintro ⟨e, he, h⟩
      obtain ⟨c, hc, he⟩ := Definition.mem_allOf.mp he
      exact ⟨c, hc, (ih c hc).mpr ⟨e, he, h⟩⟩

end Projection

end EventCatalog
