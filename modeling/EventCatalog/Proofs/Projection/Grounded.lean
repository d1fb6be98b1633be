import EventCatalog.Proofs.Graph.Build
import EventCatalog.Proofs.Graph.Names
import EventCatalog.Proofs.Scope.Resolve
import EventCatalog.Proofs.Syntax.Fields

/-! # Emissions stand on nodes

`Grounded known es`: every edge of `es` joins, and every node of `es` lies in, nodes that are known
beforehand or emitted in `es` itself; and every node is named after its kind.  This is put together
along the emissions (`Grounded.append`, `Grounded.behind`) and shown of each part of a projection,
with the definitions of the linked documents known (`Projection.definition_grounded`). -/

namespace EventCatalog

open Syntax

namespace Emission

/-- A node with the identifier is known or emitted. -/
def Here (known : String → Prop) (es : List Emission) (id : String) : Prop :=
  known id ∨ ∃ n, .node n ∈ es ∧ n.id = id

/-- Edges and parents are nodes that are known or emitted, and nodes are named after their
kinds. -/
structure Grounded (known : String → Prop) (es : List Emission) : Prop where
  source : ∀ e, .edge e ∈ es → Here known es e.source
  target : ∀ e, .edge e ∈ es → Here known es e.target
  parent : ∀ n, .node n ∈ es → ∀ parent, n.parent = some parent → Here known es parent
  named : ∀ n, .node n ∈ es → n.IsNamed

variable {known : String → Prop} {es es' : List Emission} {id : String}

theorem Here.append_left (h : Here known es id) : Here known (es ++ es') id :=
  h.imp_right fun ⟨n, hn, hid⟩ => ⟨n, List.mem_append_left _ hn, hid⟩

theorem Here.append_right (h : Here known es' id) : Here known (es ++ es') id :=
  h.imp_right fun ⟨n, hn, hid⟩ => ⟨n, List.mem_append_right _ hn, hid⟩

theorem Here.flatMap {α : Type} {items : List α} {f : α → List Emission} {a : α} (ha : a ∈ items)
    (h : Here known (f a) id) : Here known (items.flatMap f) id :=
  h.imp_right fun ⟨n, hn, hid⟩ => ⟨n, List.mem_flatMap.mpr ⟨a, ha, hn⟩, hid⟩

/-- What is here after some emissions is here once they are counted in. -/
theorem Here.absorb (h : Here (Here known es) es' id) : Here known (es ++ es') id := by
  obtain h | h := h
  · exact h.append_left
  · exact Here.append_right (.inr h)

namespace Grounded

theorem nil : Grounded known [] := ⟨by simp, by simp, by simp, by simp⟩

/-- Emissions that stand on earlier ones. -/
theorem behind (h : Grounded known es) (h' : Grounded (Here known es) es') :
    Grounded known (es ++ es') where
  source e he := (List.mem_append.mp he).elim (fun he => (h.source e he).append_left)
    fun he => (h'.source e he).absorb
  target e he := (List.mem_append.mp he).elim (fun he => (h.target e he).append_left)
    fun he => (h'.target e he).absorb
  parent n hn parent hp := (List.mem_append.mp hn).elim
    (fun hn => (h.parent n hn parent hp).append_left) fun hn => (h'.parent n hn parent hp).absorb
  named n hn := (List.mem_append.mp hn).elim (h.named n) (h'.named n)

theorem mono {known' : String → Prop} (h : Grounded known es) (hk : ∀ id, known id → known' id) :
    Grounded known' es where
  source e he := (h.source e he).imp_left (hk _)
  target e he := (h.target e he).imp_left (hk _)
  parent n hn parent hp := (h.parent n hn parent hp).imp_left (hk _)
  named := h.named

theorem append (h : Grounded known es) (h' : Grounded known es') : Grounded known (es ++ es') :=
  h.behind (h'.mono fun _ => .inl)

theorem flatMap {α : Type} {items : List α} {f : α → List Emission}
    (h : ∀ a ∈ items, Grounded known (f a)) : Grounded known (items.flatMap f) := by
  induction items with
  | nil => exact nil
  | cons a items ih =>
    rw [List.flatMap_cons]
    exact (h a List.mem_cons_self).append (ih fun b hb => h b (List.mem_cons_of_mem _ hb))

theorem edge {e : Edge} (hsource : known e.source) (htarget : known e.target) :
    Grounded known [.edge e] where
  source e' he := by
    obtain rfl : e' = e := by simpa using he
    exact .inl hsource
  target e' he := by
    obtain rfl : e' = e := by simpa using he
    exact .inl htarget
  parent n hn := by simp at hn
  named n hn := by simp at hn

theorem node {n : Node} (hparent : ∀ parent, n.parent = some parent → known parent)
    (hnamed : n.IsNamed) : Grounded known [.node n] where
  source e he := by simp at he
  target e he := by simp at he
  parent n' hn parent hp := by
    obtain rfl : n' = n := by simpa using hn
    exact .inl (hparent parent hp)
  named n' hn := by
    obtain rfl : n' = n := by simpa using hn
    exact hnamed

end Grounded

end Emission

/-! ### The parts of a projection -/

namespace Projection

open Emission

/-- The nodes of all linked definitions are known. -/
def Knows (p : Projection) (known : String → Prop) : Prop :=
  ∀ s ∈ p.table.exports, known s.nodeId

variable {p : Projection} {known : String → Prop} {document : Nat} {id : String}
  {d : Definition}

theorem Knows.mono {known' : String → Prop} (h : p.Knows known)
    (hk : ∀ id, known id → known' id) : p.Knows known' :=
  fun s hs => hk _ (h s hs)

/-- What a reference points to is known or emitted for it. -/
theorem target?_grounded (hp : p.Knows known) {r : Reference} {inlined : Option Definition}
    {wanted : Wanted} (hinlined : ∀ c, inlined = some c → known c.nodeId) {before : List Emission}
    (h : p.target? document r inlined wanted = some (id, before)) :
    Grounded known before ∧ Here known before id := by
  unfold target? at h
  split at h
  · cases h
    exact ⟨.nil, .inl (hinlined _ rfl)⟩
  · split at h
    · rename_i s hs
      cases h
      exact ⟨.nil, .inl (hp s (SymbolTable.mem_exports_of_resolve hs))⟩
    · cases h
    · cases h
      refine ⟨.node ?_ (Node.isNamed_of_id _ _ rfl), .inr ⟨_, ?_, rfl⟩⟩
      · intro parent hparent
        cases hparent
      · exact List.mem_singleton_self _

theorem reference_grounded (hp : p.Knows known) {r : Reference} {wanted : Wanted}
    {before : List Emission} (h : p.target? document r none wanted = some (id, before)) :
    Grounded known before ∧ Here known before id :=
  target?_grounded hp (fun c hc => by cases hc) h

theorem fieldEmissions_grounded (hp : p.Knows known) (hid : known id)
    (hnested : ∀ c ∈ d.nested, known c.nodeId) {f : Field} (hf : f ∈ d.fields) :
    Grounded known (p.fieldEmissions document id d f) := by
  unfold fieldEmissions
  split
  · exact .nil
  · split
    · exact .nil
    · split
      · exact .nil
      · rename_i htarget
        obtain ⟨hbefore, hhere⟩ := target?_grounded hp
          (fun c hc => hnested c (Definition.nested_of_inlined hf hc)) htarget
        refine hbefore.behind ?_
        split
        · exact .edge (.inl hid) hhere
        · exact .edge hhere (.inl hid)

theorem channelEmissions_grounded (hp : p.Knows known) (hid : known id) {message : String}
    (hmessage : known message) (direction : Direction) (channel : Reference) :
    Grounded known (p.channelEmissions document id message direction channel) := by
  unfold channelEmissions
  split
  · exact .nil
  · rename_i htarget
    obtain ⟨hbefore, hhere⟩ := reference_grounded hp htarget
    refine hbefore.behind (.append (.edge (.inl hmessage) hhere) ?_)
    split
    · exact .nil
    · exact .edge hhere (.inl hid)

theorem routeEmissions_grounded (hp : p.Knows known) (hid : known id)
    (hnested : ∀ c ∈ d.nested, known c.nodeId) (direction : Direction) (m : Message) :
    Grounded known (p.routeEmissions document id d direction m) := by
  unfold routeEmissions
  split
  · exact .nil
  · split
    · exact .nil
    · rename_i htarget
      obtain ⟨hbefore, hhere⟩ := target?_grounded hp
        (fun c hc => hnested c (Definition.nested_of_child? hc)) htarget
      apply hbefore.behind
      apply Grounded.flatMap
      intro channel _
      exact channelEmissions_grounded (hp.mono fun _ => .inl) (.inl hid) hhere direction channel

theorem step?_grounded (hp : p.Knows known) (hid : known id) {chain index : Nat} {s : Step}
    {target : String} {label : Option String} {before : List Emission}
    (h : p.step? document id d chain index s = some (target, label, before)) :
    Grounded known before ∧ Here known before target := by
  cases s with
  | reference r mark =>
    obtain ⟨⟨target', before'⟩, htarget, heq⟩ := Option.map_eq_some_iff.mp h
    cases heq
    exact reference_grounded hp htarget
  | node mark =>
    cases h
    have hnamed : (stepNode id d chain index mark.value).IsNamed :=
      Node.isNamed_of_id _ none rfl
    refine ⟨.node ?_ hnamed, .inr ⟨_, ?_, rfl⟩⟩
    · intro parent hparent
      cases hparent
      exact hid
    · exact List.mem_singleton_self _

theorem chainEmissions_grounded (hp : p.Knows known) (hid : known id) (chain index : Nat)
    (previous : Option (String × Option String)) (steps : List Step)
    (hprevious : ∀ s ∈ previous, known s.1) :
    Grounded known (p.chainEmissions document id d chain index previous steps) := by
  induction steps generalizing known index previous with
  | nil => exact .nil
  | cons s steps ih =>
    rw [chainEmissions]
    split
    · exact ih hp hid _ none nofun
    · rename_i target label before hstep
      obtain ⟨hbefore, hhere⟩ := step?_grounded hp hid hstep
      -- What follows stands on the step as well.
      have hp' : p.Knows (Here known before) := hp.mono fun _ => .inl
      rw [List.append_assoc]
      refine hbefore.behind (.append ?_ (ih hp' (.inl hid) _ (some (target, label)) ?_))
      · split
        · exact .edge (.inl (hprevious _ rfl)) hhere
        · exact .nil
      · intro s hs
        cases hs
        exact hhere

theorem outputEmissions_grounded (hp : p.Knows known) (hid : known id) (o : Output) :
    Grounded known (p.outputEmissions document id o) := by
  unfold outputEmissions
  split
  · exact .nil
  · rename_i htarget
    obtain ⟨hbefore, hhere⟩ := reference_grounded hp htarget
    exact hbefore.behind (.edge (.inl hid) hhere)

theorem actionEmissions_grounded (hp : p.Knows known) {conditions : List String}
    (hconditions : ∀ c ∈ conditions, known c) (a : Action) :
    Grounded known (p.actionEmissions document conditions a) := by
  unfold actionEmissions
  split
  · exact .nil
  · rename_i htarget
    obtain ⟨hbefore, hhere⟩ := reference_grounded hp htarget
    rw [List.append_assoc]
    refine hbefore.behind (.append ?_ (.flatMap fun o _ => ?_))
    · rw [List.map_eq_flatMap]
      exact .flatMap fun c hc => .edge (.inl (hconditions c hc)) hhere
    · exact outputEmissions_grounded (hp.mono fun _ => .inl) hhere o

theorem triggerEmissions_grounded (hp : p.Knows known) (t : Trigger) :
    Grounded known (p.triggerEmissions document t) := by
  have hconditions : ∀ c ∈ t.conditions.filterMap fun c => p.target? document c none .any,
      Grounded known c.2 ∧ Here known c.2 c.1 := by
    intro c hc
    obtain ⟨r, -, htarget⟩ := List.mem_filterMap.mp hc
    exact reference_grounded hp htarget
  unfold triggerEmissions
  apply Grounded.behind (.flatMap fun c hc => (hconditions c hc).1)
  apply Grounded.flatMap
  intro a _
  apply actionEmissions_grounded (hp.mono fun _ => .inl)
  intro target htarget
  obtain ⟨c, hc, rfl⟩ := List.mem_map.mp htarget
  exact .flatMap hc (hconditions c hc).2

theorem bodyEmissions_grounded (hp : p.Knows known) (hid : known id)
    (hnested : ∀ c ∈ d.nested, known c.nodeId) :
    Grounded known (p.bodyEmissions document id d) := by
  have hroutes : ∀ direction (ms : List Message),
      Grounded known (ms.flatMap (p.routeEmissions document id d direction)) :=
    fun direction ms => .flatMap fun m _ => routeEmissions_grounded hp hid hnested direction m
  unfold bodyEmissions
  split
  · exact (hroutes _ _).append (hroutes _ _)
  · exact (hroutes _ _).append (hroutes _ _)
  · refine .append (.flatMap fun chain _ => ?_) (.flatMap fun t _ => ?_)
    · exact chainEmissions_grounded hp hid _ _ none _ (fun s hs => by cases hs)
    · exact triggerEmissions_grounded hp t
  · rw [List.map_eq_flatMap]
    refine .flatMap fun q _ => .node (fun parent hparent => ?_)
      (Node.isNamed_of_id _ none rfl)
    cases hparent
    exact hid
  · simp only
    split
    · exact .nil
    · exact ⟨by simp, by simp, by simp, by simp⟩
  · exact .nil

theorem relationships_grounded (hp : p.Knows known) (hid : known d.nodeId)
    (hnested : ∀ c ∈ d.nested, known c.nodeId) :
    Grounded known (p.relationships document d) := by
  unfold relationships
  split
  · exact .nil
  · apply Grounded.append _ (bodyEmissions_grounded hp hid hnested)
    apply Grounded.flatMap
    intro f hf
    exact fieldEmissions_grounded hp hid hnested hf

theorem definition_eq (document : Nat) (path : DocumentPath) (parent : Option String)
    (d : Definition) :
    p.definition document path parent d =
      .node (definitionNode path parent d) :: p.relationships document d ++
        p.definitions document path (parentInside parent d) d.nested := by
  cases d
  rw [definition]

theorem definitions_eq_flatMap (document : Nat) (path : DocumentPath) (parent : Option String)
    (ds : List Definition) :
    p.definitions document path parent ds = ds.flatMap (p.definition document path parent) := by
  induction ds with
  | nil => rw [definitions, List.flatMap_nil]
  | cons d ds ih => rw [definitions, ih, List.flatMap_cons]

theorem definition_grounded (hp : p.Knows known) (path : DocumentPath) {parent : Option String}
    (hparent : ∀ id ∈ parent, known id) (hd : ∀ c ∈ d.all, known c.nodeId) :
    Grounded known (p.definition document path parent d) := by
  induction d using Definition.induction generalizing parent with
  | h d ih =>
    have hid : known d.nodeId := hd d (Definition.self_mem_all d)
    have hinside : ∀ c ∈ Definition.allOf d.nested, known c.nodeId := fun c hc =>
      hd c (by rw [Definition.all_eq]; exact List.mem_cons_of_mem _ hc)
    have hnode : Grounded known [.node (definitionNode path parent d)] :=
      .node (fun id h => hparent id h) (Node.isNamed_of_id _ _ rfl)
    rw [definition_eq, definitions_eq_flatMap]
    refine .append (.append hnode (relationships_grounded hp hid ?_)) (.flatMap fun c hc => ?_)
    · exact fun c hc => hinside c (Definition.mem_allOf_of_mem hc)
    · refine ih c hc (fun id h => ?_) fun e he => hinside e (Definition.mem_allOf.mpr ⟨c, hc, he⟩)
      unfold parentInside at h
      split at h
      · cases h
        exact hid
      · exact hparent id h

end Projection

end EventCatalog
