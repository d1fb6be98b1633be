import EventCatalog.Proofs.Projection.Grounded
import EventCatalog.Proofs.Syntax.Fields
import Mathlib.Data.List.Basic

/-! # Projections that agree on a document

What is emitted for a document depends on the other documents only through what its references mean,
which of its fields close a cycle, and which of its definitions are duplicates.  Two projections
that agree on these, perhaps under different numbers of the document (`Projection.Agrees`), emit the
same for it (`Projection.Agrees.definitions`). -/

namespace EventCatalog

open Syntax

namespace Projection

/-- Two projections say the same of references with certain names in a document, which has the
number `n` for the first and `n'` for the second. -/
structure Agrees (named : String → Prop) (p p' : Projection) (n n' : Nat) : Prop where
  target? : ∀ r inlined wanted, named r.name.value →
    p'.target? n' r inlined wanted = p.target? n r inlined wanted
  closesCycle : ∀ d f, named f.reference.name.value → p'.closesCycle n' d f = p.closesCycle n d f
  duplicate : ∀ id, p'.duplicates.contains (n', id) = p.duplicates.contains (n, id)

namespace Agrees

variable {named : String → Prop} {p p' : Projection} {n n' : Nat} (h : Agrees named p p' n n')
  {id : String} {d : Definition}

include h

theorem fieldEmissions {f : Field} (hf : named f.reference.name.value) :
    p'.fieldEmissions n' id d f = p.fieldEmissions n id d f := by
  rw [Projection.fieldEmissions, Projection.fieldEmissions]
  simp only [h.closesCycle d f hf, h.target? f.reference f.inlined f.wanted hf]

theorem channelEmissions {message : String} {direction : Direction} {channel : Reference}
    (hchannel : named channel.name.value) :
    p'.channelEmissions n' id message direction channel =
      p.channelEmissions n id message direction channel := by
  rw [Projection.channelEmissions, Projection.channelEmissions, h.target? channel _ _ hchannel]

theorem routeEmissions {direction : Direction} {m : Message} (hm : named m.target.name.value)
    (hchannels : ∀ channel ∈ m.channels, named channel.name.value) :
    p'.routeEmissions n' id d direction m = p.routeEmissions n id d direction m := by
  have heach : ∀ message, m.channels.flatMap (p'.channelEmissions n' id message direction) =
      m.channels.flatMap (p.channelEmissions n id message direction) := fun message =>
    List.flatMap_congr fun channel hchannel => h.channelEmissions (hchannels channel hchannel)
  rw [Projection.routeEmissions, Projection.routeEmissions, h.target? m.target _ _ hm]
  simp only [heach]

theorem step? {chain index : Nat} {s : Step}
    (hs : ∀ f, Definition.stepField? s = some f → named f.reference.name.value) :
    p'.step? n' id d chain index s = p.step? n id d chain index s := by
  cases s with
  | reference target label =>
    rw [Projection.step?, Projection.step?, h.target? target _ _ (hs _ rfl)]
  | node label => rfl

theorem chainEmissions {chain index : Nat} {previous : Option (String × Option String)}
    {steps : List Step} (hsteps : ∀ s ∈ steps, ∀ f, Definition.stepField? s = some f →
      named f.reference.name.value) :
    p'.chainEmissions n' id d chain index previous steps =
      p.chainEmissions n id d chain index previous steps := by
  induction steps generalizing index previous with
  | nil => rfl
  | cons s steps ih =>
    have hrest : ∀ index previous, p'.chainEmissions n' id d chain index previous steps =
        p.chainEmissions n id d chain index previous steps := fun _ _ =>
      ih fun s' hs' => hsteps s' (List.mem_cons_of_mem _ hs')
    rw [Projection.chainEmissions, Projection.chainEmissions, h.step? (hsteps s List.mem_cons_self)]
    simp only [hrest]

theorem actionEmissions {conditions : List String} {a : Action}
    (ha : ∀ f ∈ Definition.actionFields a, named f.reference.name.value) :
    p'.actionEmissions n' conditions a = p.actionEmissions n conditions a := by
  have houtputs : ∀ action, a.outputs.flatMap (p'.outputEmissions n' action) =
      a.outputs.flatMap (p.outputEmissions n action) := by
    refine fun action => List.flatMap_congr fun o ho => ?_
    have hnamed : named o.target.name.value :=
      ha _ (List.mem_cons_of_mem _ (List.mem_map_of_mem ho))
    rw [Projection.outputEmissions, Projection.outputEmissions, h.target? o.target _ _ hnamed]
  rw [Projection.actionEmissions, Projection.actionEmissions,
    h.target? a.target _ _ (ha _ List.mem_cons_self)]
  simp only [houtputs]

theorem triggerEmissions {t : Trigger}
    (ht : ∀ f ∈ Definition.triggerFields t, named f.reference.name.value) :
    p'.triggerEmissions n' t = p.triggerEmissions n t := by
  have hconditions : t.conditions.filterMap (fun c => p'.target? n' c none .any) =
      t.conditions.filterMap (fun c => p.target? n c none .any) :=
    List.filterMap_congr fun c hc =>
      h.target? c _ _ (ht _ (List.mem_append_left _ (List.mem_map_of_mem hc)))
  have hactions : ∀ conditions, t.actions.flatMap (p'.actionEmissions n' conditions) =
      t.actions.flatMap (p.actionEmissions n conditions) := fun conditions =>
    List.flatMap_congr fun a ha => h.actionEmissions fun f hf =>
      ht f (List.mem_append_right _ (List.mem_flatMap.mpr ⟨a, ha, hf⟩))
  simp only [Projection.triggerEmissions, hconditions, hactions]

section

variable (hd : ∀ f ∈ d.fields, named f.reference.name.value)

include hd

/-- The messages and channels of a definition are among its fields. -/
theorem messagesEmissions (id : String) (direction : Direction) :
    (d.messages direction).flatMap (p'.routeEmissions n' id d direction) =
      (d.messages direction).flatMap (p.routeEmissions n id d direction) := by
  refine List.flatMap_congr fun m hm => h.routeEmissions ?_ fun channel hchannel => ?_
  · obtain ⟨f, hf, hreference, -⟩ := Definition.mem_fields_of_message hm
    exact hreference ▸ hd f hf
  · exact hd _ (Definition.mem_fields_of_channel hm (List.mem_map_of_mem hchannel))

theorem bodyEmissions : p'.bodyEmissions n' id d = p.bodyEmissions n id d := by
  have hsends := h.messagesEmissions hd id .outgoing
  have hreceives := h.messagesEmissions hd id .incoming
  rw [Projection.bodyEmissions, Projection.bodyEmissions]
  cases hbody : d.body with
  | domain b =>
    simp only [Definition.messages, hbody] at hsends hreceives
    simp only [hsends, hreceives]
  | service b =>
    simp only [Definition.messages, hbody] at hsends hreceives
    simp only [hsends, hreceives]
  | flow b =>
    simp only [Definition.fields, hbody, List.mem_append] at hd
    have hchains : b.chains.zipIdx.flatMap (fun x =>
          p'.chainEmissions n' id d x.2 0 none x.1) =
        b.chains.zipIdx.flatMap (fun x => p.chainEmissions n id d x.2 0 none x.1) := by
      refine List.flatMap_congr fun x hx => ?_
      refine h.chainEmissions fun s hs f hf => hd f (.inl (List.mem_filterMap.mpr ⟨s, ?_, hf⟩))
      exact List.mem_flatten.mpr ⟨x.1, List.fst_mem_of_mem_zipIdx hx, hs⟩
    have htriggers : b.triggers.flatMap (p'.triggerEmissions n') =
        b.triggers.flatMap (p.triggerEmissions n) :=
      List.flatMap_congr fun t ht => h.triggerEmissions fun f hf =>
        hd f (.inr (List.mem_flatMap.mpr ⟨t, ht, hf⟩))
    simp only [hchains, htriggers]
  | _ => rfl

theorem relationships : p'.relationships n' d = p.relationships n d := by
  rw [Projection.relationships, Projection.relationships, h.duplicate, h.bodyEmissions hd]
  congr 2
  exact List.flatMap_congr fun f hf => h.fieldEmissions (hd f hf)

end

theorem definition {path : DocumentPath} {parent : Option String}
    (hd : ∀ c ∈ d.all, ∀ f ∈ c.fields, named f.reference.name.value) :
    p'.definition n' path parent d = p.definition n path parent d := by
  induction d using Definition.induction generalizing parent with
  | h d ih =>
    rw [definition_eq, definition_eq, h.relationships (hd d (Definition.self_mem_all d)),
      definitions_eq_flatMap, definitions_eq_flatMap]
    congr 1
    refine List.flatMap_congr fun c hc => ih c hc fun e he => hd e ?_
    rw [Definition.all_eq]
    exact List.mem_cons_of_mem _ (Definition.mem_allOf.mpr ⟨c, hc, he⟩)

/-- What is emitted for a program all of whose references are among those agreed on. -/
theorem definitions {path : DocumentPath} {program : Program}
    (hnamed : ∀ d ∈ program.all, ∀ f ∈ d.fields, named f.reference.name.value) :
    p'.definitions n' path none program.definitions =
      p.definitions n path none program.definitions := by
  rw [definitions_eq_flatMap, definitions_eq_flatMap]
  exact List.flatMap_congr fun d hd => h.definition fun c hc =>
    hnamed c (Definition.mem_allOf.mpr ⟨d, hd, hc⟩)

end Agrees

end Projection

end EventCatalog
