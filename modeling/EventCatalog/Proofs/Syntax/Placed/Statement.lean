import EventCatalog.Field
import EventCatalog.Proofs.Syntax.Numbering
import EventCatalog.Proofs.Syntax.Placed.Reader

/-! # Statements and definitions stay in the text

The references of a statement, and the spans that complaints about it point to, lie within the text
that it was read from (`Statement.gives_statement`).  A definition made up of such statements has its
name, its version and the references of all its fields there (`Definition.Stands`), and so have the
definitions inside it (`Definition.Placed`). -/

namespace EventCatalog.Syntax

/-! ### The references of a statement -/

/-- The references of a trigger: its conditions and those of its actions. -/
def Trigger.references (t : Trigger) : List Reference :=
  t.conditions ++ t.actions.flatMap Action.references

/-- The references of a message: its target and its channels. -/
def Message.references (m : Message) : List Reference := m.target :: m.channels

namespace Statement

/-- The references that a statement writes down. -/
def references : Statement → List Reference
  | .member _ _ target _ => [target]
  | .message _ m => m.references
  | .owns r | .input r => [r.target]
  | .reference _ r => [r]
  | .chain steps => steps.flatMap Step.references
  | .trigger t => t.references
  | .output p => [p.target.target]
  | .note _ | .version _ | .attribute _ _ | .parameter _ | .unknown _ _ => []

/-- The spans of a statement that complaints may point to, apart from its references. -/
def places : Statement → List Span
  | .version v => [v.span]
  | .unknown _ span => [span]
  | _ => []

/-- The references and spans of a statement lie within a text. -/
structure Placed (s : Statement) (text : String) : Prop where
  references : ∀ r ∈ s.references, r.Placed text
  places : ∀ p ∈ s.places, p.Within text

variable {text : String} {s : Statement}

/-- A statement that makes no references and is never pointed to. -/
theorem placed_of_nil (hreferences : s.references = []) (hplaces : s.places = []) :
    s.Placed text := by
  constructor
  · rw [hreferences]
    exact List.forall_mem_nil _
  · rw [hplaces]
    exact List.forall_mem_nil _

/-- A statement of one reference. -/
theorem placed_of_reference {r : Reference} (hreferences : s.references = [r])
    (hplaces : s.places = []) (hr : r.Placed text) : s.Placed text := by
  constructor
  · rw [hreferences]
    exact List.forall_mem_singleton.mpr hr
  · rw [hplaces]
    exact List.forall_mem_nil _

/-! ### Reading statements -/

open Reader Phrase

variable (text)

theorem gives_anyLexeme : anyLexeme.Gives text (·.Within text) :=
  (gives_token _ _).map fun _ h => h.within

theorem gives_attributeStatement (word : String) (shape : AttributeShape) :
    (attributeStatement word shape).Gives text (·.Placed text) := by
  cases shape with
  | flag =>
    refine (gives_anyLexeme text).bind fun _ _ => (gives_token _ _).optional.bind fun o _ => ?_
    cases o <;> exact gives_pure (placed_of_nil rfl rfl)
  | text | list key =>
    exact (gives_anyLexeme text).bind fun _ _ => (gives_value text).bind fun _ _ =>
      gives_pure (placed_of_nil rfl rfl)

theorem gives_after (role : Role) (noise : Option String) :
    (after role noise).Gives text (·.Placed text) := by
  refine (gives_anyLexeme text).bind fun _ _ => ?_
  cases noise with
  | some word =>
    exact (gives_keyword text word).optional.bind fun _ _ => (gives_reference text).bind
      fun _ h => gives_pure (placed_of_reference rfl rfl h)
  | none =>
    exact (gives_reference text).bind fun _ h => gives_pure (placed_of_reference rfl rfl h)

theorem gives_ownsStatement : ownsStatement.Gives text (·.Placed text) :=
  (gives_anyLexeme text).bind fun _ _ => (gives_typedReference text).bind fun _ h =>
    gives_pure (placed_of_reference rfl rfl h)

theorem gives_messageStatement (direction : Direction) :
    (messageStatement direction).Gives text (·.Placed text) := by
  refine (gives_anyLexeme text).bind fun _ _ => (gives_token _ _).bind fun _ _ =>
    (gives_reference text).bind fun target htarget =>
      (gives_keyword text _).optional.bind fun o _ => ?_
  cases o with
  | some _ =>
    exact ((gives_reference text).separated (gives_mark text _)).bind fun _ hchannels =>
      gives_pure ⟨List.forall_mem_cons.mpr ⟨htarget, hchannels⟩, List.forall_mem_nil _⟩
  | none => exact gives_pure (placed_of_reference rfl rfl htarget)

theorem gives_memberStatement (sort : Section) :
    (memberStatement sort).Gives text (·.Placed text) :=
  (gives_anyLexeme text).bind fun _ _ => (gives_reference text).bind fun _ h =>
    gives_pure (placed_of_reference rfl rfl h)

theorem gives_unknownStatement (word : String) :
    (unknownStatement word).Gives text (·.Placed text) :=
  (gives_anyLexeme text).bind fun _ h =>
    gives_pure ⟨List.forall_mem_nil _, List.forall_mem_singleton.mpr h⟩

theorem gives_ifAction {α : Type} {Q : α → Prop} {p : Reader α} (hp : p.Gives text Q) :
    (ifAction p).Gives text fun o => ∀ a ∈ o, Q a := by
  refine gives_next?.bind fun o _ => ?_
  cases o with
  | none => exact gives_none
  | some t =>
    simp only
    split
    · exact hp.bind fun _ => gives_some
    · exact gives_none

theorem gives_triggerClause :
    triggerClause.Gives text fun t => ∀ r ∈ t.references, r.Placed text :=
  (gives_keyword text _).bind fun _ _ =>
    ((gives_reference text).separated (gives_keyword text _)).bind fun _ hconditions =>
      (gives_ifAction text (gives_action text)).iterate.bind fun _ hactions =>
        gives_pure (List.forall_mem_append.mpr
          ⟨hconditions, List.forall_mem_flatMap.mpr hactions⟩)

theorem gives_flowStatement (word : String) :
    (flowStatement word).Gives text (·.Placed text) := by
  unfold flowStatement
  split
  · exact (gives_triggerClause text).map fun _ h => ⟨h, List.forall_mem_nil _⟩
  · exact (gives_chain text).map fun _ h => ⟨List.forall_mem_flatMap.mpr h, List.forall_mem_nil _⟩

theorem gives_outputStatement : outputStatement.Gives text (·.Placed text) := by
  refine (gives_anyLexeme text).bind fun _ _ => (gives_typedReference text).bind fun _ h =>
    (gives_nextIs _).bind fun _ _ => ?_
  split
  · exact (gives_contract text).bind fun _ _ => gives_pure (placed_of_reference rfl rfl h)
  · exact gives_pure (placed_of_reference rfl rfl h)

theorem gives_special (k : Kind) (word : String) : (special k word).Gives text (·.Placed text) := by
  unfold special
  split <;> first
    | exact gives_messageStatement text _
    | exact gives_ownsStatement text
    | exact gives_after text _ _
    | exact (gives_parameter text).map fun _ _ => placed_of_nil rfl rfl
    | exact gives_outputStatement text
    | exact gives_flowStatement text _
    | exact gives_unknownStatement text _
    | exact (gives_anyLexeme text).bind fun _ _ => (gives_typedReference text).bind fun _ h =>
        gives_pure (placed_of_reference rfl rfl h)
    | (split <;> first | exact gives_memberStatement text _ | exact gives_unknownStatement text _)

theorem gives_versionStatement : versionStatement.Gives text (·.Placed text) :=
  (gives_anyLexeme text).bind fun _ _ => (gives_version text).bind fun _ h =>
    gives_pure ⟨List.forall_mem_nil _, List.forall_mem_singleton.mpr h.within⟩

theorem gives_worded (k : Kind) (word : String) : (worded k word).Gives text (·.Placed text) := by
  unfold worded
  split
  · exact gives_versionStatement text
  · split
    · exact gives_attributeStatement text _ _
    · exact gives_special text k word

theorem gives_startingWith (k : Kind) (t : Token) :
    (startingWith k t).Gives text (·.Placed text) := by
  unfold startingWith
  split
  · exact (gives_note text).map fun _ _ => placed_of_nil rfl rfl
  · exact gives_worded text k _
  · split
    · exact gives_flowStatement text _
    · exact gives_fail _
  · exact gives_fail _

/-- A statement of a block of any kind stays in the text. -/
theorem gives_statement (k : Kind) : (statement k).Gives text (·.Placed text) :=
  gives_next?.bind fun o _ => by
    cases o with
    | none => exact gives_fail _
    | some t => exact gives_startingWith text k t.token

variable {text}

theorem references_withInlined (id : Nat) (s : Statement) :
    (s.withInlined id).references = s.references := by
  cases s <;> rfl

theorem Placed.withInlined (h : s.Placed text) (id : Nat) : (s.withInlined id).Placed text where
  references := by
    rw [references_withInlined]
    exact h.references
  places := by
    have hplaces : (s.withInlined id).places = s.places := by cases s <;> rfl
    rw [hplaces]
    exact h.places

/-- What a block is opened for is a reference of the statement. -/
theorem mem_references_of_opening? {o : Opening} (h : s.opening? = some o) :
    o.target ∈ s.references := by
  unfold opening? at h
  split at h <;> cases h
  · exact List.mem_singleton_self _
  · exact List.mem_cons_self

end Statement

/-! ### The references of a body -/

/-- The members of all sections. -/
def DomainBody.allMembers (b : DomainBody) : List Member :=
  b.services ++ b.subdomains ++ b.entities ++ b.containers ++ b.channels ++ b.flows ++
    b.dataProducts

/-- Adding a member leaves the other lists. -/
theorem DomainBody.addMember_other (b : DomainBody) (m : Member) (sort : Section) :
    (b.addMember m sort).sends = b.sends ∧ (b.addMember m sort).receives = b.receives ∧
      (b.addMember m sort).owns = b.owns := by
  cases sort <;> exact ⟨rfl, rfl, rfl⟩

theorem DomainBody.mem_allMembers_addMember {b : DomainBody} {m n : Member} {sort : Section}
    (h : n ∈ (b.addMember m sort).allMembers) : n ∈ b.allMembers ∨ n = m := by
  simp only [allMembers, List.mem_append] at h ⊢
  cases sort <;> simp only [addMember, List.mem_append, List.mem_singleton] at h <;> grind

namespace Body

/-- The references of a body. -/
def references : Body → List Reference
  | domain b =>
    b.allMembers.map (·.target) ++ (b.sends ++ b.receives).flatMap Message.references ++
      b.owns.map (·.target)
  | service b =>
    (b.sends ++ b.receives).flatMap Message.references ++ b.writesTo ++ b.readsFrom ++
      b.readsWrites ++ b.entities ++ b.owns.map (·.target)
  | event | command | query | diagram => []
  | channel b => b.routes
  | entity owned => owned.map (·.target)
  | container b => b.readsFrom ++ b.writesTo
  | flow b => b.chains.flatten.flatMap Step.references ++ b.triggers.flatMap Trigger.references
  | actor used | externalSystem used => used
  | user b => b.teams ++ b.owns.map (·.target)
  | team b => b.members ++ b.owns.map (·.target)
  | dataProduct b => b.inputs.map (·.target) ++ b.outputs.map (·.target.target)

theorem references_empty (k : Kind) : (empty k).references = [] := by cases k <;> rfl

/-- A statement adds no references but its own. -/
theorem mem_references_add {b : Body} {s : Statement} {r : Reference}
    (h : r ∈ (b.add s).references) : r ∈ b.references ∨ r ∈ s.references := by
  -- A body ignores all statements but those that add to one of its lists.
  cases b <;> cases s <;> try exact .inl h
  case domain.member b sort keyword target inlined =>
    obtain ⟨hsends, hreceives, howns⟩ := DomainBody.addMember_other b ⟨target, inlined⟩ sort
    simp only [add, references, Statement.references, List.mem_append, hsends, hreceives, howns,
      List.mem_map] at h ⊢
    obtain (⟨n, hn, rfl⟩ | h) | h := h
    · obtain hn | rfl := DomainBody.mem_allMembers_addMember hn
      · exact .inl (.inl (.inl ⟨n, hn, rfl⟩))
      · exact .inr (List.mem_singleton_self _)
    · exact .inl (.inl (.inr h))
    · exact .inl (.inr h)
  case domain.message b direction m | service.message b direction m =>
    cases direction <;>
      simp only [add, references, Statement.references, DomainBody.allMembers, List.mem_append,
        List.flatMap_append, List.flatMap_singleton] at h ⊢ <;> grind
  case service.reference b role r' | channel.reference b role r' | container.reference b role r' |
      actor.reference b role r' | externalSystem.reference b role r' | user.reference b role r' |
      team.reference b role r' =>
    cases role <;> first
      | exact .inl h
      | (simp only [add, references, Statement.references, List.mem_append] at h ⊢
         grind)
  all_goals
    simp only [add, references, Statement.references, DomainBody.allMembers, List.mem_append,
      List.map_append, List.map_singleton, List.flatMap_append, List.flatten_append,
      List.flatMap_singleton, List.flatten_singleton] at h ⊢
    grind

end Body

/-! ### Definitions -/

namespace Definition

variable {d c : Definition} {f : Field} {text : String}

theorem references_messageFields (d : Definition) (sends receives : List Message) :
    (d.messageFields sends receives).map (·.reference) =
      (sends ++ receives).flatMap Message.references := by
  simp only [messageFields, List.map_append, List.map_flatMap, List.flatMap_append, sentFields,
    receivedFields, channelFields, List.map_cons, List.map_map, Function.comp_def, Field.plain,
    List.map_id']
  rfl

theorem references_stepFields (steps : List Step) :
    (steps.filterMap stepField?).map (·.reference) = steps.flatMap Step.references := by
  induction steps with
  | nil => rfl
  | cons step steps ih =>
    rw [List.flatMap_cons, ← ih]
    cases step <;> rfl

theorem references_triggerFields (t : Trigger) :
    (triggerFields t).map (·.reference) = t.references := by
  simp only [triggerFields, actionFields, Trigger.references, List.map_append, List.map_flatMap,
    List.map_cons, List.map_map, Function.comp_def, Field.plain, List.map_id']
  rfl

theorem references_ownedFields (rs : List TypedReference) :
    (ownedFields rs).map (·.reference) = rs.map (·.target) := by
  rw [ownedFields, List.map_map]
  rfl

theorem references_memberFields (d : Definition) (b : DomainBody) :
    (Section.all.flatMap fun sort => (d.memberFields b sort).map (·.reference)) =
      b.allMembers.map (·.target) := by
  simp [Section.all, memberFields, DomainBody.members, DomainBody.allMembers, Function.comp_def]

/-- The fields of a definition are the references of its body. -/
theorem references_fields (d : Definition) : d.fields.map (·.reference) = d.body.references := by
  unfold fields Body.references
  cases d.body <;>
    simp only [List.map_append, references_memberFields, references_messageFields,
      references_ownedFields, references_stepFields, references_triggerFields, List.map_flatMap,
      List.map_map, List.map_nil, Function.comp_def, Field.linking, typedField, List.map_id']

/-- What complaints about a definition point to lies within a text: its name was read there, and its
version and its references stand there. -/
structure Stands (d : Definition) (text : String) : Prop where
  name : d.name.Reads Phrase.name? text
  version : ∀ v ∈ d.version, v.span.Within text
  references : ∀ r ∈ d.body.references, r.Placed text

/-- A definition and all those inside it stand in a text. -/
def Placed (d : Definition) (text : String) : Prop := ∀ c ∈ d.all, c.Stands text

theorem placed_iff : d.Placed text ↔ d.Stands text ∧ ∀ c ∈ d.nested, c.Placed text := by
  rw [Placed, all_eq, List.forall_mem_cons, allOf_eq_flatMap, List.forall_mem_flatMap]
  rfl

theorem Stands.field (h : d.Stands text) (hf : f ∈ d.fields) : f.reference.Placed text := by
  refine h.references _ ?_
  rw [← references_fields]
  exact List.mem_map_of_mem hf

theorem placed_start (id : Nat) (kind : Kind) (keyword : Span) {name : Located String}
    {version : Option (Located String)} (hname : name.Reads Phrase.name? text)
    (hversion : ∀ v ∈ version, v.span.Within text) :
    (start id kind keyword name version).Placed text := by
  refine placed_iff.mpr ⟨⟨hname, hversion, ?_⟩, List.forall_mem_nil _⟩
  have hempty : (start id kind keyword name version).body.references = [] :=
    Body.references_empty kind
  rw [hempty]
  exact List.forall_mem_nil _

/-- A definition with one more statement stands in the text. -/
theorem Stands.add {s : Statement} (h : d.Stands text) (hs : s.Placed text) :
    (d.add s).Stands text := by
  have hbody : ∀ r ∈ (d.body.add s).references, r.Placed text := fun r hr =>
    (Body.mem_references_add hr).elim (h.references r) (hs.references r)
  cases s with
  | version v =>
    refine ⟨h.name, fun w hw => ?_, h.references⟩
    cases hw
    exact hs.places _ (List.mem_singleton_self _)
  | _ => exact ⟨h.name, h.version, by first | exact h.references | exact hbody⟩

theorem Placed.add {s : Statement} (h : d.Placed text) (hs : s.Placed text) :
    (d.add s).Placed text := by
  obtain ⟨hd, hnested⟩ := placed_iff.mp h
  refine placed_iff.mpr ⟨hd.add hs, ?_⟩
  rw [nested_add]
  exact hnested

theorem Placed.addInlined {s : Statement} (h : d.Placed text) (hs : s.Placed text)
    (hc : c.Placed text) : (d.addInlined s c).Placed text := by
  obtain ⟨hd, hnested⟩ := placed_iff.mp (h.add (hs.withInlined c.id))
  refine placed_iff.mpr ⟨⟨hd.name, hd.version, hd.references⟩, ?_⟩
  exact List.forall_mem_append.mpr ⟨hnested, List.forall_mem_singleton.mpr hc⟩

theorem Placed.closeAt (h : d.Placed text) (stop : Span) : (d.closeAt stop).Placed text := by
  obtain ⟨hd, hnested⟩ := placed_iff.mp h
  exact placed_iff.mpr ⟨⟨hd.name, hd.version, hd.references⟩, hnested⟩

end Definition

/-- The definition that a block opens has the name that the statement refers to. -/
theorem Statement.Opening.placed_start {o : Opening} {text : String} (h : o.target.Placed text)
    (id : Nat) : (o.start id).Placed text := by
  refine Definition.placed_start id o.kind o.keyword h.name fun v hv => ?_
  split at hv
  · rename_i raw span _ hspan
    cases hv
    exact h.selector span hspan
  · cases hv

end EventCatalog.Syntax
