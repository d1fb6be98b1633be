import EventCatalog.Field
import EventCatalog.Proofs.Syntax.Definitions

/-! # The fields of a definition

What the fields of a definition are is said once (`Definition.IsField`).  So what a field holds in
place of a reference is a definition written directly inside its holder
(`Definition.nested_of_inlined`), apart from flows only messages and their channels make fields
without an edge (`edgeless_cases`), and what is received directly is told by `Definition.Receives`
(`receives_of_mem_fields`).  Messages and their channels are fields (`mem_fields_of_message`,
`mem_fields_of_channel`), and so are the references of flows. -/

namespace EventCatalog.Syntax

/-! ### Messages -/

/-- The word before the channels of a message. -/
def Direction.channelWord : Direction → String
  | .outgoing => "to"
  | .incoming => "from"

theorem Direction.channelWord_injective {direction other : Direction}
    (h : direction.channelWord = other.channelWord) : direction = other := by
  cases direction <;> cases other <;> first | rfl | exact absurd h (by decide)

namespace Message

/-- The fields of the channels of a message that goes in a direction. -/
def channelFields (m : Message) (direction : Direction) : List Field :=
  Definition.channelFields direction.channelWord m.channels

variable {m : Message} {direction : Direction} {f : Field}

theorem word_of_mem_channelFields (h : f ∈ m.channelFields direction) :
    f.word = direction.channelWord := by
  obtain ⟨channel, -, rfl⟩ := List.mem_map.mp h
  rfl

theorem edge_of_mem_channelFields (h : f ∈ m.channelFields direction) : f.edge = none := by
  obtain ⟨channel, -, rfl⟩ := List.mem_map.mp h
  rfl

theorem inlined_of_mem_channelFields (h : f ∈ m.channelFields direction) : f.inlined = none := by
  obtain ⟨channel, -, rfl⟩ := List.mem_map.mp h
  rfl

end Message

namespace Definition

/-- The messages that a definition sends or receives. -/
def messages (d : Definition) (direction : Direction) : List Message :=
  match d.body, direction with
  | .domain b, .outgoing => b.sends
  | .domain b, .incoming => b.receives
  | .service b, .outgoing => b.sends
  | .service b, .incoming => b.receives
  | _, _ => []

variable {d : Definition} {f : Field} {direction : Direction} {m : Message}

theorem mem_fields_of_messageFields
    (hf : f ∈ d.messageFields (d.messages .outgoing) (d.messages .incoming)) : f ∈ d.fields := by
  unfold fields
  cases hbody : d.body with
  | domain b =>
    simp only [messages, hbody] at hf
    exact List.mem_append_left _ (List.mem_append_right _ hf)
  | service b =>
    simp only [messages, hbody] at hf
    simp only [List.mem_append]
    exact .inl (.inl (.inl (.inl (.inl hf))))
  | _ => simp [messages, hbody, messageFields] at hf

/-- The target of a message is a field. -/
theorem mem_fields_of_message (hm : m ∈ d.messages direction) :
    ∃ f ∈ d.fields, f.reference = m.target ∧ f.inlined = m.inlined.bind d.child? ∧
      f.wanted = .only m.kind.value ∧
        ∀ (m' : Message) (other : Direction), f ∉ m'.channelFields other := by
  cases direction with
  | outgoing =>
    refine ⟨_, mem_fields_of_messageFields (List.mem_append_left _
      (List.mem_flatMap.mpr ⟨m, hm, List.mem_cons_self⟩)), rfl, rfl, rfl, ?_⟩
    intro m' other hf
    have hword : "sends" = other.channelWord := Message.word_of_mem_channelFields hf
    cases other <;> exact absurd hword (by decide)
  | incoming =>
    refine ⟨_, mem_fields_of_messageFields (List.mem_append_right _
      (List.mem_flatMap.mpr ⟨m, hm, List.mem_cons_self⟩)), rfl, rfl, rfl, ?_⟩
    intro m' other hf
    have hword : "receives" = other.channelWord := Message.word_of_mem_channelFields hf
    cases other <;> exact absurd hword (by decide)

/-- The channels of a message are fields. -/
theorem mem_fields_of_channel (hm : m ∈ d.messages direction)
    (hf : f ∈ m.channelFields direction) : f ∈ d.fields := by
  cases direction with
  | outgoing =>
    exact mem_fields_of_messageFields (List.mem_append_left _ (List.mem_flatMap.mpr
      ⟨m, hm, List.mem_cons_of_mem _ hf⟩))
  | incoming =>
    exact mem_fields_of_messageFields (List.mem_append_right _ (List.mem_flatMap.mpr
      ⟨m, hm, List.mem_cons_of_mem _ hf⟩))

/-! ### All fields -/

/-- What the fields of a definition are. -/
inductive IsField (d : Definition) : Field → Prop
  | sent {m : Message} (hm : m ∈ d.messages .outgoing) :
      IsField d ⟨"sends", m.target, m.inlined.bind d.child?, .only m.kind.value,
        some (.sends, .source)⟩
  | received {m : Message} (hm : m ∈ d.messages .incoming) :
      IsField d ⟨"receives", m.target, m.inlined.bind d.child?, .only m.kind.value,
        if m.channels.isEmpty then some (.receives, .target) else none⟩
  | channel {m : Message} {direction : Direction} {f : Field} (hm : m ∈ d.messages direction)
      (hf : f ∈ m.channelFields direction) : IsField d f
  | member {word : String} {r : Reference} {inlined : Option Nat} {kind : Kind} :
      IsField d ⟨word, r, inlined.bind d.child?, .only kind, some (.contains, .source)⟩
  | input {b : DataProductBody} {r : TypedReference} (hbody : d.body = .dataProduct b)
      (hr : r ∈ b.inputs) : IsField d (typedField "input" .receives .target r)
  | step {b : FlowBody} {word : String} {r : Reference} (hbody : d.body = .flow b) :
      IsField d (.plain word .any r)
  /-- Any other field has an edge, and what owns is its source. -/
  | link {word : String} {wanted : Wanted} {kind : EdgeKind} {side : Side} {r : Reference}
      (hkind : kind ≠ .contains ∧ kind ≠ .receives ∧ kind ≠ .flowStep)
      (hside : kind = .owns → side = .source) : IsField d (.linking word wanted kind side r)

theorem isField_of_messageFields
    (hf : f ∈ d.messageFields (d.messages .outgoing) (d.messages .incoming)) : d.IsField f := by
  simp only [messageFields, List.mem_append, List.mem_flatMap, sentFields, receivedFields,
    List.mem_cons] at hf
  obtain ⟨m, hm, rfl | hf⟩ | ⟨m, hm, rfl | hf⟩ := hf
  · exact .sent hm
  · exact .channel hm hf
  · exact .received hm
  · exact .channel hm hf

/-- Every field of a definition is one of these. -/
theorem isField_of_mem_fields (hf : f ∈ d.fields) : d.IsField f := by
  have hmap : ∀ {α : Type} {g : α → Field} {items : List α}, (∀ a, d.IsField (g a)) →
      f ∈ items.map g → d.IsField f := by
    intro α g items hg hmem
    obtain ⟨a, -, rfl⟩ := List.mem_map.mp hmem
    exact hg a
  have howned {owned : List TypedReference} (hf : f ∈ ownedFields owned) : d.IsField f :=
    hmap (fun _ => .link (by decide) fun _ => rfl) hf
  unfold fields at hf
  cases hbody : d.body with
  | domain b =>
    simp only [hbody, List.mem_append, List.mem_flatMap] at hf
    obtain (⟨s, -, hf⟩ | hf) | hf := hf
    · exact hmap (fun _ => .member) hf
    · exact isField_of_messageFields (by simpa only [messages, hbody] using hf)
    · exact howned hf
  | service b =>
    simp only [hbody, List.mem_append] at hf
    obtain ((((hf | hf) | hf) | hf) | hf) | hf := hf
    · exact isField_of_messageFields (by simpa only [messages, hbody] using hf)
    all_goals exact hmap (fun _ => .link (by decide) fun _ => rfl) hf
  | event | command | query | diagram =>
    simp only [hbody, List.not_mem_nil] at hf
  | channel _ | entity _ | actor _ | externalSystem _ =>
    simp only [hbody] at hf
    exact hmap (fun _ => .link (by decide) fun _ => rfl) hf
  | container _ | user _ | team _ =>
    simp only [hbody, List.mem_append] at hf
    obtain hf | hf := hf
    all_goals exact hmap (fun _ => .link (by decide) (by decide)) hf
  | flow b =>
    simp only [hbody, List.mem_append, List.mem_filterMap, List.mem_flatMap, triggerFields,
      actionFields, List.mem_cons] at hf
    obtain ⟨s, -, hs⟩ | ⟨g, -, hf | ⟨a, -, rfl | hf⟩⟩ := hf
    · cases s <;> cases hs
      exact .step hbody
    · exact hmap (fun _ => .step hbody) hf
    · exact .step hbody
    · exact hmap (fun _ => .step hbody) hf
  | dataProduct b =>
    simp only [hbody, List.mem_append] at hf
    obtain hf | hf := hf
    · obtain ⟨r, hr, rfl⟩ := List.mem_map.mp hf
      exact .input hbody hr
    · exact hmap (fun _ => .link (by decide) (by decide)) hf

theorem nested_of_child? {c : Definition} {n : Option Nat} (h : n.bind d.child? = some c) :
    c ∈ d.nested := by
  obtain ⟨n, -, hchild⟩ := Option.bind_eq_some_iff.mp h
  exact List.mem_of_find?_eq_some hchild

/-- What is written in place of a reference is inside its holder. -/
theorem nested_of_inlined {c : Definition} (hf : f ∈ d.fields) (hc : f.inlined = some c) :
    c ∈ d.nested := by
  cases isField_of_mem_fields hf with
  | sent | received | member => exact nested_of_child? hc
  | channel _ hf =>
    rw [Message.inlined_of_mem_channelFields hf] at hc
    cases hc
  | input | step | link => cases hc

/-- A field without an edge is a message that comes over channels, a channel, or in a flow. -/
theorem edgeless_cases (hf : f ∈ d.fields) (hedge : f.edge = none) :
    (∃ m ∈ d.messages .incoming, m.channels ≠ [] ∧ f.reference = m.target ∧
        f.inlined = m.inlined.bind d.child? ∧ f.wanted = .only m.kind.value) ∨
      (∃ direction, ∃ m ∈ d.messages direction, f ∈ m.channelFields direction) ∨
      ∃ b, d.body = .flow b := by
  cases isField_of_mem_fields hf with
  | @received m hm =>
    have hchannels : m.channels ≠ [] := by
      intro hnil
      rw [hnil] at hedge
      cases hedge
    exact .inl ⟨m, hm, hchannels, rfl, rfl, rfl⟩
  | channel hm hf => exact .inr (.inl ⟨_, _, hm, hf⟩)
  | step hbody => exact .inr (.inr ⟨_, hbody⟩)
  | sent | member | input | link => cases hedge

/-! ### What is received -/

/-- What a definition receives directly: a message that comes over no channel, or an input. -/
inductive Receives (d : Definition) : Field → Prop
  | message {m : Message} (hm : m ∈ d.messages .incoming) (hchannels : m.channels = []) :
      Receives d ⟨"receives", m.target, m.inlined.bind d.child?, .only m.kind.value,
        some (.receives, .target)⟩
  | input {b : DataProductBody} {r : TypedReference} (hbody : d.body = .dataProduct b)
      (hr : r ∈ b.inputs) : Receives d (typedField "input" .receives .target r)

theorem Receives.edge (h : d.Receives f) : f.edge = some (.receives, .target) := by
  cases h <;> rfl

theorem Receives.mem_fields (h : d.Receives f) : f ∈ d.fields := by
  cases h with
  | message hm hchannels =>
    refine mem_fields_of_messageFields (List.mem_append_right _ (List.mem_flatMap.mpr ⟨_, hm, ?_⟩))
    rw [receivedFields, hchannels]
    exact List.mem_cons_self
  | input hbody hr =>
    rw [fields, hbody]
    exact List.mem_append_left _ (List.mem_map_of_mem hr)

/-- A field says that something is received only if this is received directly, and no field says
that one step follows another. -/
theorem receives_of_mem_fields {kind : EdgeKind} {side : Side} (hf : f ∈ d.fields)
    (hedge : f.edge = some (kind, side)) :
    kind ≠ .receives ∧ kind ≠ .flowStep ∨ kind = .receives ∧ d.Receives f := by
  cases isField_of_mem_fields hf with
  | sent | member =>
    cases hedge
    exact .inl (by decide)
  | @received m hm =>
    cases hchannels : m.channels with
    | nil =>
      rw [hchannels] at hedge
      cases hedge
      exact .inr ⟨rfl, .message hm hchannels⟩
    | cons =>
      rw [hchannels] at hedge
      cases hedge
  | channel _ hf =>
    rw [Message.edge_of_mem_channelFields hf] at hedge
    cases hedge
  | input hbody hr =>
    cases hedge
    exact .inr ⟨rfl, .input hbody hr⟩
  | step => cases hedge
  | link hkind =>
    cases hedge
    exact .inl hkind.2

/-! ### Flows -/

/-- The fields of a flow hold references of any kind, none of them to a channel of a message. -/
theorem fields_of_flow {b : FlowBody} (hbody : d.body = .flow b) (hf : f ∈ d.fields) :
    f.inlined = none ∧ ∀ (m : Message) (other : Direction), f ∉ m.channelFields other := by
  have hplain : ∀ {word : String} {r : Reference}, (Field.plain word .any r).inlined = none ∧
      ∀ (m : Message) (other : Direction), Field.plain word .any r ∉ m.channelFields other := by
    intro word r
    refine ⟨rfl, ?_⟩
    intro m other hf
    obtain ⟨channel, -, heq⟩ := List.mem_map.mp hf
    cases congrArg Field.wanted heq
  simp only [fields, hbody, List.mem_append, List.mem_filterMap, List.mem_flatMap, triggerFields,
    actionFields, List.mem_cons, List.mem_map] at hf
  obtain ⟨s, -, hs⟩ | ⟨t, -, ⟨r, -, rfl⟩ | ⟨a, -, rfl | ⟨o, -, rfl⟩⟩⟩ := hf
  · cases s with
    | reference r label =>
      cases hs
      exact hplain
    | node label => cases hs
  · exact hplain
  · exact hplain
  · exact hplain

section

variable {b : FlowBody} {r : Reference} {g : Trigger} (hbody : d.body = .flow b)

include hbody

theorem mem_fields_of_step {steps : List Step} (hsteps : steps ∈ b.chains)
    {label : Option (Located String)} (hr : .reference r label ∈ steps) :
    .plain "step" .any r ∈ d.fields := by
  rw [fields, hbody]
  exact List.mem_append_left _ (List.mem_filterMap.mpr
    ⟨_, List.mem_flatten.mpr ⟨steps, hsteps, hr⟩, rfl⟩)

theorem mem_fields_of_trigger (hg : g ∈ b.triggers) (hf : f ∈ triggerFields g) :
    f ∈ d.fields := by
  rw [fields, hbody]
  exact List.mem_append_right _ (List.mem_flatMap.mpr ⟨g, hg, hf⟩)

theorem mem_fields_of_condition (hg : g ∈ b.triggers) (hr : r ∈ g.conditions) :
    .plain "when" .any r ∈ d.fields :=
  mem_fields_of_trigger hbody hg (List.mem_append_left _ (List.mem_map_of_mem hr))

theorem mem_fields_of_action (hg : g ∈ b.triggers) {a : Action} (ha : a ∈ g.actions)
    (hf : f ∈ actionFields a) : f ∈ d.fields :=
  mem_fields_of_trigger hbody hg (List.mem_append_right _ (List.mem_flatMap.mpr ⟨a, ha, hf⟩))

end

end Definition

end EventCatalog.Syntax
