import EventCatalog.Proofs.Syntax.Entries
import EventCatalog.Proofs.Syntax.Framed.Reader
import EventCatalog.Proofs.Syntax.Placed.Statement

/-! # Statements and definitions keep to the order of the text

A statement stands between the offset it is read from and the one it gets to, and if it may open a
block, it does not begin before the keyword of the definition that the block belongs to
(`Statement.gathers_statement`).

A definition that is being read holds what stands between its start and some offset
(`Definition.FramedUpTo`): statements move the offset on, and the end of the block makes it the end
of the definition. -/

namespace EventCatalog.Syntax

open Text EventCatalog.Span Reader

/-! ### The spans of statements -/

/-- The spans of a message: its kind, its target and its channels. -/
def Message.spans (m : Message) : List Span :=
  m.kind.span :: (m.target.spans ++ m.channels.flatMap Reference.spans)

/-- The spans of a trigger, of its conditions and of its actions. -/
def Trigger.spans (t : Trigger) : List Span :=
  t.span :: (t.conditions.flatMap Reference.spans ++ t.actions.flatMap Action.spans)

namespace Statement

/-- The spans of a statement. -/
def spans : Statement → List Span
  | .note a => a.spans
  | .version v => [v.span]
  | .attribute _ v => [v.span]
  | .member _ keyword target _ => keyword :: target.spans
  | .message _ m => m.spans
  | .owns r | .input r => r.spans
  | .reference _ r => r.spans
  | .parameter p => p.spans
  | .chain steps => steps.flatMap Step.spans
  | .trigger t => t.spans
  | .output p => p.target.spans
  | .unknown _ span => [span]

/-- Whether a block of the kind has a place for the definition that a statement opens: domains have
members, domains and services have messages. -/
def IsHostedBy (k : Kind) : Statement → Prop
  | .member _ _ _ _ => k = .domain
  | .message _ _ => k = .domain ∨ k = .service
  | _ => False

/-- A statement of a block of a kind stands between two offsets, and none of it before the keyword
of the definition that it may open, which the block has a place for. -/
structure Framed (k : Kind) (t : Text) (lo hi : Nat) (s : Statement) : Prop where
  spans : AllBetween s.spans t lo hi
  fresh : s.inlined? = none
  opening : ∀ o, s.opening? = some o → s.IsHostedBy k ∧ AllBetween s.spans t o.keyword.start hi

variable {s : Statement} {t : Text} {lo hi : Nat} {k : Kind}

theorem framed_of_opening?_eq_none (h : AllBetween s.spans t lo hi) (hs : s.opening? = none) :
    s.Framed k t lo hi := by
  refine ⟨h, ?_, ?_⟩
  · cases s <;> first
      | rfl
      | cases hs
  · intro o ho
    rw [hs] at ho
    cases ho

theorem Framed.mono {hi' : Nat} (h : s.Framed k t lo hi) (hle : hi ≤ hi') :
    s.Framed k t lo hi' := by
  refine ⟨h.spans.mono (Nat.le_refl _) hle, h.fresh, ?_⟩
  intro o ho
  exact ⟨(h.opening o ho).1, (h.opening o ho).2.mono (Nat.le_refl _) hle⟩

/-! ### Reading statements -/

open Phrase

theorem takesOne_anyLexeme : anyLexeme.TakesOne id := (takesOne_token _ _).map fun _ => rfl

theorem passes_anyLexeme : anyLexeme.Adds fun _ => [] := takesOne_anyLexeme.adds.passes

theorem gathers_attributeStatement (word : String) (shape : AttributeShape) :
    (attributeStatement word shape).Gathers [] (Framed k) := by
  cases shape with
  | flag =>
    refine (takesOne_anyLexeme.adds _).bind fun keyword => ?_
    refine ((takesOne_token _ _).adds.optional _).bind fun o => ?_
    cases o with
    | none =>
      exact gathers_pure fun _ _ _ h => framed_of_opening?_eq_none h rfl
    | some v =>
      refine gathers_pure ?_
      intro t lo hi h
      refine framed_of_opening?_eq_none ?_ rfl
      simp only [allBetween_append, allBetween_cons, Option.elim, id, Statement.spans] at h ⊢
      obtain ⟨⟨hv, -⟩, ⟨hkeyword, -⟩, hnil⟩ := h
      exact ⟨hkeyword.union hv, hnil⟩
  | text | list key =>
    refine (takesOne_anyLexeme.adds _).bind fun keyword => ?_
    refine (takesOne_value.adds _).bind fun v => gathers_pure ?_
    intro t lo hi h
    refine framed_of_opening?_eq_none ?_ rfl
    simp only [allBetween_append, allBetween_cons, id, Statement.spans] at h ⊢
    obtain ⟨⟨hv, -⟩, ⟨hkeyword, -⟩, hnil⟩ := h
    exact ⟨hkeyword.union hv, hnil⟩

/-- A reader whose value makes up a statement that opens no block. -/
theorem gathers_of_adds {α : Type} {spans : α → List Span} {p : Reader α} {f : α → Statement}
    (hp : p.Adds spans) (hspans : ∀ a, (f a).spans = spans a) (hf : ∀ a, (f a).opening? = none)
    (known : List Span) : (f <$> p).Gathers known (Framed k) := by
  refine (hp known).map ?_
  intro t lo hi a h
  refine framed_of_opening?_eq_none ?_ (hf a)
  rw [hspans]
  exact (allBetween_append.mp h).1

theorem gathers_after (role : Role) (noise : Option String) :
    (after role noise).Gathers [] (Framed k) := by
  refine (passes_anyLexeme _).bind fun _ => ?_
  cases noise with
  | some word =>
    refine ((takesOne_keyword word).adds.optional.passes _).bind fun _ => ?_
    exact gathers_of_adds adds_reference (fun _ => rfl) (fun _ => rfl) _
  | none => exact gathers_of_adds adds_reference (fun _ => rfl) (fun _ => rfl) _

theorem gathers_ownsStatement : ownsStatement.Gathers [] (Framed k) :=
  (passes_anyLexeme _).bind fun _ =>
    gathers_of_adds adds_typedReference (fun _ => rfl) (fun _ => rfl) _

/-- The kind of a message is the keyword of the definition that it may open. -/
theorem gathers_messageStatement (hk : k = .domain ∨ k = .service) (direction : Direction) :
    (messageStatement direction).Gathers [] (Framed k) := by
  refine (passes_anyLexeme _).bind fun _ => ?_
  refine (takesOne_token _ _).bind_first fun kind => ?_
  have hframed : ∀ {t : Text} {lo hi : Nat} {m : Message}, m.kind = kind → m.inlined = none →
      AllBetween m.spans t lo hi → lo = kind.span.start → ∀ lo', lo' ≤ lo →
        (message direction m).Framed k t lo' hi := by
    rintro t lo hi m rfl hfresh h rfl lo' hlo
    refine ⟨h.mono hlo (Nat.le_refl _), hfresh, ?_⟩
    intro o ho
    cases ho
    exact ⟨hk, h⟩
  refine (adds_reference _).bind fun target => ?_
  refine ((takesOne_keyword _).adds.optional.passes _).bind fun o => ?_
  cases o with
  | none =>
    refine gathers_pure ?_
    intro t lo hi h
    refine hframed rfl rfl ?_
    simp only [allBetween_append, allBetween_cons, Message.spans, List.flatMap_nil] at h ⊢
    obtain ⟨hnil, htarget, hkind, -⟩ := h
    exact ⟨hkind, htarget, hnil⟩
  | some _ =>
    refine (adds_reference.separated (takesOne_mark _).adds.passes _).bind fun channels => ?_
    refine gathers_pure ?_
    intro t lo hi h
    refine hframed rfl rfl ?_
    simp only [allBetween_append, allBetween_cons, Message.spans] at h ⊢
    obtain ⟨hchannels, -, htarget, hkind, -⟩ := h
    exact ⟨hkind, htarget, hchannels⟩

/-- The keyword of a member is the keyword of the definition that it may open. -/
theorem gathers_memberStatement (sort : Section) :
    (memberStatement sort).Gathers [] (Framed .domain) := by
  refine takesOne_anyLexeme.bind_first fun keyword => ?_
  refine (adds_reference _).bind fun target => gathers_pure ?_
  intro t lo hi h hlo lo' hle
  have hspans : AllBetween (keyword :: target.spans) t lo hi := by
    simp only [allBetween_append, allBetween_cons, id] at h ⊢
    exact ⟨h.2.1, h.1⟩
  refine ⟨hspans.mono hle (Nat.le_refl _), rfl, ?_⟩
  intro o ho
  cases ho
  rw [hlo] at hspans
  exact ⟨rfl, hspans⟩

theorem gathers_unknownStatement (word : String) :
    (unknownStatement word).Gathers [] (Framed k) :=
  gathers_of_adds takesOne_anyLexeme.adds (fun _ => rfl) (fun _ => rfl) _

theorem adds_ifAction {α : Type} {spans : α → List Span} {p : Reader α} (hp : p.Adds spans) :
    (ifAction p).Adds fun o => o.elim [] spans := by
  intro known
  refine (adds_next? known).bind fun o => ?_
  cases o with
  | none => exact gathers_pure fun _ _ _ h => h
  | some x =>
    simp only
    split
    · exact (hp _).bind fun _ => gathers_pure fun _ _ _ h => h
    · exact gathers_pure fun _ _ _ h => h

theorem between_actionEnd {a : Action} (h : AllBetween a.spans t lo hi) :
    (actionEnd a).Between t lo hi := by
  unfold actionEnd
  split
  · rename_i last hlast
    refine h _ ?_
    refine List.mem_append_right _ (List.mem_flatMap.mpr ⟨last, List.mem_of_getLast? hlast, ?_⟩)
    exact List.mem_append_right _ List.mem_cons_self
  · exact h _ (List.mem_append_left _ (List.mem_append_left _ List.mem_cons_self))

/-- The span of a trigger is put together from spans inside it. -/
theorem between_foldl_actionEnd {actions : List Action} {s : Span}
    (h : AllBetween (actions.flatMap Action.spans) t lo hi) (hs : s.Between t lo hi) :
    (actions.foldl (fun s a => s.union (actionEnd a)) s).Between t lo hi := by
  induction actions generalizing s with
  | nil => exact hs
  | cons a actions ih =>
    rw [List.flatMap_cons] at h
    obtain ⟨ha, hrest⟩ := allBetween_append.mp h
    exact ih hrest (hs.union (between_actionEnd ha))

theorem adds_triggerClause : triggerClause.Adds Trigger.spans := by
  intro known
  refine ((takesOne_keyword _).adds known).bind fun start => ?_
  refine (adds_reference.separated (takesOne_keyword _).adds.passes _).bind fun conditions => ?_
  refine ((adds_ifAction adds_action).iterate _).bind fun actions => gathers_pure ?_
  intro t lo hi h
  simp only [Spread, allBetween_append, allBetween_cons, Trigger.spans, id] at h ⊢
  obtain ⟨hactions, hconditions, ⟨hstart, -⟩, hknown⟩ := h
  refine ⟨⟨between_foldl_actionEnd hactions ?_, hconditions, hactions⟩, hknown⟩
  cases hlast : conditions.getLast? with
  | none => exact hstart
  | some last =>
    refine hstart.union (hconditions _ ?_)
    exact List.mem_flatMap.mpr ⟨last, List.mem_of_getLast? hlast, List.mem_cons_self⟩

theorem gathers_flowStatement (word : String) : (flowStatement word).Gathers [] (Framed k) := by
  unfold flowStatement
  split
  · exact gathers_of_adds adds_triggerClause (fun _ => rfl) (fun _ => rfl) _
  · exact gathers_of_adds adds_chain (fun _ => rfl) (fun _ => rfl) _

theorem gathers_outputStatement : outputStatement.Gathers [] (Framed k) := by
  refine (passes_anyLexeme _).bind fun _ => ?_
  refine (adds_typedReference _).bind fun target => ?_
  refine (adds_nextIs _ _).bind fun _ => ?_
  split
  · refine (adds_contract _).bind fun _ => gathers_pure ?_
    intro t lo hi h
    simp only [allBetween_append] at h
    exact framed_of_opening?_eq_none h.2.2.1 rfl
  · refine gathers_pure ?_
    intro t lo hi h
    obtain ⟨-, h⟩ := allBetween_append.mp h
    exact framed_of_opening?_eq_none (allBetween_append.mp h).1 rfl

theorem gathers_special (k : Kind) (word : String) : (special k word).Gathers [] (Framed k) := by
  unfold special
  split <;> first
    | exact gathers_messageStatement (.inl rfl) _
    | exact gathers_messageStatement (.inr rfl) _
    | exact gathers_ownsStatement
    | exact gathers_after _ _
    | exact gathers_of_adds adds_parameter (fun _ => rfl) (fun _ => rfl) _
    | exact gathers_outputStatement
    | exact gathers_flowStatement _
    | exact gathers_unknownStatement _
    | exact (passes_anyLexeme _).bind fun _ =>
        gathers_of_adds adds_typedReference (fun _ => rfl) (fun _ => rfl) _
    | (split <;> first | exact gathers_memberStatement _ | exact gathers_unknownStatement _)

theorem gathers_versionStatement : versionStatement.Gathers [] (Framed k) :=
  (passes_anyLexeme _).bind fun _ =>
    gathers_of_adds (takesOne_token _ _).adds (fun _ => rfl) (fun _ => rfl) _

theorem gathers_worded (k : Kind) (word : String) : (worded k word).Gathers [] (Framed k) := by
  unfold worded
  split
  · exact gathers_versionStatement
  · split
    · exact gathers_attributeStatement _ _
    · exact gathers_special k word

theorem gathers_startingWith (k : Kind) (x : Token) :
    (startingWith k x).Gathers [] (Framed k) := by
  unfold startingWith
  split
  · exact gathers_of_adds adds_note (fun _ => rfl) (fun _ => rfl) _
  · exact gathers_worded k _
  · split
    · exact gathers_flowStatement _
    · exact gathers_fail
  · exact gathers_fail

/-- A statement of a block of any kind stands behind what was read before. -/
theorem gathers_statement (k : Kind) : (statement k).Gathers [] (Framed k) := by
  refine (adds_next? _).bind fun o => ?_
  cases o with
  | none => exact gathers_fail
  | some x => exact gathers_startingWith k x.token

theorem spans_withInlined (id : Nat) (s : Statement) : (s.withInlined id).spans = s.spans := by
  cases s <;> rfl

end Statement

/-! ### The spans of definitions -/

namespace Body

/-- The spans in a body. -/
def spans : Body → List Span
  | domain b =>
    b.allMembers.flatMap (·.target.spans) ++ (b.sends ++ b.receives).flatMap Message.spans ++
      b.owns.flatMap TypedReference.spans
  | service b =>
    (b.sends ++ b.receives).flatMap Message.spans ++
      (b.writesTo ++ b.readsFrom ++ b.readsWrites ++ b.entities).flatMap Reference.spans ++
      b.owns.flatMap TypedReference.spans
  | event | command | query | diagram => []
  | channel b => b.routes.flatMap Reference.spans ++ b.parameters.flatMap Parameter.spans
  | entity owned => owned.flatMap TypedReference.spans
  | container b => (b.readsFrom ++ b.writesTo).flatMap Reference.spans
  | flow b => b.chains.flatten.flatMap Step.spans ++ b.triggers.flatMap Trigger.spans
  | actor used | externalSystem used => used.flatMap Reference.spans
  | user b => b.teams.flatMap Reference.spans ++ b.owns.flatMap TypedReference.spans
  | team b => b.members.flatMap Reference.spans ++ b.owns.flatMap TypedReference.spans
  | dataProduct b => b.inputs.flatMap TypedReference.spans ++ b.outputs.flatMap (·.target.spans)

theorem spans_empty (k : Kind) : (empty k).spans = [] := by cases k <;> rfl

/-- A statement adds no spans but its own. -/
theorem mem_spans_add {b : Body} {s : Statement} {x : Span} (h : x ∈ (b.add s).spans) :
    x ∈ b.spans ∨ x ∈ s.spans := by
  -- A body ignores all statements but those that add to one of its lists.
  cases b <;> cases s <;> try exact .inl h
  case domain.member b sort keyword target inlined =>
    obtain ⟨hsends, hreceives, howns⟩ := DomainBody.addMember_other b ⟨target, inlined⟩ sort
    simp only [add, spans, Statement.spans, List.mem_append, hsends, hreceives, howns,
      List.mem_flatMap] at h ⊢
    obtain (⟨n, hn, hx⟩ | h) | h := h
    · obtain hn | rfl := DomainBody.mem_allMembers_addMember hn
      · exact .inl (.inl (.inl ⟨n, hn, hx⟩))
      · exact .inr (List.mem_cons_of_mem _ hx)
    · exact .inl (.inl (.inr h))
    · exact .inl (.inr h)
  case domain.message b direction m | service.message b direction m =>
    cases direction <;>
      simp only [add, spans, Statement.spans, DomainBody.allMembers, List.mem_append,
        List.flatMap_append, List.flatMap_singleton] at h ⊢ <;> grind
  case service.reference b role r' | channel.reference b role r' | container.reference b role r' |
      actor.reference b role r' | externalSystem.reference b role r' | user.reference b role r' |
      team.reference b role r' =>
    cases role <;> first
      | exact .inl h
      | (simp only [add, spans, Statement.spans, List.mem_append, List.flatMap_append,
          List.flatMap_singleton] at h ⊢
         grind)
  all_goals
    simp only [add, spans, Statement.spans, DomainBody.allMembers, List.mem_append,
      List.flatMap_append, List.flatten_append, List.flatMap_singleton,
      List.flatten_singleton] at h ⊢
    grind

/-- The definitions that are written in place of references of a body, list by list. -/
def inlined : Body → List Nat
  | domain b =>
    b.allMembers.filterMap (·.inlined) ++ b.sends.filterMap (·.inlined) ++
      b.receives.filterMap (·.inlined)
  | service b => b.sends.filterMap (·.inlined) ++ b.receives.filterMap (·.inlined)
  | _ => []

theorem inlined_empty (k : Kind) : (empty k).inlined = [] := by cases k <;> rfl

/-- A statement in place of whose reference nothing is written. -/
theorem inlined_add (b : Body) {s : Statement} (h : s.inlined? = none) :
    (b.add s).inlined = b.inlined := by
  cases b <;> cases s <;> try rfl
  case domain.member b sort keyword target inlined =>
    obtain rfl : inlined = none := h
    obtain ⟨hsends, hreceives, -⟩ := DomainBody.addMember_other b ⟨target, none⟩ sort
    have hmembers : (b.addMember ⟨target, none⟩ sort).allMembers.filterMap (·.inlined) =
        b.allMembers.filterMap (·.inlined) := by
      cases sort <;> simp [DomainBody.allMembers, DomainBody.addMember]
    simp only [add, Body.inlined, hsends, hreceives, hmembers]
  case domain.message b direction m | service.message b direction m =>
    have hm : m.inlined = none := h
    cases direction <;> simp [add, inlined, DomainBody.allMembers, hm]
  case service.reference b role r => cases role <;> rfl

/-- A statement in place of whose reference a definition is written adds this one. -/
theorem perm_inlined_add (b : Body) {s : Statement} (h : s.IsHostedBy b.kind) (id : Nat) :
    (b.add (s.withInlined id)).inlined.Perm (id :: b.inlined) := by
  refine List.perm_iff_count.mpr fun n => ?_
  cases s with
  | member sort keyword target inlined =>
    cases b <;> cases h
    rename_i b
    cases sort <;>
      simp only [add, Statement.withInlined, DomainBody.addMember, Body.inlined,
        DomainBody.allMembers, List.filterMap_append, List.filterMap_cons,
        List.filterMap_nil, List.count_append, List.count_cons, List.count_nil] <;>
      omega
  | message direction m =>
    cases b <;> rcases h with h | h <;> cases h
    all_goals
      cases direction <;>
        simp only [add, Statement.withInlined, Body.inlined, DomainBody.allMembers,
          List.filterMap_append, List.filterMap_cons, List.filterMap_nil,
          List.count_append, List.count_cons, List.count_nil] <;>
        omega
  | _ => cases h

end Body

namespace Definition

/-- The spans stored in a definition, apart from its own and from those of definitions inside it. -/
def spans (d : Definition) : List Span :=
  d.keywordSpan :: d.name.span :: (d.version.toList.map (·.span) ++
    d.attributes.map (·.2.span) ++ d.annotations.flatMap Note.spans ++ d.body.spans)

/-- All that a definition holds stands between its start and an offset: it begins with its keyword,
and the definitions directly inside it stand behind the keyword, one behind the other, each known to
the reference that it is written in place of. -/
structure FramedUpTo (t : Text) (hi : Nat) (d : Definition) : Prop where
  span : d.span.Between t d.span.start hi
  keyword : d.keywordSpan.start = d.span.start
  spans : AllBetween d.spans t d.span.start hi
  inside : ∀ c ∈ d.nested, d.keywordSpan.stop ≤ c.span.start ∧ c.span.stop ≤ hi
  apart : d.nested.Pairwise fun a b => a.span.stop ≤ b.span.start
  inlined : d.body.inlined.Perm (d.nested.map (·.id))

/-- All that a definition holds stands inside it. -/
def Framed (t : Text) (d : Definition) : Prop := d.FramedUpTo t d.span.stop

variable {d c : Definition} {s : Statement} {t : Text} {lo hi : Nat}

theorem span_add (d : Definition) (s : Statement) : (d.add s).span = d.span := by
  cases s <;> rfl

theorem keywordSpan_add (d : Definition) (s : Statement) :
    (d.add s).keywordSpan = d.keywordSpan := by
  cases s <;> rfl

theorem merge_span (old new : Located AttributeValue) :
    (AttributeValue.merge old new).span = new.span ∨
      (AttributeValue.merge old new).span = old.span.union new.span := by
  unfold AttributeValue.merge
  split
  · exact .inr rfl
  · exact .inl rfl

/-- The spans of attributes after one more has been set: those of a repeated list are united. -/
theorem between_put {attributes : Entries (Located AttributeValue)} (key : String)
    {v : Located AttributeValue} (h : ∀ e ∈ attributes, e.2.span.Between t lo hi)
    (hv : v.span.Between t lo hi) :
    ∀ e ∈ attributes.put key (match attributes.get? key with
      | some old => AttributeValue.merge old v
      | none => v), e.2.span.Between t lo hi := by
  intro e he
  rcases Entries.mem_of_mem_put he with rfl | he
  · cases hget : attributes.get? key with
    | none => exact hv
    | some old =>
      have hold := h _ (Entries.mem_of_get? hget)
      rcases merge_span old v with hspan | hspan
      · exact hspan ▸ hv
      · exact hspan ▸ hold.union hv
  · exact h e he

/-- A statement adds no spans but its own and unions of them with those that are there. -/
theorem between_spans_add (h : AllBetween d.spans t lo hi) (hs : AllBetween s.spans t lo hi) :
    AllBetween (d.add s).spans t lo hi := by
  simp only [spans, allBetween_cons, allBetween_append] at h ⊢
  obtain ⟨hkeyword, hname, ⟨⟨hversion, hattributes⟩, hnotes⟩, hbody⟩ := h
  have hadd : AllBetween (d.body.add s).spans t lo hi := by
    intro x hx
    exact (Body.mem_spans_add hx).elim (hbody x) (hs x)
  cases s with
  | note a =>
    refine ⟨hkeyword, hname, ⟨⟨hversion, hattributes⟩, ?_⟩, hbody⟩
    simp only [add, List.flatMap_append, List.flatMap_singleton, allBetween_append]
    exact ⟨hnotes, hs⟩
  | version v => exact ⟨hkeyword, hname, ⟨⟨hs, hattributes⟩, hnotes⟩, hbody⟩
  | «attribute» key v =>
    refine ⟨hkeyword, hname, ⟨⟨hversion, ?_⟩, hnotes⟩, hbody⟩
    have hput := between_put key (List.forall_mem_map.mp hattributes)
      (allBetween_cons.mp hs).1
    exact List.forall_mem_map.mpr hput
  | _ => exact ⟨hkeyword, hname, ⟨⟨hversion, hattributes⟩, hnotes⟩, hadd⟩

/-! ### Definitions that are being read -/

theorem FramedUpTo.mono (h : d.FramedUpTo t lo) (hle : lo ≤ hi) : d.FramedUpTo t hi where
  span := h.span.mono (Nat.le_refl _) hle
  keyword := h.keyword
  spans := h.spans.mono (Nat.le_refl _) hle
  inside c hc := ⟨(h.inside c hc).1, Nat.le_trans (h.inside c hc).2 hle⟩
  apart := h.apart
  inlined := h.inlined

theorem body_add (d : Definition) (s : Statement) :
    (d.add s).body = d.body ∨ (d.add s).body = d.body.add s := by
  cases s <;> first
    | exact .inl rfl
    | exact .inr rfl

theorem body_add_of_isHostedBy {k : Kind} (d : Definition) (h : s.IsHostedBy k) :
    (d.add s).body = d.body.add s := by
  cases s <;> first
    | rfl
    | cases h

/-- What is written in a statement without a block of its own. -/
theorem FramedUpTo.add (h : d.FramedUpTo t lo) (hle : lo ≤ hi)
    (hs : AllBetween s.spans t lo hi) (hfresh : s.inlined? = none) :
    (d.add s).FramedUpTo t hi := by
  have hstart : d.span.start ≤ lo := Nat.le_of_lt h.span.lt
  have h' := h.mono hle
  constructor
  · rw [span_add]
    exact h'.span
  · rw [keywordSpan_add, span_add]
    exact h.keyword
  · rw [span_add]
    exact between_spans_add h'.spans (hs.mono hstart (Nat.le_refl _))
  · rw [nested_add, keywordSpan_add]
    exact h'.inside
  · rw [nested_add]
    exact h.apart
  · rw [nested_add]
    rcases body_add d s with hbody | hbody
    · rw [hbody]
      exact h.inlined
    · rw [hbody, Body.inlined_add _ hfresh]
      exact h.inlined

/-- A definition written in place of a reference stands behind those before it. -/
theorem FramedUpTo.addInlined (h : d.FramedUpTo t lo) (hle : lo ≤ hi)
    (hs : AllBetween s.spans t lo hi) (hhost : s.IsHostedBy d.kind) (hstart : lo ≤ c.span.start)
    (hstop : c.span.stop ≤ hi) : (d.addInlined s c).FramedUpTo t hi := by
  have hs' : AllBetween (s.withInlined c.id).spans t lo hi := by
    rw [Statement.spans_withInlined]
    exact hs
  have hlo : d.span.start ≤ lo := Nat.le_of_lt h.span.lt
  have h' := h.mono hle
  have hkeyword := (allBetween_cons.mp h.spans).1.stop_le
  have hspan : (d.addInlined s c).span = d.span := span_add d _
  have hsame : (d.addInlined s c).keywordSpan = d.keywordSpan := keywordSpan_add d _
  constructor
  · rw [hspan]
    exact h'.span
  · rw [hspan, hsame]
    exact h.keyword
  · rw [hspan]
    exact between_spans_add h'.spans (hs'.mono hlo (Nat.le_refl _))
  · rw [nested_addInlined, hsame]
    refine List.forall_mem_append.mpr ⟨h'.inside, List.forall_mem_singleton.mpr ⟨?_, hstop⟩⟩
    exact Nat.le_trans hkeyword hstart
  · rw [nested_addInlined]
    refine List.pairwise_append.mpr ⟨h.apart, List.pairwise_singleton _ _, ?_⟩
    intro a ha b hb
    obtain rfl := List.mem_singleton.mp hb
    exact Nat.le_trans (h.inside a ha).2 hstart
  · have hhost' : (s.withInlined c.id).IsHostedBy d.kind := by
      cases s <;> exact hhost
    have hbody : (d.addInlined s c).body = d.body.add (s.withInlined c.id) :=
      body_add_of_isHostedBy d hhost'
    rw [nested_addInlined, hbody, List.map_append, List.map_singleton]
    refine (Body.perm_inlined_add d.body hhost c.id).trans ?_
    exact (h.inlined.cons c.id).trans (List.perm_append_singleton _ _).symm

/-- The end of a block is the end of all that the definition holds. -/
theorem FramedUpTo.closeAt (h : d.FramedUpTo t lo) {stop : Span} (hslices : stop.Slices t)
    (hstart : d.span.start ≤ stop.start) (hle : lo ≤ stop.stop) :
    (d.closeAt stop).span = ⟨d.span.start, stop.stop⟩ ∧ (d.closeAt stop).Framed t := by
  have hlo := h.span.lt
  have hspan : (d.closeAt stop).span = ⟨d.span.start, stop.stop⟩ :=
    union_of_le (Nat.le_of_lt h.span.start_lt) hstart (Nat.le_trans h.span.stop_le hle)
  have h' := h.mono hle
  refine ⟨hspan, ?_, ?_, ?_, ?_, h.apart, h.inlined⟩
  · rw [hspan]
    refine ⟨Nat.le_refl _, ?_, Nat.le_refl _, ?_, h.span.slices.start, hslices.stop⟩
    · exact Nat.lt_of_lt_of_le hlo hle
    · exact Nat.le_of_lt (Nat.lt_of_lt_of_le hlo hle)
  · rw [hspan]
    exact h.keyword
  · rw [hspan]
    exact h'.spans
  · rw [hspan]
    exact h'.inside

/-- A definition in which nothing is written begins with its keyword. -/
theorem framedUpTo_start (id : Nat) (kind : Kind) {keyword : Span} {name : Located String}
    {version : Option (Located String)}
    (h : AllBetween (keyword :: name.span :: version.toList.map (·.span)) t keyword.start hi) :
    (start id kind keyword name version).span.start = keyword.start ∧
      (start id kind keyword name version).FramedUpTo t hi := by
  obtain ⟨hkeyword, h⟩ := allBetween_cons.mp h
  obtain ⟨hname, hversion⟩ := allBetween_cons.mp h
  have hstart : (start id kind keyword name version).span.start = keyword.start :=
    Nat.min_eq_left hname.le_start
  refine ⟨hstart, ?_, hstart.symm, ?_, List.forall_mem_nil _, List.Pairwise.nil, ?_⟩
  · rw [hstart]
    exact hkeyword.union hname
  · rw [hstart]
    simp only [spans, start, List.map_nil, List.flatMap_nil, List.append_nil, allBetween_cons,
      Body.spans_empty]
    exact ⟨hkeyword, hname, hversion⟩
  · have hempty : (start id kind keyword name version).body.inlined = [] :=
      Body.inlined_empty kind
    rw [hempty]
    exact List.Perm.nil

/-- A definition without a block ends with its name. -/
theorem framed_start (id : Nat) (kind : Kind) {keyword : Span} {name : Located String}
    (h : AllBetween [keyword, name.span] t keyword.start hi) :
    (start id kind keyword name none).Framed t := by
  have hkeyword := (allBetween_cons.mp h).1
  have hname := (allBetween_cons.mp (allBetween_cons.mp h).2).1
  have hstop : (start id kind keyword name none).span.stop = max keyword.stop name.span.stop :=
    congrArg Span.stop (union_eq (Nat.le_of_lt hkeyword.start_lt) name.span)
  refine (framedUpTo_start id kind (allBetween_cons.mpr ⟨?_, allBetween_cons.mpr ⟨?_, ?_⟩⟩)).2
  · refine ⟨hkeyword.le_start, hkeyword.start_lt, ?_, hkeyword.slices⟩
    rw [hstop]
    exact Nat.le_max_left _ _
  · refine ⟨hname.le_start, hname.start_lt, ?_, hname.slices⟩
    rw [hstop]
    exact Nat.le_max_right _ _
  · exact allBetween_nil

end Definition

namespace Statement

variable {s : Statement} {o : Opening} {t : Text} {lo hi : Nat}

/-- The keyword and the reference of a definition are among the spans of the statement that it is
written in. -/
theorem mem_spans_of_opening? (h : s.opening? = some o) {x : Span}
    (hx : x ∈ o.keyword :: o.target.spans) : x ∈ s.spans := by
  unfold opening? at h
  split at h
  · cases h
    exact hx
  · cases h
    rcases List.mem_cons.mp hx with rfl | hx
    · exact List.mem_cons_self
    · exact List.mem_cons_of_mem _ (List.mem_append_left _ hx)
  · cases h

/-- The definition that a block opens begins with the keyword in the statement. -/
theorem Framed.start {k : Kind} (h : s.Framed k t lo hi) (ho : s.opening? = some o) (id : Nat) :
    lo ≤ (o.start id).span.start ∧ (o.start id).FramedUpTo t hi := by
  have hkeyword := h.spans _ (mem_spans_of_opening? ho List.mem_cons_self)
  have hspans : AllBetween (o.keyword :: o.target.spans) t o.keyword.start hi := by
    intro x hx
    exact (h.opening o ho).2 x (mem_spans_of_opening? ho hx)
  obtain ⟨hfirst, -, hname, hselector⟩ := by
    simpa only [Reference.spans, allBetween_cons] using hspans
  -- The version that the reference asks for stands where its selector does.
  have hversion : ∀ version : Option (Located String),
      (∀ v ∈ version, v.span ∈ o.target.selectorSpan.toList) →
        AllBetween (version.toList.map (·.span)) t o.keyword.start hi := by
    intro version hmem
    refine List.forall_mem_map.mpr fun v hv => ?_
    exact hselector _ (hmem v (Option.mem_toList.mp hv))
  have hstart : ∀ version : Option (Located String),
      (∀ v ∈ version, v.span ∈ o.target.selectorSpan.toList) →
        lo ≤ (Definition.start id o.kind o.keyword o.target.name version).span.start ∧
          (Definition.start id o.kind o.keyword o.target.name version).FramedUpTo t hi := by
    intro version hmem
    have hframed := Definition.framedUpTo_start id o.kind
      (allBetween_cons.mpr ⟨hfirst, allBetween_cons.mpr ⟨hname, hversion version hmem⟩⟩)
    refine ⟨?_, hframed.2⟩
    rw [hframed.1]
    exact hkeyword.le_start
  unfold Opening.start
  refine hstart _ ?_
  intro v hv
  split at hv
  · rename_i raw span _ hspan
    cases hv
    rw [hspan]
    exact List.mem_singleton_self _
  · cases hv

end Statement

end EventCatalog.Syntax
