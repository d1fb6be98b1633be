import EventCatalog.Proofs.Syntax.Entries
import EventCatalog.Proofs.Syntax.Natural.Reader
import EventCatalog.Syntax.Statement

/-! # Statements commute with relabelling

Every statement of every kind of block is read alike from relabelled lexemes
(`Statement.natural_statement`), and what a statement adds to a definition is relabelled with it
(`Definition.relabel_add`, `Definition.relabel_addInlined`). -/

namespace EventCatalog.Syntax

open Reader Phrase

namespace Statement

/-- A statement with its spans and identifiers changed. -/
def relabel (f : Relabelling) : Statement → Statement
  | .note a => .note (a.relabel f)
  | .version v => .version (v.relabel f)
  | .attribute key v => .attribute key (v.relabel f)
  | .member sort keyword target inlined =>
    .member sort (f.whole keyword) (target.relabel f) (inlined.map f.number)
  | .message direction m => .message direction (m.relabel f)
  | .owns r => .owns (r.relabel f)
  | .reference role r => .reference role (r.relabel f)
  | .parameter p => .parameter (p.relabel f)
  | .chain steps => .chain (steps.map (·.relabel f))
  | .trigger t => .trigger (t.relabel f)
  | .input r => .input (r.relabel f)
  | .output p => .output (p.relabel f)
  | .unknown word span => .unknown word (f.whole span)

/-! ### Reading -/

variable {f : Relabelling} (hf : f.Coherent)

include hf

theorem natural_anyLexeme : Natural f f.whole anyLexeme anyLexeme :=
  (natural_token hf _ _).map fun x => hf.located x.span

theorem natural_attributeStatement (word : String) (shape : AttributeShape) :
    Natural f (relabel f) (attributeStatement word shape) (attributeStatement word shape) := by
  cases shape with
  | text =>
    exact (natural_anyLexeme hf).bind fun _ => (natural_value hf).bind fun _ =>
      natural_pure (by simp [relabel, Located.relabel, hf.located, hf.union])
  | flag =>
    refine (natural_anyLexeme hf).bind fun _ => (natural_boolean hf).optional.bind fun o => ?_
    cases o with
    | some v => exact natural_pure (by simp [relabel, Located.relabel, hf.located, hf.union])
    | none => exact natural_pure (by simp [relabel, Located.relabel, hf.located])
  | list key =>
    exact (natural_anyLexeme hf).bind fun _ => (natural_value hf).bind fun _ =>
      natural_pure (by simp [relabel, Located.relabel, hf.located, hf.union])

theorem natural_after (role : Role) (noise : Option String) :
    Natural f (relabel f) (after role noise) (after role noise) := by
  refine (natural_anyLexeme hf).bind fun _ => ?_
  cases noise with
  | some word =>
    exact (natural_keyword hf word).optional.bind fun _ => (natural_reference hf).bind fun _ =>
      natural_pure rfl
  | none => exact (natural_reference hf).bind fun _ => natural_pure rfl

theorem natural_ownsStatement : Natural f (relabel f) ownsStatement ownsStatement :=
  (natural_anyLexeme hf).bind fun _ => (natural_typedReference hf).bind fun _ => natural_pure rfl

theorem natural_messageStatement (direction : Direction) :
    Natural f (relabel f) (messageStatement direction) (messageStatement direction) := by
  refine (natural_anyLexeme hf).bind fun _ => (natural_messageKind hf).bind fun _ =>
    (natural_reference hf).bind fun _ => (natural_keyword hf _).optional.bind fun o => ?_
  cases o with
  | some s =>
    exact ((natural_reference hf).separated (natural_mark hf _)).bind fun _ => natural_pure rfl
  | none => exact natural_pure rfl

theorem natural_memberStatement (sort : Section) :
    Natural f (relabel f) (memberStatement sort) (memberStatement sort) :=
  (natural_anyLexeme hf).bind fun _ => (natural_reference hf).bind fun _ => natural_pure rfl

theorem natural_unknownStatement (word : String) :
    Natural f (relabel f) (unknownStatement word) (unknownStatement word) :=
  (natural_anyLexeme hf).bind fun _ => natural_pure rfl

omit hf in
theorem natural_ifAction {α β : Type} {g : α → β} {p : Reader α} {q : Reader β}
    (hp : Natural f g p q) : Natural f (Option.map g) (ifAction p) (ifAction q) := by
  refine natural_next?.bind fun o => ?_
  cases o with
  | none => exact natural_pure rfl
  | some t =>
    change Natural f _ (if startsAction t.token then _ else _)
      (if startsAction t.token then _ else _)
    split
    · exact hp.bind fun _ => natural_pure rfl
    · exact natural_pure rfl

theorem span_relabel (r : Reference) : (r.relabel f).span = f.whole r.span := by
  obtain ⟨name, selector, selectorSpan⟩ := r
  cases selectorSpan with
  | none => exact hf.located name.span
  | some s => simp [Reference.span, Reference.relabel, Located.relabel, hf.located, hf.union]

theorem actionEnd_relabel (a : Action) : actionEnd (a.relabel f) = f.whole (actionEnd a) := by
  simp only [actionEnd, Action.relabel, List.getLast?_map]
  cases a.outputs.getLast? with
  | none => exact span_relabel hf _
  | some last => exact span_relabel hf _

theorem foldl_actionEnd_relabel (actions : List Action) (s : Span) :
    (actions.map (·.relabel f)).foldl (fun s a => s.union (actionEnd a)) (f.whole s) =
      f.whole (actions.foldl (fun s a => s.union (actionEnd a)) s) := by
  induction actions generalizing s with
  | nil => rfl
  | cons a actions ih =>
    rw [List.map_cons, List.foldl_cons, List.foldl_cons, actionEnd_relabel hf, ← hf.union]
    exact ih _

theorem natural_triggerClause :
    Natural f (Trigger.relabel f) triggerClause triggerClause := by
  refine (natural_keyword hf _).bind fun start =>
    ((natural_reference hf).separated (natural_keyword hf _)).bind fun conditions =>
      (natural_ifAction (natural_action hf)).iterate.bind fun actions => ?_
  apply natural_pure
  simp only [Trigger.relabel, List.getLast?_map]
  cases conditions.getLast? with
  | none => rw [← foldl_actionEnd_relabel hf]; rfl
  | some last =>
    rw [← foldl_actionEnd_relabel hf, hf.union, ← span_relabel hf]
    rfl

theorem natural_flowStatement (word : String) :
    Natural f (relabel f) (flowStatement word) (flowStatement word) := by
  unfold flowStatement
  split
  · exact (natural_triggerClause hf).map fun _ => rfl
  · exact (natural_chain hf).map fun _ => rfl

theorem natural_outputStatement : Natural f (relabel f) outputStatement outputStatement := by
  refine (natural_anyLexeme hf).bind fun _ => (natural_typedReference hf).bind fun _ =>
    (natural_nextIs _).bind fun b => ?_
  cases b with
  | true => exact (natural_contract hf).bind fun _ => natural_pure rfl
  | false => exact natural_pure rfl

theorem natural_special (k : Kind) (word : String) :
    Natural f (relabel f) (special k word) (special k word) := by
  unfold special
  split
  all_goals first
    | exact natural_messageStatement hf _
    | exact natural_ownsStatement hf
    | exact natural_after hf _ _
    | exact (natural_parameter hf).map fun _ => rfl
    | exact (natural_anyLexeme hf).bind fun _ => (natural_typedReference hf).bind fun _ =>
        natural_pure rfl
    | exact natural_outputStatement hf
    | exact natural_flowStatement hf _
    | exact natural_unknownStatement hf _
    | (split <;> first | exact natural_memberStatement hf _ | exact natural_unknownStatement hf _)

theorem natural_versionStatement : Natural f (relabel f) versionStatement versionStatement :=
  (natural_anyLexeme hf).bind fun _ => (natural_version hf).bind fun _ => natural_pure rfl

theorem natural_worded (k : Kind) (word : String) :
    Natural f (relabel f) (worded k word) (worded k word) := by
  unfold worded
  split
  · exact natural_versionStatement hf
  · split
    · exact natural_attributeStatement hf _ _
    · exact natural_special hf _ _

theorem natural_startingWith (k : Kind) (t : Token) :
    Natural f (relabel f) (startingWith k t) (startingWith k t) := by
  unfold startingWith
  split
  · exact (natural_note hf).map fun _ => rfl
  · exact natural_worded hf k _
  · split
    · exact natural_flowStatement hf _
    · exact natural_fail _ _
  · exact natural_fail _ _

theorem natural_statement (k : Kind) : Natural f (relabel f) (statement k) (statement k) := by
  refine natural_next?.bind fun o => ?_
  cases o with
  | none => exact natural_fail _ _
  | some t => exact natural_startingWith hf k t.token

/-! ### Blocks that a statement may open -/

omit hf

/-- An opening with its spans changed. -/
def Opening.relabel (f : Relabelling) (o : Opening) : Opening :=
  ⟨o.kind, f.whole o.keyword, o.target.relabel f⟩

theorem withInlined_relabel (id : Nat) (s : Statement) :
    (s.relabel f).withInlined (f.number id) = (s.withInlined id).relabel f := by
  cases s <;> rfl

end Statement

/-! ### What a statement adds -/

variable {f : Relabelling}

namespace Body

@[simp] theorem kind_relabel (b : Body) : (b.relabel f).kind = b.kind := by
  cases b <;> rfl

@[simp] theorem relabel_empty (k : Kind) : (empty k).relabel f = empty k := by
  cases k <;> rfl

theorem relabel_add (s : Statement) (b : Body) :
    (b.add s).relabel f = (b.relabel f).add (s.relabel f) := by
  cases s with
  | member sort =>
    cases b with
    | domain b =>
      cases sort <;> simp [add, relabel, Statement.relabel, DomainBody.addMember, Member.relabel]
    | _ => rfl
  | message direction m =>
    cases b <;> cases direction <;> simp [add, relabel, Statement.relabel]
  | reference role r => cases b <;> cases role <;> simp [add, relabel, Statement.relabel]
  | _ => cases b <;> simp [add, relabel, Statement.relabel]

end Body

theorem AttributeValue.merge_relabel (hf : f.Coherent) (old new : Located AttributeValue) :
    merge (old.relabel f) (new.relabel f) = (merge old new).relabel f := by
  obtain ⟨old, s⟩ := old
  obtain ⟨new, t⟩ := new
  cases old <;> cases new <;> simp [merge, Located.relabel, hf.located, hf.union]

namespace Definition

theorem relabel_mk (d : Definition) : d.relabel f =
    ⟨f.number d.id, f.whole d.keywordSpan, d.name.relabel f, d.version.map (·.relabel f),
      d.attributes.map fun (k, v) => (k, v.relabel f), d.annotations.map (·.relabel f),
      d.body.relabel f, relabelAll f d.nested, f.whole d.span⟩ := by
  cases d
  rw [relabel]

@[simp] theorem kind_relabel (d : Definition) : (d.relabel f).kind = d.kind := by
  rw [relabel_mk, kind, Body.kind_relabel, kind]

theorem relabelAll_eq_map (ds : List Definition) : relabelAll f ds = ds.map (·.relabel f) := by
  induction ds with
  | nil => rw [relabelAll, List.map_nil]
  | cons d ds ih => rw [relabelAll, ih, List.map_cons]

theorem relabel_start (hf : f.Coherent) (id : Nat) (k : Kind) (keyword : Span)
    (name : Located String) (version : Option (Located String)) :
    (start id k keyword name version).relabel f =
      start (f.number id) k (f.whole keyword) (name.relabel f) (version.map (·.relabel f)) := by
  rw [relabel_mk, relabelAll_eq_map]
  simp [start, Located.relabel, hf.located, hf.union]

theorem relabel_closeAt (hf : f.Coherent) (d : Definition) (stop : Span) :
    (d.closeAt stop).relabel f = (d.relabel f).closeAt (f.whole stop) := by
  simp only [relabel_mk, closeAt, hf.union]

theorem relabel_add (hf : f.Coherent) (d : Definition) (s : Statement) :
    (d.add s).relabel f = (d.relabel f).add (s.relabel f) := by
  cases s
  case «attribute» key v =>
    simp only [relabel_mk, add, Statement.relabel, Entries.get?_map]
    rw [← Entries.put_map]
    cases d.attributes.get? key with
    | none => rfl
    | some old => simp only [Option.map_some, AttributeValue.merge_relabel hf]
  all_goals simp [relabel_mk, add, Statement.relabel, Body.relabel_add]

theorem relabel_addInlined (hf : f.Coherent) (d : Definition) (s : Statement)
    (child : Definition) :
    (d.addInlined s child).relabel f =
      (d.relabel f).addInlined (s.relabel f) (child.relabel f) := by
  have hid : (child.relabel f).id = f.number child.id := by rw [relabel_mk]
  rw [addInlined, addInlined, hid, Statement.withInlined_relabel, ← relabel_add hf,
    relabel_mk, relabel_mk (d.add _)]
  simp [relabelAll_eq_map]

end Definition

theorem Statement.Opening.relabel_start (hf : f.Coherent) (o : Opening) (id : Nat) :
    (o.start id).relabel f = (o.relabel f).start (f.number id) := by
  obtain ⟨k, keyword, name, selector, span⟩ := o
  rw [Opening.start, Definition.relabel_start hf]
  cases selector <;> cases span <;> simp [Opening.start, Opening.relabel, Reference.relabel,
    Located.relabel, hf.located]

end Syntax

end EventCatalog
