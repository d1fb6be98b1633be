import EventCatalog.Syntax.Phrase

/-! # Statements

The lines of a block.  Which statements there are depends on the kind of the block, and a statement
is read without looking at those before it: `statement k` reads one, `Definition.add` says what it
adds.  A statement that introduces a member or a message may be followed by the block of a
definition written in its place; `Statement.opening?` says of which. -/

namespace EventCatalog.Syntax

/-- What an attribute takes as its value. -/
inductive AttributeShape
  | text
  | flag
  /-- The values of all statements are gathered under one key. -/
  | list (key : String)
deriving DecidableEq, Repr

/-- The attributes of a kind. -/
def attributeShape? (k : Kind) (word : String) : Option AttributeShape :=
  match k, word with
  | _, "name" | _, "summary" | _, "schema" => some .text
  | _, "owner" => some (.list "owners")
  | _, "deprecated" | _, "draft" => some .flag
  | .channel, "address" => some .text
  | .channel, "protocol" => some (.list "protocols")
  | .entity, "identifier" => some .text
  | .entity, "aggregate-root" => some .flag
  | .container, "container-type" | .container, "technology" | .container, "access-mode"
  | .container, "classification" | .container, "residency" | .container, "retention" => some .text
  | .container, "authoritative" => some .flag
  | .user, "email" | .user, "role" | .user, "avatar" => some .text
  | .team, "email" | .team, "slack" => some .text
  | _, _ => none

/-- What the target of a plain reference is to the definition that names it. -/
inductive Role
  | writesTo
  | readsFrom
  | readsWrites
  | entity
  | route
  | uses
  | team
  | member
deriving DecidableEq, Repr

/-- A line of a block. -/
inductive Statement
  | note (a : Note)
  | version (v : Located String)
  | attribute (key : String) (value : Located AttributeValue)
  | member (sort : Section) (keyword : Span) (target : Reference) (inlined : Option Nat)
  | message (direction : Direction) (m : Message)
  | owns (r : TypedReference)
  | reference (role : Role) (r : Reference)
  | parameter (p : Parameter)
  | chain (steps : List Step)
  | trigger (t : Trigger)
  | input (r : TypedReference)
  | output (p : Product)
  | unknown (word : String) (span : Span)
deriving DecidableEq, Repr

namespace Statement

open Reader Phrase

/-! ### Reading -/

/-- The next lexeme, whatever it is. -/
def anyLexeme : Reader Span := Located.span <$> token .statement fun _ => some ()

theorem strict_anyLexeme : anyLexeme.Strict := (strict_token _ _).map _

/-- The value of an attribute and the span of the statement. -/
def attributeStatement (word : String) : AttributeShape → Reader Statement
  | .text => do
    let keyword ← anyLexeme
    let v ← value
    return .attribute word ⟨.text v.value, keyword.union v.span⟩
  | .flag => do
    let keyword ← anyLexeme
    match (← optional boolean) with
    | some v => return .attribute word ⟨.flag v.value, keyword.union v.span⟩
    | none => return .attribute word ⟨.flag true, keyword⟩
  | .list key => do
    let keyword ← anyLexeme
    let v ← value
    return .attribute key ⟨.list [v.value], keyword.union v.span⟩

/-- A reference to be read after the keyword and perhaps the word for its kind. -/
def after (role : Role) (noise : Option String) : Reader Statement := do
  let _ ← anyLexeme
  match noise with
  | some word =>
    let _ ← optional (keyword word)
    return .reference role (← Phrase.reference)
  | none => return .reference role (← Phrase.reference)

/-- What a definition owns. -/
def ownsStatement : Reader Statement := do
  let _ ← anyLexeme
  return .owns (← typedReference)

/-- The keyword before the channels of a message. -/
def channelKeyword : Direction → String
  | .outgoing => "to"
  | .incoming => "from"

/-- A message and the channels it goes over. -/
def messageStatement (direction : Direction) : Reader Statement := do
  let _ ← anyLexeme
  let kind ← messageKind
  let target ← Phrase.reference
  match (← optional (keyword (channelKeyword direction))) with
  | some _ =>
    let channels ← separated Phrase.reference (mark .comma)
    return .message direction ⟨kind, target, channels, none⟩
  | none => return .message direction ⟨kind, target, [], none⟩

/-- A member of a domain. -/
def memberStatement (sort : Section) : Reader Statement := do
  let keyword ← anyLexeme
  return .member sort keyword (← Phrase.reference) none

/-- A word that opens no statement of the block. -/
def unknownStatement (word : String) : Reader Statement := do
  return .unknown word (← anyLexeme)

/-- Whether a lexeme opens an action of a trigger: the next trigger and the attributes of the flow
do not. -/
def startsAction : Token → Bool
  | .identifier word =>
    word != "when" && word != "version" && (attributeShape? .flow word).isNone
  | .stringLiteral _ => true
  | _ => false

/-- Runs a reader if an action comes next. -/
def ifAction {α : Type} (p : Reader α) : Reader (Option α) := do
  match (← next?) with
  | some t => if startsAction t.token then return some (← p) else return none
  | none => return none

/-- The span of the reference that ends an action. -/
def actionEnd (a : Action) : Span :=
  match a.outputs.getLast? with
  | some last => last.target.span
  | none => a.target.span

/-- Conditions and the actions on them. -/
def triggerClause : Reader Trigger := do
  let start ← keyword "when"
  let conditions ← separated Phrase.reference (keyword "and")
  let actions ← iterate (ifAction action)
  let head := match conditions.getLast? with
    | some last => start.union last.span
    | none => start
  return ⟨conditions, actions, actions.foldl (fun s a => s.union (actionEnd a)) head⟩

/-- A statement of a flow. -/
def flowStatement (word : String) : Reader Statement :=
  if word = "when" then .trigger <$> triggerClause else .chain <$> Phrase.chain

/-- An output of a data product and perhaps its contract. -/
def outputStatement : Reader Statement := do
  let _ ← anyLexeme
  let target ← typedReference
  if (← nextIs .leftBrace) then return .output ⟨target, ← contract⟩
  else return .output ⟨target, []⟩

/-- The statements of a kind that are opened by a word. -/
def special (k : Kind) (word : String) : Reader Statement :=
  match k, word with
  | .domain, "sends" | .service, "sends" => messageStatement .outgoing
  | .domain, "receives" | .service, "receives" => messageStatement .incoming
  | .domain, "owns" | .service, "owns" | .entity, "owns" | .user, "owns" | .team, "owns" =>
    ownsStatement
  | .domain, word =>
    match Section.ofKeyword? word with
    | some sort => memberStatement sort
    | none => unknownStatement word
  | .service, "writes-to" => after .writesTo "container"
  | .service, "reads-from" => after .readsFrom "container"
  | .service, "reads-writes" => after .readsWrites "container"
  | .service, "entity" => after .entity none
  | .channel, "route" => after .route none
  | .channel, "parameter" => .parameter <$> Phrase.parameter
  | .container, "reads-from" => after .readsFrom "service"
  | .container, "writes-to" => after .writesTo "service"
  | .actor, "uses" | .externalSystem, "uses" => after .uses none
  | .user, "team" => after .team none
  | .team, "member" => after .member none
  | .dataProduct, "input" => do
    let _ ← anyLexeme
    return .input (← typedReference)
  | .dataProduct, "output" => outputStatement
  | .flow, word => flowStatement word
  | _, word => unknownStatement word

/-- The version of a definition. -/
def versionStatement : Reader Statement := do
  let _ ← anyLexeme
  return .version (← Phrase.version)

/-- A statement that is opened by a word. -/
def worded (k : Kind) (word : String) : Reader Statement :=
  if word = "version" then versionStatement
  else match attributeShape? k word with
    | some shape => attributeStatement word shape
    | none => special k word

/-- A statement of a block of the kind that starts with a token. -/
def startingWith (k : Kind) : Token → Reader Statement
  | .atSign => .note <$> Phrase.note
  | .identifier word => worded k word
  | .stringLiteral _ => if k = .flow then flowStatement "" else fail .statement
  | _ => fail .statement

/-- A statement of a block of the kind. -/
def statement (k : Kind) : Reader Statement := do
  match (← next?) with
  | some t => startingWith k t.token
  | none => fail .statement

/-! ### Every statement takes something -/

theorem strict_mark (t : Token) : (mark t).Strict := (strict_token _ _).map _

theorem strict_keyword (word : String) : (keyword word).Strict := (strict_token _ _).map _

theorem strict_reference : Phrase.reference.Strict := ((strict_token _ _).labelled _).bind _

theorem strict_optional_bind {α β : Type} {p : Reader α} {f : Option α → Reader β}
    (hp : p.Strict) (hf : (f none).Strict) : (optional p >>= f).Strict := by
  intro ts b rest h
  change ((optional p).bind f).run ts = _ at h
  simp only [Reader.bind, Reader.optional] at h
  split at h
  · cases h
  · rename_i a mid hmid
    split at hmid
    · cases hmid; exact hf _ _ _ h
    · rename_i hrun
      cases hmid
      exact Nat.lt_of_le_of_lt ((f _).rest_le h) (hp _ _ _ hrun)

theorem strict_step : step.Strict :=
  strict_optional_bind (strict_token _ _) ((strict_reference.labelled _).bind _)

theorem strict_flowStatement (word : String) : (flowStatement word).Strict := by
  unfold flowStatement
  split
  · exact ((strict_keyword _).bind _).map _
  · exact (strict_step.bind _).map _

theorem strict_special (k : Kind) (word : String) : (special k word).Strict := by
  unfold special
  split <;> first
    | exact strict_anyLexeme.bind _
    | exact ((strict_keyword _).bind _).map _
    | exact strict_flowStatement _
    | (split <;> exact strict_anyLexeme.bind _)

theorem strict_worded (k : Kind) (word : String) : (worded k word).Strict := by
  unfold worded
  split
  · exact strict_anyLexeme.bind _
  · split
    · rename_i shape _
      cases shape <;> exact strict_anyLexeme.bind _
    · exact strict_special k word

theorem strict_startingWith (k : Kind) (t : Token) : (startingWith k t).Strict := by
  unfold startingWith
  split
  · exact ((strict_mark _).bind _).map _
  · exact strict_worded k _
  · split
    · exact strict_flowStatement _
    · exact strict_fail _
  · exact strict_fail _

theorem strict_statement (k : Kind) : (statement k).Strict :=
  Strict.bind_right fun a => by
    cases a with
    | none => exact strict_fail _
    | some t => exact strict_startingWith k t.token

/-! ### Blocks that a statement may open -/

/-- The kind and keyword of a definition written in place of a reference, and that reference. -/
structure Opening where
  kind : Kind
  keyword : Span
  target : Reference
deriving DecidableEq, Repr

/-- The definition that a block after the statement belongs to. -/
def opening? : Statement → Option Opening
  | member sort keyword target _ => some ⟨sort.kind, keyword, target⟩
  | message _ m => some ⟨m.kind.value, m.kind.span, m.target⟩
  | _ => none

/-- The definition that is written in place of the reference of a statement. -/
def inlined? : Statement → Option Nat
  | member _ _ _ inlined => inlined
  | message _ m => m.inlined
  | _ => none

/-- The statement with the definition written in place of its reference. -/
def withInlined (id : Nat) : Statement → Statement
  | member sort keyword target _ => member sort keyword target (some id)
  | message direction m => message direction { m with inlined := some id }
  | s => s

end Statement

/-! ### What a statement adds -/

namespace Body

/-- The body with one more statement; a body ignores what its kind does not have. -/
def add (s : Statement) : Body → Body
  | domain b => domain <|
    match s with
    | .member sort _ target inlined => b.addMember ⟨target, inlined⟩ sort
    | .message .outgoing m => { b with sends := b.sends ++ [m] }
    | .message .incoming m => { b with receives := b.receives ++ [m] }
    | .owns r => { b with owns := b.owns ++ [r] }
    | _ => b
  | service b => service <|
    match s with
    | .message .outgoing m => { b with sends := b.sends ++ [m] }
    | .message .incoming m => { b with receives := b.receives ++ [m] }
    | .owns r => { b with owns := b.owns ++ [r] }
    | .reference .writesTo r => { b with writesTo := b.writesTo ++ [r] }
    | .reference .readsFrom r => { b with readsFrom := b.readsFrom ++ [r] }
    | .reference .readsWrites r => { b with readsWrites := b.readsWrites ++ [r] }
    | .reference .entity r => { b with entities := b.entities ++ [r] }
    | _ => b
  | channel b => channel <|
    match s with
    | .reference .route r => { b with routes := b.routes ++ [r] }
    | .parameter p => { b with parameters := b.parameters ++ [p] }
    | _ => b
  | entity owned => entity <|
    match s with
    | .owns r => owned ++ [r]
    | _ => owned
  | container b => container <|
    match s with
    | .reference .readsFrom r => { b with readsFrom := b.readsFrom ++ [r] }
    | .reference .writesTo r => { b with writesTo := b.writesTo ++ [r] }
    | _ => b
  | flow b => flow <|
    match s with
    | .chain steps => { b with chains := b.chains ++ [steps] }
    | .trigger t => { b with triggers := b.triggers ++ [t] }
    | _ => b
  | actor used => actor <|
    match s with
    | .reference .uses r => used ++ [r]
    | _ => used
  | externalSystem used => externalSystem <|
    match s with
    | .reference .uses r => used ++ [r]
    | _ => used
  | user b => user <|
    match s with
    | .reference .team r => { b with teams := b.teams ++ [r] }
    | .owns r => { b with owns := b.owns ++ [r] }
    | _ => b
  | team b => team <|
    match s with
    | .reference .member r => { b with members := b.members ++ [r] }
    | .owns r => { b with owns := b.owns ++ [r] }
    | _ => b
  | dataProduct b => dataProduct <|
    match s with
    | .input r => { b with inputs := b.inputs ++ [r] }
    | .output p => { b with outputs := b.outputs ++ [p] }
    | _ => b
  | b => b

@[simp] theorem kind_add (s : Statement) (b : Body) : (b.add s).kind = b.kind := by
  cases b <;> rfl

end Body

/-- The value of an attribute that is written again: lists grow, all else is replaced. -/
def AttributeValue.merge (old new : Located AttributeValue) : Located AttributeValue :=
  match old.value, new.value with
  | .list before, .list items => ⟨.list (before ++ items), old.span.union new.span⟩
  | _, _ => new

namespace Definition

/-- A definition in which nothing is written. -/
def start (id : Nat) (kind : Kind) (keyword : Span) (name : Located String)
    (version : Option (Located String)) : Definition where
  id := id
  keywordSpan := keyword
  name := name
  version := version
  attributes := []
  annotations := []
  body := .empty kind
  nested := []
  span := keyword.union name.span

/-- The definition with one more statement. -/
def add (d : Definition) (s : Statement) : Definition :=
  match s with
  | .note a => { d with annotations := d.annotations ++ [a] }
  | .version v => { d with version := some v }
  | .attribute key v =>
    let merged := match d.attributes.get? key with
      | some old => AttributeValue.merge old v
      | none => v
    { d with attributes := d.attributes.put key merged }
  | s => { d with body := d.body.add s }

/-- The definition with a statement in place of whose reference another definition stands. -/
def addInlined (d : Definition) (s : Statement) (child : Definition) : Definition :=
  let d := d.add (s.withInlined child.id)
  { d with nested := d.nested ++ [child] }

/-- The definition with its span extended to the end of its block. -/
def closeAt (d : Definition) (stop : Span) : Definition := { d with span := d.span.union stop }

end Definition

namespace Statement

/-- The definition that a block opens: its version is the one that the reference asks for, if that
is a single version. -/
def Opening.start (o : Opening) (id : Nat) : Definition :=
  let version := match o.target.selector, o.target.selectorSpan with
    | .exact raw, some span => some ⟨raw, span⟩
    | _, _ => none
  Definition.start id o.kind o.keyword o.target.name version

end Statement

end EventCatalog.Syntax
