import EventCatalog.Syntax
import EventCatalog.Syntax.Reader

/-! # Phrases

The parts of statements that hold no block: names, values, references, imports, annotations,
parameters and contracts.  Keywords are ordinary words that count as such only where one is
expected. -/

namespace EventCatalog.Syntax.Phrase

open Reader

/-! ### Single lexemes -/

/-- A given punctuation mark. -/
def mark (t : Token) : Reader Span :=
  Located.span <$> token (.mark t) fun u => if u = t then some () else none

/-- A given keyword. -/
def keyword (word : String) : Reader Span :=
  Located.span <$> token (.keyword word) fun t => if t = .identifier word then some () else none

/-- Any word. -/
def identifier : Reader (Located String) := token .identifier Token.identifier?

/-- The text of a string literal. -/
def literal? : Token → Option String
  | .stringLiteral text => some text
  | _ => none

/-- A string literal. -/
def stringLiteral : Reader (Located String) := token .stringLiteral literal?

/-- The text of a word or a string literal. -/
def name? : Token → Option String
  | .identifier text | .stringLiteral text => some text
  | _ => none

/-- The name of a definition or reference. -/
def name : Reader (Located String) := token .name name?

/-- The text of a word, a string literal or a version. -/
def value? : Token → Option String
  | .identifier text | .stringLiteral text | .version text => some text
  | _ => none

/-- The value of an attribute. -/
def value : Reader (Located String) := token .value value?

/-- The text of a version or a string literal. -/
def version? : Token → Option String
  | .version text | .stringLiteral text => some text
  | _ => none

/-- The value of a version statement. -/
def version : Reader (Located String) := token .version version?

/-- The truth value of a word. -/
def boolean? : Token → Option Bool
  | .identifier "true" => some true
  | .identifier "false" => some false
  | _ => none

/-- A truth value. -/
def boolean : Reader (Located Bool) := token .boolean boolean?

/-- The kind that a word names. -/
def kind? (t : Token) : Option Kind := t.identifier?.bind Kind.ofKeyword?

/-- The keyword of a kind. -/
def kind : Reader (Located Kind) := token .definitionKind kind?

/-- The keyword of a kind of message. -/
def messageKind : Reader (Located Kind) :=
  token .messageKind fun t => (kind? t).filter Kind.isMessage

/-! ### Lists and references -/

/-- A list of values in brackets; a comma may follow the last one. -/
def values : Reader (List String) := do
  let _ ← mark .leftBracket
  let items ← separatedOrNone value (mark .comma)
  let _ ← optional (mark .comma)
  let _ ← mark .rightBracket
  return items.map (·.value)

/-- The text of a version selector. -/
def selector? : Token → Option String
  | .versionSelector text => some text
  | _ => none

/-- A selector: an at sign and a version or a string. -/
def selector : Reader (Option (Located String)) := do
  match (← optional (token .versionSelector selector?)) with
  | some s => return some s
  | none => optional do
    let sign ← mark .atSign
    let text ← stringLiteral
    return ⟨text.value, sign.union text.span⟩

/-- A name and perhaps a selector. -/
def reference : Reader Reference := do
  let name ← name.labelled .reference
  match (← selector) with
  | some s => return ⟨name, Selector.parse s.value, some s.span⟩
  | none => return ⟨name, .latest, none⟩

/-- A kind and a reference. -/
def typedReference : Reader TypedReference := do
  let kind ← kind
  let target ← reference
  return ⟨kind, target⟩

/-! ### Imports and annotations -/

/-- A name to import, perhaps with another name for it. -/
def importedName : Reader ImportedName := do
  let exported ← name
  let renamed ← optional do
    let _ ← keyword "as"
    name
  return ⟨exported, renamed⟩

/-- An import statement. -/
def importStatement : Reader Import := do
  let start ← keyword "import"
  let _ ← mark .leftBrace
  let names ← separated importedName (mark .comma)
  let _ ← optional (mark .comma)
  let _ ← mark .rightBrace
  let _ ← keyword "from"
  let source ← stringLiteral.labelled .importPath
  return ⟨names, source, start.union source.span⟩

/-- An argument of an annotation. -/
def argument : Reader Argument := do
  let key ← optional do
    let key ← identifier
    let _ ← mark .colon
    return key.value
  let value ← value
  return ⟨key, value.value⟩

/-- An annotation, perhaps with arguments in parentheses. -/
def note : Reader Note := do
  let start ← mark .atSign
  let name ← identifier.labelled .noteName
  let span := start.union name.span
  match (← optional (mark .leftParen)) with
  | none => return ⟨name, [], span⟩
  | some _ =>
    let arguments ← separatedOrNone argument (mark .comma)
    let _ ← optional (mark .comma)
    let close ← mark .rightParen
    return ⟨name, arguments, span.union close⟩

/-! ### Parameters and contracts -/

/-- The fields of a parameter. -/
def parameterField? (t : Token) : Option String :=
  t.identifier?.filter (["description", "default", "enum", "examples"].contains ·)

/-- One field of a parameter; `enum` and `examples` hold lists. -/
def parameterField : Reader (String × AttributeValue) := do
  let field ← token .parameterField parameterField?
  if field.value = "enum" ∨ field.value = "examples" then
    return (field.value, .list (← values))
  else
    return (field.value, .text (← value).value)

/-- Runs a reader unless a closing brace comes next. -/
def unlessClosed {α : Type} (p : Reader α) : Reader (Option α) := do
  if (← nextIs .rightBrace) then return none else return some (← p)

/-- Entries set one after another. -/
def entriesOf {α : Type} (items : List (String × α)) : Entries α :=
  items.foldl (fun entries item => Entries.put item.1 item.2 entries) []

/-- A parameter, perhaps with fields in braces. -/
def parameter : Reader Parameter := do
  let start ← keyword "parameter"
  let name ← name
  let span := start.union name.span
  match (← optional (mark .leftBrace)) with
  | none => return ⟨name, [], span⟩
  | some _ =>
    let fields ← iterate (unlessClosed parameterField)
    let close ← mark .rightBrace
    return ⟨name, entriesOf fields, span.union close⟩

/-- One entry of a contract. -/
def contractField : Reader (String × String) := do
  let key ← identifier.labelled .contractField
  let value ← value
  return (key.value, value.value)

/-- The contract of an output, in two pairs of braces. -/
def contract : Reader (Entries String) := do
  let _ ← mark .leftBrace
  let _ ← keyword "contract"
  let _ ← mark .leftBrace
  let fields ← iterate (unlessClosed contractField)
  let _ ← mark .rightBrace
  let _ ← mark .rightBrace
  return entriesOf fields

/-! ### Flows -/

/-- A string literal on the line of what it labels. -/
def sameLineLabel : Reader (Option (Located String)) := do
  match (← next?) with
  | some t => if t.startsLine then return none else optional stringLiteral
  | none => return none

/-- A step of a flow. -/
def step : Reader Step := do
  match (← optional stringLiteral) with
  | some label => return .node label
  | none =>
    let target ← reference.labelled .flowStep
    return .reference target (← sameLineLabel)

/-- Runs a reader if an arrow comes next, which is taken. -/
def afterArrow {α : Type} (p : Reader α) : Reader (Option α) := do
  match (← optional (mark .arrow)) with
  | some _ => return some (← p)
  | none => return none

/-- Steps joined by arrows. -/
def chain : Reader (List Step) := do
  let first ← step
  let others ← iterate (afterArrow step)
  return first :: others

/-- What an action leads to, perhaps labelled. -/
def output : Reader Output := do
  let label ← optional do
    let label ← stringLiteral
    let _ ← mark .colon
    return label
  let target ← reference
  return ⟨label, target⟩

/-- A target, perhaps a label, and outputs after arrows. -/
def action : Reader Action := do
  let target ← reference.labelled .action
  let label ← sameLineLabel
  let outputs ← iterate (afterArrow output)
  return ⟨target, label, outputs⟩

end EventCatalog.Syntax.Phrase
