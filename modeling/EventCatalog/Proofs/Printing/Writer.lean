import EventCatalog.Proofs.Token.Spelling
import EventCatalog.Syntax.Statement

/-! # Writing documents

The concrete syntax of a syntax tree.  `Statement.tokens` writes a statement as one line,
`Definition.block` writes the lines between the braces of a definition, and `Program.print` writes
a document: imports, then definitions.

In a block the version, the annotations and the attributes come first, then the parts of the body,
list by list; chains come before triggers.  Definitions written in place of a reference may stand
in several lists of a body.  They are written in the order of their identifiers, so these lists
are interleaved (`interleave`). -/

namespace EventCatalog.Syntax

/-! ### Phrases -/

/-- Items with a separator between each two. -/
def joined (separator : Token) : List (List Token) → List Token
  | [] => []
  | item :: items => item ++ items.flatMap (separator :: ·)

/-- A version as a version literal if it is one, and as a string otherwise. -/
def versionTokens (text : String) : List Token :=
  if (Token.version text).IsLone then [.version text] else [.stringLiteral text]

/-- A label, if there is one. -/
def labelTokens : Option (Located String) → List Token
  | some label => [.stringLiteral label.value]
  | none => []

/-- Strings in brackets. -/
def stringsTokens (items : List String) : List Token :=
  .leftBracket :: joined .comma (items.map fun item => [.stringLiteral item]) ++ [.rightBracket]

/-- A value; a list is written in brackets. -/
def AttributeValue.tokens : AttributeValue → List Token
  | text value => [.stringLiteral value]
  | flag true => [.identifier "true"]
  | flag false => [.identifier "false"]
  | list items => stringsTokens items

/-- A selector behind an at sign: bare if it can be, and as a string otherwise. -/
def selectorTokens (text : String) : List Token :=
  if (Token.versionSelector text).IsLone then [.versionSelector text]
  else [.atSign, .stringLiteral text]

namespace Reference

/-- The selector of a reference, if it is written. -/
def selectorPart (r : Reference) : List Token :=
  match r.selectorSpan with
  | some _ => selectorTokens r.selector.toString
  | none => []

/-- A name and perhaps a selector. -/
def tokens (r : Reference) : List Token := .identifier r.name.value :: r.selectorPart

end Reference

/-- A kind and a reference. -/
def TypedReference.tokens (r : TypedReference) : List Token :=
  .identifier r.kind.value.keyword :: r.target.tokens

/-- A name to import and perhaps another name for it. -/
def ImportedName.tokens (n : ImportedName) : List Token :=
  .identifier n.name.value ::
    match n.renamed with
    | some renamed => [.identifier "as", .identifier renamed.value]
    | none => []

/-- An import statement. -/
def Import.tokens (i : Import) : List Token :=
  .identifier "import" :: .leftBrace :: joined .comma (i.names.map (·.tokens)) ++
    [.rightBrace, .identifier "from", .stringLiteral i.source.value]

/-- An argument of an annotation. -/
def Argument.tokens (a : Argument) : List Token :=
  match a.key with
  | some key => [.identifier key, .colon, .stringLiteral a.value]
  | none => [.stringLiteral a.value]

/-- An annotation, with parentheses if it has arguments. -/
def Note.tokens (a : Note) : List Token :=
  .atSign :: .identifier a.name.value ::
    if a.arguments = [] then []
    else .leftParen :: joined .comma (a.arguments.map (·.tokens)) ++ [.rightParen]

/-- One field of a parameter. -/
def parameterFieldTokens (field : String × AttributeValue) : List Token :=
  .identifier field.1 :: field.2.tokens

/-- A parameter, with braces if it has fields. -/
def Parameter.tokens (p : Parameter) : List Token :=
  .identifier "parameter" :: .stringLiteral p.name.value ::
    if p.attributes = [] then []
    else .leftBrace :: p.attributes.flatMap parameterFieldTokens ++ [.rightBrace]

/-- One entry of a contract. -/
def contractFieldTokens (field : String × String) : List Token :=
  [.identifier field.1, .stringLiteral field.2]

/-- The contract of an output in two pairs of braces, if it has entries. -/
def contractTokens (contract : Entries String) : List Token :=
  if contract = [] then []
  else .leftBrace :: .identifier "contract" :: .leftBrace ::
    contract.flatMap contractFieldTokens ++ [.rightBrace, .rightBrace]

/-- A step and its label. -/
def Step.tokens : Step → List Token
  | reference target label => target.tokens ++ labelTokens label
  | node label => [.stringLiteral label.value]

/-- What an action leads to, perhaps labelled. -/
def Output.tokens (o : Output) : List Token :=
  match o.label with
  | some label => .stringLiteral label.value :: .colon :: o.target.tokens
  | none => o.target.tokens

/-- An action, its label and its outputs. -/
def Action.tokens (a : Action) : List Token :=
  a.target.tokens ++ labelTokens a.label ++ a.outputs.flatMap (.arrow :: ·.tokens)

/-- Conditions and the actions on them. -/
def Trigger.tokens (t : Trigger) : List Token :=
  .identifier "when" :: joined (.identifier "and") (t.conditions.map (·.tokens)) ++
    t.actions.flatMap (·.tokens)

/-- The word that opens a message statement. -/
def Direction.word : Direction → String
  | .outgoing => "sends"
  | .incoming => "receives"

/-- A message, and the channels it goes over if there are any. -/
def Message.tokens (direction : Direction) (m : Message) : List Token :=
  .identifier direction.word :: .identifier m.kind.value.keyword :: m.target.tokens ++
    if m.channels = [] then []
    else .identifier (Statement.channelKeyword direction) ::
      joined .comma (m.channels.map (·.tokens))

/-! ### Statements -/

/-- The word that opens a member statement. -/
def Section.word : Section → String
  | services => "service"
  | subdomains => "subdomain"
  | entities => "entity"
  | containers => "container"
  | channels => "channel"
  | flows => "flow"
  | dataProducts => "data-product"

namespace Role

/-- The word that opens a reference statement. -/
def word : Role → String
  | writesTo => "writes-to"
  | readsFrom => "reads-from"
  | readsWrites => "reads-writes"
  | entity => "entity"
  | route => "route"
  | uses => "uses"
  | team => "team"
  | member => "member"

/-- The word for the kind of the target, which services write. -/
def noise (k : Kind) : Role → List Token
  | writesTo | readsFrom | readsWrites => if k = .service then [.identifier "container"] else []
  | _ => []

end Role

/-- The word that opens the statements of an attribute. -/
def attributeWord (key : String) : String :=
  if key = "owners" then "owner" else if key = "protocols" then "protocol" else key

/-- The value of an attribute statement; of a list each item has its own statement. -/
def attributeTokens : AttributeValue → List Token
  | .list items => items.map .stringLiteral
  | value => value.tokens

namespace Statement

/-- A statement in a block of a kind. -/
def tokens (k : Kind) : Statement → List Token
  | note a => a.tokens
  | version v => .identifier "version" :: versionTokens v.value
  | .attribute key v => .identifier (attributeWord key) :: attributeTokens v.value
  | member sort _ target _ => .identifier sort.word :: target.tokens
  | message direction m => m.tokens direction
  | owns r => .identifier "owns" :: r.tokens
  | reference role r => .identifier role.word :: role.noise k ++ r.tokens
  | parameter p => p.tokens
  | chain steps => joined .arrow (steps.map (·.tokens))
  | trigger t => t.tokens
  | input r => .identifier "input" :: r.tokens
  | output p => .identifier "output" :: p.target.tokens ++ contractTokens p.contract
  | unknown _ _ => []

/-- Whether a statement may be written before another one of another list: a definition that is
written in place of a reference waits for those with lesser identifiers. -/
def mayPrecede (s t : Statement) : Bool :=
  match s.inlined?, t.inlined? with
  | none, _ => true
  | some _, none => false
  | some m, some n => m ≤ n

end Statement

/-- The statements of several lists, those of each in their order, and inline definitions in the
order of their identifiers. -/
def interleave (groups : List (List Statement)) : List Statement :=
  groups.foldr (fun group others => group.merge others Statement.mayPrecede) []

/-- No statement is added or lost. -/
theorem interleave_perm (groups : List (List Statement)) :
    (interleave groups).Perm groups.flatten := by
  induction groups with
  | nil => exact .nil
  | cons group groups ih =>
    rw [List.flatten_cons]
    exact (List.merge_perm_append _).trans (ih.append_left group)

/-! ### Blocks -/

namespace Body

/-- The lists of a body in which definitions may stand in place of references. -/
def groups : Body → List (List Statement)
  | domain b =>
    Section.all.map (fun sort => (b.members sort).map fun m =>
      .member sort ⟨0, 0⟩ m.target m.inlined) ++
      [b.sends.map (.message .outgoing), b.receives.map (.message .incoming)]
  | service b => [b.sends.map (.message .outgoing), b.receives.map (.message .incoming)]
  | _ => []

/-- The other statements of a body. -/
def others : Body → List Statement
  | domain b => b.owns.map .owns
  | service b =>
    b.writesTo.map (.reference .writesTo) ++ b.readsFrom.map (.reference .readsFrom) ++
      b.readsWrites.map (.reference .readsWrites) ++ b.entities.map (.reference .entity) ++
      b.owns.map .owns
  | event | command | query | diagram => []
  | channel b => b.routes.map (.reference .route) ++ b.parameters.map .parameter
  | entity owned => owned.map .owns
  | container b => b.readsFrom.map (.reference .readsFrom) ++ b.writesTo.map (.reference .writesTo)
  | flow b => b.chains.map .chain ++ b.triggers.map .trigger
  | actor used | externalSystem used => used.map (.reference .uses)
  | user b => b.teams.map (.reference .team) ++ b.owns.map .owns
  | team b => b.members.map (.reference .member) ++ b.owns.map .owns
  | dataProduct b => b.inputs.map .input ++ b.outputs.map .output

/-- The statements of a body. -/
def statements (b : Body) : List Statement := interleave b.groups ++ b.others

theorem statements_perm (b : Body) : b.statements.Perm (b.groups.flatten ++ b.others) :=
  (interleave_perm b.groups).append_right b.others

end Body

/-- The statements of an attribute, one for each item of a list. -/
def attributeStatements (entry : String × Located AttributeValue) : List Statement :=
  match entry.2.value with
  | .list items => items.map fun item => .attribute entry.1 ⟨.list [item], entry.2.span⟩
  | _ => [.attribute entry.1 entry.2]

/-- The lines of a block; a definition in place of a reference takes the next of the given
blocks. -/
def weave (depth : Nat) (k : Kind) : List Statement → List (List Line) → List Line
  | [], _ => []
  | s :: ss, blocks =>
    match s.inlined?, blocks with
    | some _, block :: blocks =>
      ⟨depth, s.tokens k ++ [.leftBrace]⟩ :: block ++
        ⟨depth, [.rightBrace]⟩ :: weave depth k ss blocks
    | _, blocks => ⟨depth, s.tokens k⟩ :: weave depth k ss blocks

namespace Definition

/-- The version, the annotations and the attributes of a definition as statements. -/
def preamble (d : Definition) : List Statement :=
  d.version.toList.map .version ++ d.annotations.map .note ++
    d.attributes.flatMap attributeStatements

/-- The statements of a definition. -/
def statements (d : Definition) : List Statement := d.preamble ++ d.body.statements

theorem statements_perm (d : Definition) :
    d.statements.Perm (d.preamble ++ (d.body.groups.flatten ++ d.body.others)) :=
  d.body.statements_perm.append_left d.preamble

mutual

/-- The lines between the braces of a definition. -/
def block (depth : Nat) : Definition → List Line
  | d@⟨_, _, _, _, _, _, _, nested, _⟩ =>
    weave depth d.kind d.statements (blocks (depth + 1) nested)

/-- The lines of each of several definitions. -/
def blocks (depth : Nat) : List Definition → List (List Line)
  | [] => []
  | d :: ds => block depth d :: blocks depth ds

end

/-- The kind and name of a definition. -/
def headerTokens (d : Definition) : List Token :=
  [.identifier d.kind.keyword, .identifier d.name.value]

/-- The lines of a definition at the top of a document, without braces if nothing is in it. -/
def lines (d : Definition) : List Line :=
  if d.block 1 = [] then [⟨0, d.headerTokens⟩]
  else ⟨0, d.headerTokens ++ [.leftBrace]⟩ :: d.block 1 ++ [⟨0, [.rightBrace]⟩]

end Definition

namespace Program

/-- The lines of a document. -/
def lines (p : Program) : List Line :=
  p.imports.map (fun i => ⟨0, i.tokens⟩) ++ p.definitions.flatMap (·.lines)

/-- A document as it is written. -/
def print (p : Program) : String := String.ofList (p.lines.flatMap Line.text)

end Program

end EventCatalog.Syntax
