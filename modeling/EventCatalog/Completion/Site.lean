import EventCatalog.Field
import EventCatalog.Syntax.Statement

/-! # Where completion is asked for

`Site.classify` looks at the text before the cursor and says what can be written there and which
letters of it have been written already.  It does not parse: the braces that are open and the
lexemes since the last line break or brace decide. -/

namespace EventCatalog.Completion

open Syntax

/-- What an open brace belongs to. -/
inductive Enclosure
  | definition (kind : Kind)
  | importNames
  | parameter
  | output
  | contract
  | other
deriving DecidableEq, Repr

/-- What can be written at the cursor. -/
inductive Site
  | topLevel
  | statement (kind : Kind)
  | keywords (words : List String)
  /-- A reference, or one of some words before it. -/
  | reference (wanted : Wanted) (words : List String)
  | note
  | version (name : String)
  | importNames
  /-- The path of a document, with or without the opening quote before the cursor. -/
  | documentPath (quoted : Bool)
  | nothing
deriving DecidableEq, Repr

namespace Enclosure

/-- The kind of message that a word names. -/
def messageKind? (word : Option String) : Option Kind :=
  (word.bind Kind.ofKeyword?).filter Kind.isMessage

/-- What a brace belongs to that stands in some enclosure after the tokens of a line. -/
def opened (parent : Option Enclosure) (line : List Token) : Enclosure :=
  let first := line.head?.bind Token.identifier?
  let second := line.tail.head?.bind Token.identifier?
  let ofKind (k : Option Kind) : Enclosure := (k.map definition).getD other
  match parent, first with
  | _, some "import" => importNames
  | none, some word => ofKind (Kind.ofKeyword? word)
  | some (definition .channel), some "parameter" => parameter
  | some (definition .dataProduct), some "output" => output
  | some output, some "contract" => contract
  | some (definition .domain), some "sends" | some (definition .domain), some "receives"
  | some (definition .service), some "sends" | some (definition .service), some "receives" =>
    ofKind (messageKind? second)
  | some (definition .domain), some word => ofKind ((Section.ofKeyword? word).map Section.kind)
  | _, _ => other

end Enclosure

/-- The open braces, the innermost first, and the tokens since the last line break or brace. -/
structure Position where
  enclosures : List Enclosure := []
  line : List Token := []
deriving DecidableEq, Repr

namespace Position

/-- The position behind one more lexeme. -/
def pass (p : Position) (t : Lexeme) : Position :=
  let line := if t.startsLine then [] else p.line
  match t.token with
  | .leftBrace => ⟨Enclosure.opened p.enclosures.head? line :: p.enclosures, []⟩
  | .rightBrace => ⟨p.enclosures.tail, []⟩
  | token => ⟨p.enclosures, line ++ [token]⟩

/-- The position behind lexemes. -/
def behind (ts : List Lexeme) : Position := ts.foldl pass {}

end Position

namespace Site

/-! ### Inside a definition -/

/-- The fields of parameters and contracts, and the attributes that take a truth value. -/
def parameterFields : List String := ["description", "default", "enum", "examples"]

/-- The usual fields of contracts. -/
def contractFields : List String := ["path", "name", "type"]

/-- The attributes that take a truth value. -/
def flagAttributes : List String := ["deprecated", "draft", "authoritative", "aggregate-root"]

/-- A reference to one kind. -/
def referenceTo (k : Kind) : Site := reference (.only k) []

/-- The site in a flow after the last token of a line that starts with a word. -/
def inFlow (first : Option String) : Token → Site
  | .arrow => reference .any []
  | .identifier word =>
    if word = "when" ∨ word = "and" then reference .any []
    else if first = some "when" then keywords ["and"]
    else nothing
  | _ => nothing

/-- The site in a message statement with so many tokens, of which the second and the last are
given. -/
def inMessage (direction : Direction) (count : Nat) (second : Option String) (last : Token) :
    Site :=
  match count with
  | 1 => keywords (Kind.messages.map Kind.keyword)
  | 2 => ((Enclosure.messageKind? second).map referenceTo).getD nothing
  | 3 => keywords [Statement.channelKeyword direction]
  | _ =>
    if last = .comma ∨ last = .identifier "to" ∨ last = .identifier "from" then
      referenceTo .channel
    else nothing

/-- The site in a statement that wants a kind and a reference. -/
def inTyped (count : Nat) (second : Option String) : Option Site :=
  match count with
  | 1 => some (keywords (Kind.all.map Kind.keyword))
  | 2 => some (((second.bind Kind.ofKeyword?).map referenceTo).getD nothing)
  | _ => none

/-- The site after the keyword of a statement and nothing else. -/
def afterKeyword (k : Kind) (word : String) : Site :=
  let flag := if flagAttributes.contains word then keywords ["true", "false"] else nothing
  match k, word with
  | .domain, word => ((Section.ofKeyword? word).map fun s => referenceTo s.kind).getD nothing
  | .service, "writes-to" | .service, "reads-from" | .service, "reads-writes" =>
    reference (.only .container) ["container"]
  | .container, "writes-to" | .container, "reads-from" => reference (.only .service) ["service"]
  | .service, "entity" => referenceTo .entity
  | .channel, "route" => referenceTo .channel
  | .actor, "uses" | .externalSystem, "uses" => reference .any []
  | .user, "team" => referenceTo .team
  | .team, "member" => referenceTo .user
  | _, _ => flag

/-- The site after the keyword of a statement and a second word. -/
def afterTwo (k : Kind) (word : String) (second : Option String) : Site :=
  match k, word, second with
  | .service, "writes-to", some "container" | .service, "reads-from", some "container"
  | .service, "reads-writes", some "container" => referenceTo .container
  | .container, "writes-to", some "service" | .container, "reads-from", some "service" =>
    referenceTo .service
  | _, _, _ => nothing

/-- The site after the tokens of a line in the block of a kind. -/
def inDefinition (k : Kind) (line : List Token) : Site :=
  match line.getLast? with
  | none => statement k
  | some last =>
    let first := line.head?.bind Token.identifier?
    let second := line.tail.head?.bind Token.identifier?
    let count := line.length
    let hasMessages := k == .domain || k == .service
    if k = .flow then inFlow first last
    else match first with
      | none => nothing
      | some word =>
        if word = "sends" && hasMessages then inMessage .outgoing count second last
        else if word = "receives" && hasMessages then inMessage .incoming count second last
        else
          let isTyped := word == "owns" ||
            (k == .dataProduct && (word == "input" || word == "output"))
          match if isTyped then inTyped count second else none with
          | some site => site
          | none =>
            if count = 1 then afterKeyword k word
            else if count = 2 then afterTwo k word second
            else nothing

/-- The site at a position. -/
def ofPosition (p : Position) : Site :=
  let last := p.line.getLast?.bind Token.identifier?
  match p.enclosures with
  | [] =>
    if p.line.isEmpty then topLevel
    else if last = some "from" then documentPath false
    else nothing
  | .importNames :: _ => if last = some "as" then nothing else importNames
  | .parameter :: _ => if p.line.isEmpty then keywords parameterFields else nothing
  | .output :: _ => if p.line.isEmpty then keywords ["contract"] else nothing
  | .contract :: _ => if p.line.isEmpty then keywords contractFields else nothing
  | .definition k :: _ => inDefinition k p.line
  | .other :: _ => nothing

/-! ### The text before the cursor -/

/-- The last token that carries meaning. -/
def lastToken? (pieces : List Piece) : Option Token :=
  ((pieces.filterMap fun
    | .token t _ => some t
    | .fault _ _ _ _ => none).filter (!·.isTrivia)).getLast?

/-- Whether a text ends with the end of a block comment. -/
def endsComment (t : Text) : Bool := "*/".toList.isSuffixOf t

/-- The site inside a comment or a string that the text ends with, and what is written of it. -/
def unfinished? (before : Text) (pieces : List Piece) : Option (Site × Text) :=
  match pieces.getLast? with
  | some (.token (.lineComment _) _) => some (nothing, [])
  | some (.token (.blockComment _) _) => if endsComment before then none else some (nothing, [])
  | some (.fault .unterminatedString lead body text) =>
    if text.length = lead + body then
      if lastToken? pieces = some (.identifier "from") then some (documentPath true, text.drop 1)
      else some (nothing, text.drop 1)
    else none
  | _ => none

/-- Characters of the word at the cursor. -/
def isWordChar (c : Char) : Bool := Text.isAlphanumeric c || c == '_' || c == '-'

/-- The lexemes that end at or before an offset. -/
def endingBy (stop : Nat) (ts : List Lexeme) : List Lexeme := ts.filter (·.span.stop ≤ stop)

/-- The site behind an at sign at an offset: a version if a name ends there. -/
def behindAtSign (ts : List Lexeme) (offset : Nat) : Site :=
  match (endingBy offset ts).getLast? with
  | some ⟨.identifier name, span, _⟩ => if span.stop = offset then version name else note
  | some ⟨.stringLiteral name, span, _⟩ => if span.stop = offset then version name else note
  | _ => note

/-- The site behind lexemes, with some text between them and the cursor. -/
def behind (ts : List Lexeme) (gap : Text) : Site :=
  let p := Position.behind ts
  ofPosition (if gap.hasBreak && !ts.isEmpty then { p with line := [] } else p)

/-- What can be written behind a text, and what of it has been written. -/
def classify (before : Text) : Site × Text :=
  let pieces := Piece.ofText before
  match unfinished? before pieces with
  | some found => found
  | none =>
    let typed := Text.takeEndWhile isWordChar before
    let head := before.take (before.length - typed.length)
    let lexemes := Piece.lexemes 0 true pieces
    if head.getLast? = some '@' then (behindAtSign lexemes (Text.size head - 1), typed)
    else
      let context := endingBy (Text.size head) lexemes
      let stop := (context.getLast?.map (·.span.stop)).getD 0
      (behind context (head.drop (Text.upTo stop head).length), typed)

end Site

end EventCatalog.Completion
