import EventCatalog.Syntax.Statement

/-! # Blocks and documents

A block is a run of statements up to its closing brace.  A statement that cannot be read costs one
diagnostic, and reading goes on behind it: `Recovery.skipStatement` drops the rest of the statement,
`Recovery.skipToDefinition` the rest of a definition.  Each turn of a loop takes at least one
lexeme, which is why all of this ends.

Identifiers are given in the order in which definitions begin, so a definition comes before those
inside it. -/

namespace EventCatalog.Syntax

namespace Recovery

/-- The nesting depth behind a token, counting all three pairs of brackets and never below zero. -/
def nest (depth : Nat) : Token → Nat
  | .leftBrace | .leftBracket | .leftParen => depth + 1
  | .rightBrace | .rightBracket | .rightParen => depth - 1
  | _ => depth

/-- What is left once the rest of a statement has been dropped, at some depth inside it: the
statement ends before a closing brace or the first lexeme of a line at depth zero. -/
def skipRest (depth : Nat) : List Lexeme → List Lexeme
  | [] => []
  | t :: ts =>
    if depth = 0 ∧ (t.token = .rightBrace ∨ t.startsLine = true) then t :: ts
    else skipRest (nest depth t.token) ts

/-- What is left once a statement that starts with a lexeme has been dropped. -/
def skipStatement (first : Lexeme) (ts : List Lexeme) : List Lexeme :=
  skipRest (nest 0 first.token) ts

/-- Whether a token opens an import or a definition. -/
def opensTopLevel : Token → Bool
  | .identifier word => word == "import" || (Kind.ofKeyword? word).isSome
  | _ => false

/-- The nesting depth behind a token, counting braces and never below zero. -/
def nestBraces (depth : Nat) : Token → Nat
  | .leftBrace => depth + 1
  | .rightBrace => depth - 1
  | _ => depth

/-- What is left from the next top-level keyword on that starts a line at depth zero. -/
def skipBlocks (depth : Nat) : List Lexeme → List Lexeme
  | [] => []
  | t :: ts =>
    if depth = 0 ∧ t.startsLine = true ∧ opensTopLevel t.token = true then t :: ts
    else skipBlocks (nestBraces depth t.token) ts

/-- What is left once a definition that starts with a lexeme has been dropped. -/
def skipToDefinition (first : Lexeme) (ts : List Lexeme) : List Lexeme :=
  skipBlocks (nestBraces 0 first.token) ts

/-- What is left are the last of the lexemes. -/
theorem suffix_skipRest (depth : Nat) (ts : List Lexeme) : skipRest depth ts <:+ ts := by
  induction ts generalizing depth with
  | nil => exact List.suffix_refl _
  | cons t ts ih =>
    unfold skipRest
    split
    · exact List.suffix_refl _
    · exact (ih _).trans (List.suffix_cons t ts)

theorem suffix_skipBlocks (depth : Nat) (ts : List Lexeme) : skipBlocks depth ts <:+ ts := by
  induction ts generalizing depth with
  | nil => exact List.suffix_refl _
  | cons t ts ih =>
    unfold skipBlocks
    split
    · exact List.suffix_refl _
    · exact (ih _).trans (List.suffix_cons t ts)

theorem length_skipStatement_le (first : Lexeme) (ts : List Lexeme) :
    (skipStatement first ts).length ≤ ts.length := (suffix_skipRest _ ts).length_le

theorem length_skipToDefinition_le (first : Lexeme) (ts : List Lexeme) :
    (skipToDefinition first ts).length ≤ ts.length := (suffix_skipBlocks _ ts).length_le

end Recovery

/-! ### Blocks -/

/-- A definition whose block has been read, the next free identifier, what there was to complain
about, and what follows the block. -/
structure Block (ts : List Lexeme) where
  definition : Definition
  next : Nat
  diagnostics : List Diagnostic
  rest : List Lexeme
  rest_le : rest.length ≤ ts.length

namespace Block

/-- The same block with earlier diagnostics and a longer beginning. -/
def after {ts us : List Lexeme} (ds : List Diagnostic) (b : Block us)
    (h : us.length ≤ ts.length) : Block ts :=
  ⟨b.definition, b.next, ds ++ b.diagnostics, b.rest, Nat.le_trans b.rest_le h⟩

/-- The complaint that the text ends inside the block of a definition. -/
def unclosed (d : Definition) (opened : Span) : Diagnostic :=
  ((Diagnostic.error .incompleteInput
    ("unclosed block for " ++ d.kind.keyword ++ " `" ++ d.name.value ++ "`")).labelled opened
      "block opened here").withHelp "add a closing `\x7d`"

/-- The complaint that a word opens no statement of a block. -/
def unknown (k : Kind) (word : String) (span : Span) : Diagnostic :=
  ((Diagnostic.error .unknownStatement
    ("unknown statement `" ++ word ++ "` in " ++ k.keyword ++ " block")).labelled span
      Diagnostic.Code.unknownStatement.description).withHelp
    ("`" ++ word ++ "` is not valid inside a " ++ k.keyword)

/-- What a statement leads to in a block. -/
inductive Turn (ts : List Lexeme)
  /-- The statement is complete. -/
  | plain (s : Statement) (rest : List Lexeme) (h : rest.length < ts.length)
  /-- The block of a definition in place of a reference follows. -/
  | opens (s : Statement) (o : Statement.Opening) (brace : Span) (rest : List Lexeme)
      (h : rest.length < ts.length)
  /-- The statement is dropped. -/
  | dropped (d : Diagnostic) (rest : List Lexeme) (h : rest.length < ts.length)

/-- Reads one statement of a block of the kind, in a text whose last lexeme ends at `finish`. -/
def turn (finish : Nat) (k : Kind) (t : Lexeme) (ts : List Lexeme) : Turn (t :: ts) :=
  let skipped := Recovery.skipStatement t ts
  have hs : skipped.length < (t :: ts).length :=
    Nat.lt_succ_of_le (Recovery.length_skipStatement_le t ts)
  match (Statement.statement k).take (Statement.strict_statement k) (t :: ts) with
  | .error e => .dropped (e.diagnostic finish) skipped hs
  | .ok ⟨.unknown word span, _, _⟩ => .dropped (unknown k word span) skipped hs
  | .ok ⟨s, [], h⟩ => .plain s [] h
  | .ok ⟨s, u :: us, h⟩ =>
    match s.opening?, u.token with
    | some o, .leftBrace => .opens s o u.span us (Nat.lt_trans (Nat.lt_succ_self _) h)
    | _, _ => .plain s (u :: us) h

/-- Reads the block of a definition after its opening brace.  `last` is the span of the last lexeme
of the text. -/
def read (last : Span) (opened : Span) (next : Nat) (d : Definition) :
    (ts : List Lexeme) → Block ts
  | [] => ⟨d.closeAt last, next, [unclosed d opened], [], Nat.le_refl _⟩
  | t :: ts =>
    if t.token = .rightBrace then ⟨d.closeAt t.span, next, [], ts, Nat.le_succ _⟩
    else match turn last.stop d.kind t ts with
      | .plain s rest h => (read last opened next (d.add s) rest).after [] (Nat.le_of_lt h)
      | .dropped complaint rest h =>
        (read last opened next d rest).after [complaint] (Nat.le_of_lt h)
      | .opens s o brace rest h =>
        let child := read last brace (next + 1) (o.start next) rest
        (read last opened child.next (d.addInlined s child.definition) child.rest).after
          child.diagnostics (Nat.le_trans child.rest_le (Nat.le_of_lt h))
termination_by ts => ts.length
decreasing_by
  · exact h
  · exact h
  · exact h
  · exact Nat.lt_of_le_of_lt child.rest_le h

end Block

/-! ### Documents -/

/-- What was read of a document. -/
structure Parsed where
  program : Program := {}
  diagnostics : List Diagnostic := []
deriving Repr

namespace Parsed

/-- The same with an earlier import. -/
def withImport (i : Import) (p : Parsed) : Parsed :=
  { p with program := { p.program with imports := i :: p.program.imports } }

/-- The same with an earlier definition and the diagnostics of its block. -/
def withDefinition (d : Definition) (ds : List Diagnostic) (p : Parsed) : Parsed where
  program := { p.program with definitions := d :: p.program.definitions }
  diagnostics := ds ++ p.diagnostics

/-- The same with an earlier diagnostic. -/
def withDiagnostic (d : Diagnostic) (p : Parsed) : Parsed :=
  { p with diagnostics := d :: p.diagnostics }

/-- Whether there was an error. -/
def hasErrors (p : Parsed) : Bool := Diagnostic.anyError p.diagnostics

end Parsed

/-- The kind and name that open a definition at the top of a document. -/
def header : Reader (Located Kind × Located String) := do
  let kind ← Phrase.kind
  let name ← Phrase.name.labelled .definitionName
  return (kind, name)

theorem strict_header : header.Strict := (Reader.strict_token _ _).bind _

theorem strict_importStatement : Phrase.importStatement.Strict :=
  (Statement.strict_keyword _).bind _

/-- What stands next at the top of a document. -/
inductive Entry (ts : List Lexeme)
  | importing (i : Import) (rest : List Lexeme) (h : rest.length < ts.length)
  /-- A definition, the next free identifier, and the diagnostics of its block. -/
  | defining (d : Definition) (next : Nat) (ds : List Diagnostic) (rest : List Lexeme)
      (h : rest.length < ts.length)
  | dropped (d : Diagnostic) (rest : List Lexeme) (h : rest.length < ts.length)

namespace Entry

/-- Reads one definition whose kind and name have been read, with its block if one follows. -/
def define (last : Span) (next : Nat) (d : Definition) {ts : List Lexeme} :
    (rest : List Lexeme) → rest.length < ts.length → Entry ts
  | [], h => .defining d (next + 1) [] [] h
  | u :: us, h =>
    if u.token = .leftBrace then
      let block := Block.read last u.span (next + 1) d us
      .defining block.definition block.next block.diagnostics block.rest
        (Nat.lt_of_le_of_lt block.rest_le (Nat.lt_trans (Nat.lt_succ_self _) h))
    else .defining d (next + 1) [] (u :: us) h

/-- Reads one import or definition; anything else is dropped up to the next one. -/
def read (last : Span) (next : Nat) (t : Lexeme) (ts : List Lexeme) : Entry (t :: ts) :=
  let skipped := Recovery.skipToDefinition t ts
  have hs : skipped.length < (t :: ts).length :=
    Nat.lt_succ_of_le (Recovery.length_skipToDefinition_le t ts)
  if t.token = .identifier "import" then
    match Phrase.importStatement.take strict_importStatement (t :: ts) with
    | .ok ⟨i, rest, h⟩ => .importing i rest h
    | .error e => .dropped (e.diagnostic last.stop) skipped hs
  else if Recovery.opensTopLevel t.token then
    match header.take strict_header (t :: ts) with
    | .ok ⟨(kind, name), rest, h⟩ =>
      define last next (Definition.start next kind.value kind.span name none) rest h
    | .error e => .dropped (e.diagnostic last.stop) skipped hs
  else .dropped (Failure.diagnostic ⟨.definitionOrImport, some t⟩ last.stop) skipped hs

end Entry

/-- Reads the imports and definitions of a document from some lexeme on.  `last` is the span of the
last lexeme of the text. -/
def readProgram (last : Span) (next : Nat) : List Lexeme → Parsed
  | [] => {}
  | t :: ts =>
    match Entry.read last next t ts with
    | .importing i rest _ => (readProgram last next rest).withImport i
    | .defining d next ds rest _ => (readProgram last next rest).withDefinition d ds
    | .dropped d rest _ => (readProgram last next rest).withDiagnostic d
termination_by ts => ts.length
decreasing_by all_goals assumption

/-- Reads a document from its lexemes. -/
def Parsed.ofLexemes (ts : List Lexeme) : Parsed :=
  readProgram ((ts.getLast?.map (·.span)).getD ⟨0, 0⟩) 0 ts

/-- The order of diagnostics in a document: by the first primary label, those without one first. -/
def placeOrder (d e : Diagnostic) : Ordering :=
  match d.primarySpan, e.primarySpan with
  | none, none => .eq
  | none, some _ => .lt
  | some _, none => .gt
  | some s, some t => (compare s.start t.start).then (compare s.stop t.stop)

/-- Reads a document: its syntax tree and all diagnostics in the order of their places. -/
def parse (source : String) : Parsed :=
  let pieces := Piece.ofText source.toList
  let parsed := Parsed.ofLexemes (Piece.lexemes 0 true pieces)
  { parsed with
    diagnostics := (Piece.diagnostics 0 pieces ++ parsed.diagnostics).mergeSort
      fun d e => (placeOrder d e).isLE }

end EventCatalog.Syntax
