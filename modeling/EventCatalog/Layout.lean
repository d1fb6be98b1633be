import EventCatalog.Text

/-! # Layout

`format` lays a document out anew: each line is indented by the number of braces that are open
before it, runs of blank lines become one, none stand at either end, and the text ends with one line
feed.  It looks at lines and braces alone, so it works on any text; lines that continue a block
comment keep their indentation. -/

namespace EventCatalog.Layout

/-- The braces of a line that are neither in strings nor in comments, and whether a block comment
goes on behind it. -/
structure Braces where
  opens : Nat := 0
  closes : Nat := 0
  openComment : Bool := false
deriving DecidableEq, Repr

namespace Braces

/-- One more opening brace. -/
def addOpen (b : Braces) : Braces := { b with opens := b.opens + 1 }

/-- One more closing brace. -/
def addClose (b : Braces) : Braces := { b with closes := b.closes + 1 }

end Braces

/-- What the characters of a line are part of. -/
inductive Mode
  | code
  | string
  | comment
deriving DecidableEq, Repr

/-- Counts the braces of what is left of a line. -/
def count : Mode → Text → Braces
  | .comment, [] => { openComment := true }
  | _, [] => {}
  | .comment, '*' :: '/' :: t => count .code t
  | .comment, _ :: t => count .comment t
  | .string, '\\' :: _ :: t => count .string t
  | .string, c :: t => if c = '"' then count .code t else count .string t
  | .code, '/' :: '/' :: _ => {}
  | .code, '/' :: '*' :: t => count .comment t
  | .code, c :: t =>
    if c = '"' then count .string t
    else if c = '{' then (count .code t).addOpen
    else if c = '}' then (count .code t).addClose
    else count .code t

/-- What follows the first end of a block comment. -/
def afterComment? : Text → Option Text
  | '*' :: '/' :: t => some t
  | _ :: t => afterComment? t
  | [] => none

/-- What is known when a line begins: the number of open braces, whether it is inside a block
comment, whether a blank line is due, and whether anything has been written. -/
structure State where
  depth : Nat := 0
  inComment : Bool := false
  blankDue : Bool := false
  started : Bool := false
deriving DecidableEq, Repr

namespace State

/-- The state behind the braces of a line that has been written. -/
def pass (s : State) (b : Braces) : State where
  depth := s.depth + b.opens - b.closes
  inComment := b.openComment
  blankDue := false
  started := true

/-- The state behind a line that began inside a comment. -/
def passComment (s : State) (line : Text) : State :=
  match afterComment? line with
  | some rest => { s.pass (count .code rest) with blankDue := s.blankDue }
  | none => { s with started := true }

end State

/-- The closing braces that a line begins with. -/
def leadingCloses (line : Text) : Nat :=
  ((line.takeWhile fun c => c == '}' || Text.isBlank c).filter (· == '}')).length

/-- A line at the indentation of its depth. -/
def indent (width depth : Nat) (line : Text) : Text :=
  List.replicate (width * (depth - leadingCloses line)) ' ' ++ line

/-- The lines of the result. -/
def layLines (width : Nat) (s : State) : List Text → List Text
  | [] => []
  | raw :: rest =>
    if s.inComment then
      let line := Text.trimEnd raw
      line :: layLines width (s.passComment line) rest
    else
      let line := Text.trim raw
      if line.isEmpty then layLines width { s with blankDue := s.started } rest
      else
        (if s.blankDue then [[]] else []) ++
          indent width s.depth line :: layLines width (s.pass (count .code line)) rest

/-- Lines without the empty ones at the end. -/
def dropBlankEnd (lines : List Text) : List Text := (lines.reverse.dropWhile List.isEmpty).reverse

/-- Lines put together, with a line feed after the last one, and a lone one if there is none. -/
def unlines (lines : List Text) : Text :=
  if lines.isEmpty then ['\n'] else lines.flatMap (· ++ ['\n'])

/-- The text with a new layout, so many spaces a level. -/
def formatText (width : Nat) (t : Text) : Text :=
  unlines (dropBlankEnd (layLines width {} (Text.lines t)))

/-- The document with a new layout, so many spaces a level. -/
def format (width : Nat) (source : String) : String :=
  String.ofList (formatText width source.toList)

end EventCatalog.Layout
