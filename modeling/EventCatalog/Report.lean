import EventCatalog.Compilation

/-! # Reports

A report is what is shown of a diagnostic: its labels in its own document with the text around them,
and one line of advice for each label in another document, which says where that is. -/

namespace EventCatalog

namespace Text

/-- The first bytes of a text, if a character ends there. -/
def takeBytes? : Nat → Text → Option Text
  | 0, _ => some []
  | _ + 1, [] => none
  | n + 1, c :: t =>
    if c.utf8Size ≤ n + 1 then (takeBytes? (n + 1 - c.utf8Size) t).map (c :: ·) else none

/-- The line and column, counted from one, of an offset; an offset inside a character counts as the
end of the text. -/
def lineColumn (t : Text) (offset : Nat) : Nat × Nat :=
  let before := (takeBytes? (min offset t.size) t).getD t
  let lines := split '\n' before
  (lines.length, (lines.getLast?.getD []).length + 1)

end Text

/-- A label of a report. -/
structure ReportLabel where
  offset : Nat
  length : Nat
  message : String
  primary : Bool
deriving DecidableEq, Repr

/-- What is shown of a problem.  Problems without a place in a document have neither severity nor
labels. -/
structure Report where
  message : String
  code : Option String
  severity : Option Severity
  help : Option String
  labels : List ReportLabel
  hasSource : Bool
deriving DecidableEq, Repr

namespace Report

/-- Whether a label is in the document at a path. -/
def isLocal (path : DocumentPath) (l : Diagnostic.Label) : Bool := l.document.all (· == path)

/-- The place of a label in another document; line and column if its text is known. -/
def location (sources : List (DocumentPath × String)) (document : DocumentPath) (span : Span) :
    String :=
  match sources.lookup document with
  | some text =>
    let (line, column) := Text.lineColumn text.toList span.start
    document.text ++ ":" ++ Nat.repr line ++ ":" ++ Nat.repr column
  | none => document.text

/-- The advice for a label in another document. -/
def note? (sources : List (DocumentPath × String)) (path : DocumentPath) (l : Diagnostic.Label) :
    Option String :=
  match l.document with
  | some document =>
    if document = path then none
    else some ("note: " ++ location sources document l.span ++ ": " ++ l.message)
  | none => none

/-- The report of a diagnostic; the texts of documents locate labels in them. -/
def ofDiagnostic (sources : List (DocumentPath × String)) (d : FileDiagnostic) : Report :=
  let lines := d.diagnostic.help.toList ++ d.diagnostic.labels.filterMap (note? sources d.path)
  { message := d.diagnostic.message
    code := d.diagnostic.code.map (·.text)
    severity := some d.diagnostic.severity
    help := if lines.isEmpty then none else some (String.intercalate "\n" lines)
    labels := (d.diagnostic.labels.filter (isLocal d.path)).map fun l =>
      ⟨l.span.start, l.span.length, l.message, l.primary⟩
    hasSource := true }

/-- A report as text: how grave the problem is, its code and words, and the advice below. -/
def text (r : Report) : String :=
  let grave := match r.severity with
    | some s => s.text
    | none => Severity.error.text
  let code := match r.code with
    | some c => "[" ++ c ++ "]"
    | none => ""
  let advice := match r.help with
    | some help => "\n" ++ help
    | none => ""
  grave ++ code ++ ": " ++ r.message ++ advice

/-- The reports of diagnostics, in order. -/
def ofDiagnostics (sources : List (DocumentPath × String)) (ds : List FileDiagnostic) :
    List Report := ds.map (ofDiagnostic sources)

end Report

end EventCatalog
