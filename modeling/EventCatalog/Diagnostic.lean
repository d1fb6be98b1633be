import EventCatalog.DocumentPath
import EventCatalog.Span

/-! # Diagnostics

A diagnostic says what is wrong with a document and where.  `Diagnostic.Code` is the closed list of
causes, each with a short text (`E001`) and a description; a label points at a span of the document
itself or of another one. -/

namespace EventCatalog

/-- How grave a diagnostic is. -/
inductive Severity
  | error
  | warning
deriving DecidableEq, Repr

namespace Severity

/-- The word for a severity. -/
def text : Severity → String
  | error => "error"
  | warning => "warning"

end Severity

namespace Diagnostic

/-- The causes of diagnostics: first those of the lexer, then of the parser, of linking and of
validation. -/
inductive Code
  | unterminatedString
  | unexpectedCharacter
  | invalidEscape
  | invalidUnicodeEscape
  | invalidCodePoint
  | emptyUnicodeEscape
  | unexpectedToken
  | incompleteInput
  | unknownStatement
  | unresolvedReference
  | duplicateDefinition
  | duplicateExport
  | unresolvedImport
  | nameNotExported
  | importFailure
  | kindMismatch
  | cyclicContainment
  | malformedVersion
  | missingVersion
  | noMatchingVersion
deriving DecidableEq, Repr

namespace Code

/-- The short text of a cause. -/
def text : Code → String
  | unterminatedString => "E001"
  | unexpectedCharacter => "E002"
  | invalidEscape => "E003"
  | invalidUnicodeEscape => "E004"
  | invalidCodePoint => "E005"
  | emptyUnicodeEscape => "E006"
  | unexpectedToken => "E100"
  | incompleteInput => "E101"
  | unknownStatement => "E102"
  | unresolvedReference => "E200"
  | duplicateDefinition => "E201"
  | duplicateExport => "E202"
  | unresolvedImport => "E203"
  | nameNotExported => "E204"
  | importFailure => "E205"
  | kindMismatch => "E300"
  | cyclicContainment => "E301"
  | malformedVersion => "E302"
  | missingVersion => "E303"
  | noMatchingVersion => "E304"

/-- A few words that describe a cause. -/
def description : Code → String
  | unterminatedString => "unterminated string literal"
  | unexpectedCharacter => "unexpected character"
  | invalidEscape => "invalid escape sequence"
  | invalidUnicodeEscape => "invalid unicode escape"
  | invalidCodePoint => "invalid unicode codepoint"
  | emptyUnicodeEscape => "empty unicode escape"
  | unexpectedToken => "unexpected token"
  | incompleteInput => "incomplete input"
  | unknownStatement => "unknown statement"
  | unresolvedReference => "unresolved reference"
  | duplicateDefinition => "duplicate definition"
  | duplicateExport => "duplicate export"
  | unresolvedImport => "unresolved import"
  | nameNotExported => "name not exported"
  | importFailure => "import resolver failure"
  | kindMismatch => "kind mismatch"
  | cyclicContainment => "cyclic containment"
  | malformedVersion => "malformed version"
  | missingVersion => "missing version"
  | noMatchingVersion => "no matching version"

/-- Every cause, in the order of their short texts. -/
def all : List Code :=
  [unterminatedString, unexpectedCharacter, invalidEscape, invalidUnicodeEscape,
    invalidCodePoint, emptyUnicodeEscape, unexpectedToken, incompleteInput, unknownStatement,
    unresolvedReference, duplicateDefinition, duplicateExport, unresolvedImport,
    nameNotExported, importFailure, kindMismatch, cyclicContainment, malformedVersion,
    missingVersion, noMatchingVersion]

end Code

/-- A span with a message, in the diagnosed document unless it names another one. -/
structure Label where
  span : Span
  message : String
  primary : Bool
  document : Option DocumentPath
deriving DecidableEq, Repr

end Diagnostic

/-- A message about a document. -/
structure Diagnostic where
  severity : Severity
  code : Option Diagnostic.Code
  message : String
  labels : List Diagnostic.Label
  help : Option String
deriving DecidableEq, Repr

namespace Diagnostic

/-- A bare diagnostic of some severity. -/
def plain (severity : Severity) (message : String) : Diagnostic :=
  ⟨severity, none, message, [], none⟩

/-- An error with its cause. -/
def error (code : Code) (message : String) : Diagnostic :=
  ⟨.error, some code, message, [], none⟩

/-- A warning with its cause. -/
def warning (code : Code) (message : String) : Diagnostic :=
  ⟨.warning, some code, message, [], none⟩

/-- Adds the label that says where the problem is. -/
def labelled (d : Diagnostic) (span : Span) (message : String) : Diagnostic :=
  { d with labels := d.labels ++ [⟨span, message, true, none⟩] }

/-- Adds a label that explains the problem. -/
def also (d : Diagnostic) (span : Span) (message : String) : Diagnostic :=
  { d with labels := d.labels ++ [⟨span, message, false, none⟩] }

/-- Adds an explaining label in another document. -/
def related (d : Diagnostic) (document : DocumentPath) (span : Span) (message : String) :
    Diagnostic :=
  { d with labels := d.labels ++ [⟨span, message, false, some document⟩] }

/-- Adds advice. -/
def withHelp (d : Diagnostic) (help : String) : Diagnostic := { d with help := some help }

/-- The span of the first primary label. -/
def primarySpan (d : Diagnostic) : Option Span := (d.labels.find? (·.primary)).map (·.span)

/-- Whether the diagnostic is an error. -/
def isError (d : Diagnostic) : Bool := d.severity == .error

/-- One line: severity, cause and message. -/
def summary (d : Diagnostic) : String :=
  let code := match d.code with
    | some code => "[" ++ code.text ++ "]"
    | none => ""
  d.severity.text ++ code ++ ": " ++ d.message

/-- Whether any of the diagnostics is an error. -/
def anyError (ds : List Diagnostic) : Bool := ds.any isError

end Diagnostic

end EventCatalog
