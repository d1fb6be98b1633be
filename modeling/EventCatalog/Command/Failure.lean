import EventCatalog.Command.Files
import EventCatalog.Report

/-! # Failures of commands

Why a command ends before it has done its work, the words for that, and the reports to show: one for
each error in a document, or else a single one without a place. -/

namespace EventCatalog.Command

/-- Why a command failed. -/
inductive Failure
  | unreadable (path : Text) (error : FileError)
  | unlistable (root : Text) (error : ListingError)
  | unwritable (path : Text) (error : FileError)
  | outsideRoot (path root : Text)
  | missingSettings (path : Text)
  | unreadableSettings (path : Text) (error : FileError)
  | malformedSettings
  /-- Errors in documents, and the texts of the documents that were found. -/
  | compilation (errors : List FileDiagnostic) (sources : List (DocumentPath × String))
  | unformatted (paths : List Text)
deriving DecidableEq, Repr

namespace Failure

/-- A path as it is quoted in messages. -/
def quote (path : Text) : String := "`" ++ String.ofList path ++ "`"

/-- The words for a failure. -/
def message : Failure → String
  | unreadable path error => "failed to read " ++ quote path ++ ": " ++ error.message
  | unlistable root error =>
    "failed to list documents under " ++ quote root ++ ": IO error for operation on " ++
      String.ofList error.path ++ ": " ++ error.error.message
  | unwritable path error => "failed to write " ++ quote path ++ ": " ++ error.message
  | outsideRoot path root => quote path ++ " is not inside the workspace root " ++ quote root
  | missingSettings path => "Missing configuration file: " ++ String.ofList path
  | unreadableSettings path error =>
    "Failed to read configuration file " ++ quote path ++ ": " ++ error.message
  | malformedSettings => "Failed to parse TOML configuration"
  | compilation errors _ => "compilation failed with " ++ Nat.repr errors.length ++ " error(s)"
  | unformatted paths => Nat.repr paths.length ++ " file(s) are not formatted"

/-- The code under which a failure is reported. -/
def code : Failure → String
  | unreadable .. | unlistable .. | unwritable .. | outsideRoot .. => "ecdsl::io"
  | missingSettings .. | unreadableSettings .. | malformedSettings => "ecdsl::config"
  | compilation .. => "ecdsl::compile"
  | unformatted .. => "ecdsl::fmt"

/-- What is shown of a failure. -/
def reports (f : Failure) : List Report :=
  match f with
  | compilation errors sources => Report.ofDiagnostics sources errors
  | _ => [⟨f.message, some f.code, none, none, [], false⟩]

end Failure

end EventCatalog.Command
