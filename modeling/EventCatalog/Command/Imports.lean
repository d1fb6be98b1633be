import EventCatalog.Command.Files
import EventCatalog.Import

/-! # Imports from files

Imports that a compilation is not given are looked for below a directory.  `ImportLocation.of`
decides where: a document on the web is not looked for, and a path that leads above the directory is
refused before any file is touched.

Compiling asks its resolver for one import after the other and cannot wait for files, so what it
would ask for is found beforehand: `gather` loads with the answers that are there, reads what was
missing, and starts again.  Each time at least one more round of loading is complete. -/

namespace EventCatalog

/-- Where the text of an import is to be looked for. -/
inductive ImportLocation
  /-- On the web, where nothing is looked for. -/
  | remote
  /-- Above the directory of the documents. -/
  | outside
  /-- At a path below the directory of the documents. -/
  | below (path : Text)
deriving DecidableEq, Repr

namespace ImportLocation

/-- The location of a document: its path below the directory, even if it begins with a slash. -/
def of (target : DocumentPath) : ImportLocation :=
  if DocumentPath.isRemote target.text.toList then .remote
  else
    let path := target.text.toList.dropWhile (· == '/')
    if (Text.split '/' path).head? = some ['.', '.'] then .outside else .below path

end ImportLocation

/-- What is known of imports: the answer for each document that was asked for. -/
abbrev KnownImports := List (DocumentPath × ImportAnswer)

namespace KnownImports

/-- Answers with what is known. -/
def resolver (known : KnownImports) : ImportResolver := fun path specifier =>
  (known.lookup (path.join specifier)).getD .unknown

/-- The documents that loading asks for although nothing is known of them, each once. -/
def missing (known : KnownImports) (rounds : Nat) (documents : List Document) : List DocumentPath :=
  let asked := (Import.load known.resolver rounds documents).2.calls.map Import.Call.target
  (asked.filter fun target => (known.lookup target).isNone).eraseDups

section

variable {m : Type → Type} [Monad m] [MonadFiles m]

/-- The answer for a document that is looked for below a directory. -/
def answer (directory : Text) (target : DocumentPath) : m ImportAnswer :=
  match ImportLocation.of target with
  | .remote => pure .unknown
  | .outside => pure (.failure ("`" ++ target.text ++ "` is outside the import root"))
  | .below path => do
    let file := FilePath.join directory path
    match ← MonadFiles.readText file with
    | .ok text => return .text text
    | .error .notFound => return .unknown
    | .error error =>
      return .failure ("failed to read `" ++ String.ofList file ++ "`: " ++ error.message)

/-- Reads what loading in so many rounds asks for, in at most `passes` passes. -/
def gather (directory : Text) (rounds : Nat) (documents : List Document) :
    (passes : Nat) → KnownImports → m KnownImports
  | 0, known => pure known
  | passes + 1, known => do
    let missing := known.missing rounds documents
    if missing.isEmpty then return known
    let answers ← missing.mapM fun target => return (target, ← answer directory target)
    gather directory rounds documents passes (known ++ answers)

end

end KnownImports

end EventCatalog
