import EventCatalog.Command.Failure
import EventCatalog.Command.Imports
import EventCatalog.Layout
import EventCatalog.Settings

/-! # Commands

What can be done with a catalog from a command line:

* `check` compiles all documents below a directory and fails if there are errors;
* `graph` does so too, and gives the graph before it fails;
* `format` lays documents out anew, or says which ones are not laid out.

A command runs where files can be accessed; it ends with a `Failure` or with nothing. -/

namespace EventCatalog

/-- What `format` does with a document. -/
inductive FormatMode
  /-- Prints the new layout. -/
  | print
  /-- Puts the new layout in place of the old one. -/
  | write
  /-- Fails if the new layout is another one. -/
  | check
deriving DecidableEq, Repr

namespace FormatMode

/-- The mode of two flags, of which `check` counts more. -/
def ofFlags (write check : Bool) : FormatMode :=
  if check then .check else if write then .write else .print

end FormatMode

/-- A command and what it is about. -/
inductive Command
  | check (root : Text)
  | graph (root : Text) (output : Option Text) (pretty : Bool)
  | format (paths : List Text) (mode : FormatMode)
deriving DecidableEq, Repr

namespace Command

variable {m : Type → Type} [Monad m] [MonadFiles m]

/-- What a command does: it may fail. -/
abbrev Run (m : Type → Type) := ExceptT Failure m

/-- Carries on with a result, or fails with an error. -/
def orFail {ε α : Type} (failure : ε → Failure) (action : m (Except ε α)) : Run m α := do
  match ← (action : m (Except ε α)) with
  | .ok a => return a
  | .error e => throw (failure e)

/-! ### Settings -/

/-- The settings in a file. -/
def readSettings (path : Text) : Run m Config := do
  if !(← (MonadFiles.isThere path : m Bool)) then throw (.missingSettings path)
  let text ← orFail (.unreadableSettings path) (MonadFiles.readText path)
  match Config.ofText? text.toList with
  | some config => return config
  | none => throw .malformedSettings

/-- The settings in the first file that is there, or else the defaults. -/
def firstSettings : List Text → Run m Config
  | [] => return {}
  | path :: paths => do
    if ← (MonadFiles.isThere path : m Bool) then readSettings path else firstSettings paths

/-- Where a project keeps its settings. -/
def projectSettings : Text := "ecdsl/config.toml".toList

/-- The settings for a command: those in the file that is named, if one is; else those of the
project; else those of the user. -/
def settings (named? userSettings? : Option Text) : Run m Config :=
  match named? with
  | some path => readSettings path
  | none => firstSettings (projectSettings :: userSettings?.toList)

/-! ### Documents -/

/-- The path of an entry below a directory. -/
def entryPath (directory : Text) (names : List String) : Text :=
  names.foldl (fun path name => FilePath.join path name.toList) directory

/-- The documents that a path means: the file there, whatever its name, or those below the directory
there that are not hidden. -/
def discover (root : Text) : Run m (List Text) := do
  if ← (MonadFiles.isFile root : m Bool) then return [root]
  let tree ← orFail (.unlistable root) (MonadFiles.list (fun name => !FileTree.isHidden name) root)
  return tree.documents.map (entryPath root)

/-- The text of a document. -/
def readDocument (path : Text) : Run m String :=
  orFail (.unreadable path) (MonadFiles.readText path)

/-- Compiles sources with imports from below a directory. -/
def compileWithFiles (config : Config) (directory : Text) (sources : List (String × String)) :
    Run m Compilation := do
  let documents := (sortSources sources).map fun (path, text) => Document.read path text
  let known ← (KnownImports.gather directory config.importRounds documents config.importRounds [] :
    m KnownImports)
  return compile config (some known.resolver) sources

/-- Compiles the documents that a path means; gives their texts too. -/
def compileRoot (config : Config) (root : Text) :
    Run m (Compilation × List (DocumentPath × String)) := do
  let directory := if ← (MonadFiles.isFile root : m Bool) then FilePath.parent root else root
  let found ← (← discover root).mapM fun path => do
    return (String.ofList ((FilePath.below? directory path).getD path), ← readDocument path)
  let sources := sortSources found
  let compiled ← compileWithFiles config directory
    (sources.map fun (path, text) => (path.text, text))
  return (compiled, sources)

/-- Compiles files without looking for imports; each is named by its path below `root`. -/
def compileFiles (config : Config) (root : Text) (paths : List Text) : Run m Compilation := do
  let sources ← paths.mapM fun path => do
    match FilePath.below? root path with
    | some name => return (String.ofList name, ← readDocument path)
    | none => throw (.outsideRoot path root)
  return compile config none sources

/-- Fails if there are errors. -/
def requireNoErrors (compiled : Compilation) (sources : List (DocumentPath × String)) :
    Run m Unit :=
  let errors := compiled.diagnostics.filter (·.diagnostic.isError)
  if errors.isEmpty then return () else throw (.compilation errors sources)

/-! ### The commands -/

/-- The written form of a graph. -/
def graphText (pretty : Bool) (g : Graph) : String :=
  if pretty then g.datum.pretty else g.datum.compact

/-- Lays one document out anew; gives whether `check` objects to it. -/
def formatFile (config : Config) (mode : FormatMode) (path : Text) : Run m Bool := do
  let text ← readDocument path
  let formatted := Layout.format config.indentWidth text
  match mode with
  | .check => return formatted != text
  | .write =>
    if formatted != text then orFail (.unwritable path) (MonadFiles.write path formatted)
    return false
  | .print =>
    (MonadFiles.print formatted : m Unit)
    return false

/-- Lays out anew the documents that a path means; gives those that `check` objects to. -/
def formatRoot (config : Config) (mode : FormatMode) (root : Text) : Run m (List Text) := do
  (← discover root).filterM (formatFile config mode)

/-- Carries a command out. -/
def perform (config : Config) : Command → Run m Unit
  | check root => do
    let (compiled, sources) ← compileRoot config root
    requireNoErrors compiled sources
  | graph root output pretty => do
    let (compiled, sources) ← compileRoot config root
    let text := graphText pretty compiled.graph
    match output with
    | some path => orFail (.unwritable path) (MonadFiles.write path text)
    | none => (MonadFiles.print (text ++ "\n") : m Unit)
    requireNoErrors compiled sources
  | format paths mode => do
    let unformatted ← paths.mapM (formatRoot config mode)
    if !unformatted.flatten.isEmpty then throw (.unformatted unformatted.flatten)

/-- Finds the settings and carries a command out. -/
def run (named? userSettings? : Option Text) (command : Command) : Run m Unit := do
  perform (← settings named? userSettings?) command

end Command

end EventCatalog
