import EventCatalog.Command.Arguments

/-! # The program

Gives commands access to the files of the system, and prints what there is to report. -/

namespace EventCatalog.Terminal

/-- What an error of the system means for a file. -/
def fileError : IO.Error → FileError
  | .noFileOrDirectory .. => .notFound
  | .inappropriateType _ code _ => if code = 21 then .isDirectory else .notDirectory
  | error => .other (toString error)

/-- The outcome of an operation on a file. -/
def attempt {α : Type} (operation : IO α) : IO (Except FileError α) :=
  return (← operation.toBaseIO).mapError fileError

/-- The entries below a path; links are not followed. -/
partial def outline (wanted : String → Bool) (path : Text) :
    IO (Except ListingError (FileTree Unit)) := do
  let directory := (← IO.currentDir) / String.ofList path
  match ← attempt directory.readDir with
  | .error error => return .error ⟨path, error⟩
  | .ok found =>
    let mut entries : List (String × FileTree Unit) := []
    for entry in found do
      if wanted entry.fileName then
        match (← entry.path.symlinkMetadata).type with
        | .dir =>
          match ← outline wanted (FilePath.join path entry.fileName.toList) with
          | .ok tree => entries := (entry.fileName, tree) :: entries
          | .error error => return .error error
        | .file => entries := (entry.fileName, .file ()) :: entries
        | .symlink | .other => pure ()
    return .ok (.directory entries)

instance : MonadFiles IO where
  kind? path := do
    if path.isEmpty then return none
    let place := (← IO.currentDir) / String.ofList path
    match ← attempt place.metadata with
    | .ok data => return if data.type == .dir then some .directory else some .file
    | .error _ => return none
  read path := attempt (IO.FS.readBinFile (String.ofList path))
  list wanted path := if path.isEmpty then return .error ⟨path, .notFound⟩ else outline wanted path
  write path text := attempt (IO.FS.writeFile (String.ofList path) text)
  print text := do (← IO.getStdout).putStr text

/-- Where the user keeps settings. -/
def userSettings : IO (Option Text) := do
  let file := "ecdsl/config.toml".toList
  match ← IO.getEnv "XDG_CONFIG_HOME", ← IO.getEnv "HOME" with
  | some directory, _ => return some (FilePath.join directory.toList file)
  | none, some home =>
    return some (FilePath.join (FilePath.join home.toList ".config".toList) file)
  | none, none => return none

/-- Carries out what the arguments ask for; gives the code with which the program ends. -/
def run (arguments : List String) : IO UInt32 := do
  let asked := (Arguments.read? {} arguments).bind fun a => a.command?.map (a, ·)
  match asked with
  | none =>
    IO.eprintln Arguments.usage
    return 2
  | some (a, command) =>
    let action : Command.Run IO Unit := Command.run a.settings? (← userSettings) command
    match ← action.run with
    | .ok () => return 0
    | .error failure =>
      for report in failure.reports do IO.eprintln report.text
      return 1

end EventCatalog.Terminal

/-- Runs the program. -/
def main (arguments : List String) : IO UInt32 := EventCatalog.Terminal.run arguments
