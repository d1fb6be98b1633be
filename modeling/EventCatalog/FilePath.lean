import EventCatalog.Text

/-! # File paths

Paths of files as they are written: segments with slashes between them.  A path is compared by its
**components**: repeated slashes and segments that are a single point do not count, but for a point
at the beginning of a path.  `FilePath.below?` says how a path goes on below a directory. -/

namespace EventCatalog.FilePath

/-- The path of a name in a directory. -/
def join (directory name : Text) : Text :=
  if directory.isEmpty || directory.getLast? == some '/' then directory ++ name
  else directory ++ '/' :: name

/-- A segment that names something. -/
def isName (segment : Text) : Bool := segment != [] && segment != ['.']

/-- The components of a path; the first one is `/` if the path is absolute. -/
def components (path : Text) : List Text :=
  let segments := Text.split '/' path
  let names := segments.filter isName
  match segments with
  | [] :: _ :: _ => ['/'] :: names
  | ['.'] :: _ => ['.'] :: names
  | _ => names

/-- A path without slashes and single points in front. -/
def trimFront : Text → Text
  | '/' :: t => trimFront t
  | '.' :: '/' :: t => trimFront t
  | ['.'] => []
  | t => t

/-- A path without its first component. -/
def dropComponent : Text → Text
  | '/' :: t => trimFront t
  | t => trimFront (t.dropWhile (· != '/'))

/-- How a path goes on below a directory, if its components begin with those of the directory. -/
def below? (directory path : Text) : Option Text :=
  let above := components directory
  if above.isPrefixOf (components path) then
    some (above.foldl (fun rest _ => dropComponent rest) path)
  else none

/-- A reversed path without slashes and single points at its end. -/
def trimBack : Text → Text
  | ['/'] => ['/']
  | '/' :: t => trimBack t
  | '.' :: '/' :: t => trimBack ('/' :: t)
  | t => t
termination_by t => t.length

/-- The path of the directory that holds a file. -/
def parent (path : Text) : Text := (trimBack (path.reverse.dropWhile (· != '/'))).reverse

end EventCatalog.FilePath
