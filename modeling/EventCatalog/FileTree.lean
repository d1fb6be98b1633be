import EventCatalog.FilePath

/-! # File trees

A file tree is a directory with all that is in it, as a value.  `FileTree.find` follows a path
through it, `FileTree.write` gives the tree in which a file has been written, and both fail for the
reasons for which an operating system does.  A path that begins with a slash is followed from the
top, and any other from a directory that is told with it.  There are no links, so a segment `..`
leads back the way that was come, and the top is above itself. -/

namespace EventCatalog

/-- Why something cannot be done with a file. -/
inductive FileError
  | notFound
  | notDirectory
  | isDirectory
  | nameTooLong
  | nulInPath
  | notText
  | other (text : String)
deriving DecidableEq, Repr

namespace FileError

/-- The words for an error. -/
def message : FileError → String
  | notFound => "No such file or directory (os error 2)"
  | notDirectory => "Not a directory (os error 20)"
  | isDirectory => "Is a directory (os error 21)"
  | nameTooLong => "File name too long (os error 36)"
  | nulInPath => "file name contained an unexpected NUL byte"
  | notText => "stream did not contain valid UTF-8"
  | other text => text

end FileError

/-- What stands at a path. -/
inductive EntryKind
  | file
  | directory
deriving DecidableEq, Repr

/-- A file with its content, or a directory with named entries. -/
inductive FileTree (α : Type)
  | file (content : α)
  | directory (entries : List (String × FileTree α))

namespace FileTree

variable {α β : Type}

/-- What a tree is at its top. -/
def kind : FileTree α → EntryKind
  | file _ => .file
  | directory _ => .directory

/-! ### All files -/

mutual

/-- All files of a tree, each with the names that lead to it. -/
def files : FileTree α → List (List String × α)
  | file content => [([], content)]
  | directory entries => filesOf entries

/-- All files of entries. -/
def filesOf : List (String × FileTree α) → List (List String × α)
  | [] => []
  | (name, tree) :: entries =>
    (files tree).map (fun (names, content) => (name :: names, content)) ++ filesOf entries

end

mutual

/-- The tree of names alone, without entries that are not wanted. -/
def outline (wanted : String → Bool) : FileTree α → FileTree Unit
  | file _ => .file ()
  | directory entries => .directory (outlineOf wanted entries)

/-- The outlines of the entries that are wanted. -/
def outlineOf (wanted : String → Bool) : List (String × FileTree α) → List (String × FileTree Unit)
  | [] => []
  | (name, tree) :: entries =>
    if wanted name then (name, outline wanted tree) :: outlineOf wanted entries
    else outlineOf wanted entries

end

/-! ### Entries by names -/

/-- The tree at names from the top. -/
def node? : List String → FileTree α → Option (FileTree α)
  | [], tree => some tree
  | _ :: _, file _ => none
  | name :: names, directory entries => (entries.lookup name).bind (node? names)

/-- Sets an entry of a directory. -/
def setEntry (name : String) (tree : FileTree α) :
    List (String × FileTree α) → List (String × FileTree α)
  | [] => [(name, tree)]
  | (n, t) :: entries =>
    if n = name then (n, tree) :: entries else (n, t) :: setEntry name tree entries

/-- Puts a file at names from the top; directories on the way are made. -/
def putFile (content : α) : List String → FileTree α → FileTree α
  | [], _ => .file content
  | name :: names, file _ => .directory [(name, putFile content names (.directory []))]
  | name :: names, directory entries =>
    .directory (setEntry name (putFile content names ((entries.lookup name).getD (.directory [])))
      entries)

/-- Makes a directory at names from the top, and those on the way, unless they are there. -/
def makeDirectory : List String → FileTree α → FileTree α
  | [], file _ => .directory []
  | [], tree => tree
  | name :: names, file _ => .directory [(name, makeDirectory names (.directory []))]
  | name :: names, directory entries =>
    .directory (setEntry name (makeDirectory names ((entries.lookup name).getD (.directory [])))
      entries)

/-! ### Entries by paths -/

/-- Follows segments from the directory at the reversed names `here`, and gives the names from the
top. -/
def follow (tree : FileTree α) (here : List String) : List Text → Except FileError (List String)
  | [] => .ok here.reverse
  | segment :: segments =>
    match node? here.reverse tree with
    | none => .error .notFound
    | some (file _) => .error .notDirectory
    | some (directory _) =>
      if !FilePath.isName segment then follow tree here segments
      else if segment = ['.', '.'] then follow tree here.tail segments
      else if 255 < Text.size segment then .error .nameTooLong
      else follow tree (String.ofList segment :: here) segments

/-- Refuses paths that no system takes. -/
def checkPath (path : Text) : Except FileError Unit :=
  if '\x00' ∈ path then .error .nulInPath
  else if 4096 ≤ Text.size path then .error .nameTooLong
  else if path.isEmpty then .error .notFound
  else .ok ()

/-- The reversed names of the directory that a path begins at: the top, or the one that is told. -/
def start (here : List String) (path : Text) : List String :=
  if path.head? = some '/' then [] else here

/-- What stands at a path. -/
def find (tree : FileTree α) (here : List String) (path : Text) :
    Except FileError (FileTree α) := do
  checkPath path
  let names ← follow tree (start here path) (Text.split '/' path)
  match node? names tree with
  | some found => .ok found
  | none => .error .notFound

/-- The content of the file at a path. -/
def read (tree : FileTree α) (here : List String) (path : Text) : Except FileError α := do
  match ← tree.find here path with
  | file content => .ok content
  | directory _ => .error .isDirectory

/-- The tree after content has been written to a path.  The directory must be there; a file that is
there loses its content. -/
def write (tree : FileTree α) (here : List String) (path : Text) (content : α) :
    Except FileError (FileTree α) := do
  checkPath path
  let segments := Text.split '/' path
  let bare := (segments.reverse.dropWhile (·.isEmpty)).reverse
  let last := bare.getLast?.getD []
  let above ← follow tree (start here path) (bare.dropLast ++ [['.']])
  if bare.length < segments.length || last = ['.'] || last = ['.', '.'] then .error .isDirectory
  else if 255 < Text.size last then .error .nameTooLong
  else
    let names := above ++ [String.ofList last]
    match node? names tree with
    | some (directory _) => .error .isDirectory
    | _ => .ok (tree.putFile content names)

/-! ### Differences -/

/-- The files that are new or have another content than before, by path. -/
def changes [BEq α] (before after : FileTree α) : List (String × α) :=
  let old := before.files
  (after.files.filter fun (names, content) => old.lookup names != some content).map
    fun (names, content) => (String.intercalate "/" names, content)

end FileTree

end EventCatalog
