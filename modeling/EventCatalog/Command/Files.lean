import EventCatalog.FileTree

/-! # Access to files

Commands say what they need of a file system by the class `MonadFiles`, and so do not depend on
where the files are.  `Desk` is an instance that is pure: a file tree, the directory where work is
done, and the text printed so far. -/

namespace EventCatalog

/-- Why a directory cannot be listed, and the place where that was noticed. -/
structure ListingError where
  path : Text
  error : FileError
deriving DecidableEq, Repr

/-- The operations on files by which commands see and change their surroundings. -/
class MonadFiles (m : Type → Type) where
  /-- What stands at a path, if anything does. -/
  kind? : Text → m (Option EntryKind)
  /-- The bytes of a file. -/
  read : Text → m (Except FileError ByteArray)
  /-- All that is below a directory, without entries whose names are not wanted. -/
  list : (wanted : String → Bool) → Text → m (Except ListingError (FileTree Unit))
  /-- Writes a file. -/
  write : Text → String → m (Except FileError Unit)
  /-- Prints a text. -/
  print : String → m Unit

/-- Files that are held as a value, the reversed names of the directory where work is done, and what
has been printed. -/
structure Desk where
  tree : FileTree ByteArray
  here : List String := []
  printed : String := ""

namespace Desk

/-- What stands at a path. -/
def find (desk : Desk) (path : Text) : Except FileError (FileTree ByteArray) :=
  desk.tree.find desk.here path

/-- The bytes of the file at a path. -/
def read (desk : Desk) (path : Text) : Except FileError ByteArray := desk.tree.read desk.here path

instance : MonadFiles (StateM Desk) where
  kind? path := return ((← get).find path).toOption.map (·.kind)
  read path := return (← get).read path
  list wanted path := return match (← get).find path with
    | .ok tree => .ok (tree.outline wanted)
    | .error error => .error ⟨path, error⟩
  write path text := do
    let desk ← get
    match desk.tree.write desk.here path text.toUTF8 with
    | .ok tree =>
      set { desk with tree }
      return .ok ()
    | .error error => return .error error
  print text := modify fun desk => { desk with printed := desk.printed ++ text }

end Desk

namespace MonadFiles

variable {m : Type → Type} [Monad m] [MonadFiles m]

/-- Whether a file is at a path. -/
def isFile (path : Text) : m Bool := return (← kind? path) == some .file

/-- Whether anything is at a path. -/
def isThere (path : Text) : m Bool := return (← kind? path).isSome

/-- The text that bytes encode. -/
def decode (bytes : ByteArray) : Except FileError String :=
  match String.fromUTF8? bytes with
  | some text => .ok text
  | none => .error .notText

/-- The text of a file. -/
def readText (path : Text) : m (Except FileError String) := return (← read path).bind decode

end MonadFiles

/-! ### Documents below a directory -/

namespace FileTree

/-- Whether a name is that of a hidden entry. -/
def isHidden (name : String) : Bool := name.toList.head? == some '.'

/-- Whether a name is that of a document. -/
def isDocumentName (name : String) : Bool := ".ec".toList.isSuffixOf name.toList

/-- Whether one list of names comes before another or is the same: the first names that differ
decide. -/
def namesLe : List String → List String → Bool
  | [], _ => true
  | _ :: _, [] => false
  | a :: as, b :: bs =>
    match compare a b with
    | .lt => true
    | .eq => namesLe as bs
    | .gt => false

/-- The names that lead to the documents of a tree, in order. -/
def documents (tree : FileTree Unit) : List (List String) :=
  ((tree.files.map (·.1)).filter (·.getLast?.any isDocumentName)).mergeSort namesLe

end FileTree

end EventCatalog
