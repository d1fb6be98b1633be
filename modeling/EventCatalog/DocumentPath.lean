import EventCatalog.Text

/-! # Document paths

Documents are addressed by paths with forward slashes, relative to the root of the workspace, or
by web addresses.  `DocumentPath.ofString` normalizes, so that `./a/../b.ec` and `b.ec` name the
same document, and there are no other paths than those it makes; paths order by their characters,
which is the order of their bytes. -/

namespace EventCatalog

namespace DocumentPath

/-- Whether a specifier names a document on the web. -/
def isRemote (specifier : Text) : Bool :=
  let lower := Text.lowerAscii (Text.trim specifier)
  "http://".toList.isPrefixOf lower || "https://".toList.isPrefixOf lower

/-- Adds one segment to the reversed segments before it: empty ones and `.` vanish, `..` takes the
segment before it away, and only a relative path may climb above its start. -/
def addSegment (absolute : Bool) (before : List Text) (segment : Text) : List Text :=
  if segment = [] ∨ segment = ['.'] then before
  else if segment = ['.', '.'] then
    match before with
    | [] => if absolute then [] else [segment]
    | last :: rest =>
      if last ≠ ['.', '.'] then rest
      else if absolute then before else segment :: before
  else segment :: before

/-- The segments of a path that survive normalization. -/
def normalSegments (absolute : Bool) (path : Text) : List Text :=
  ((Text.split '/' path).foldl (addSegment absolute) []).reverse

/-- Normalizes the part of a path after its authority. -/
def normalize (absolute : Bool) (path : Text) : Text :=
  let joined := List.intercalate ['/'] (normalSegments absolute path)
  if absolute && !(joined.isEmpty && path.isEmpty) then '/' :: joined else joined

/-- The normal form of a text: a web address keeps its scheme and authority, and elsewhere
backslashes count as slashes. -/
def normalText (raw : Text) : Text :=
  let path := Text.trim raw
  if isRemote path then
    let scheme := path.takeWhile (· != ':')
    let rest := (path.dropWhile (· != ':')).drop "://".length
    let authority := rest.takeWhile (· != '/')
    scheme ++ "://".toList ++ authority ++ normalize true (rest.dropWhile (· != '/'))
  else
    let path := path.map fun c => if c = '\\' then '/' else c
    normalize (path.head? == some '/') path

end DocumentPath

/-- The normalized path of a document. -/
structure DocumentPath where
  text : String
  isNormal : ∃ raw, text = String.ofList (DocumentPath.normalText raw)
deriving DecidableEq, Repr

namespace DocumentPath

/-- The order of paths is that of their texts. -/
def order (p q : DocumentPath) : Ordering := compare p.text q.text

/-- The path that a text names. -/
def ofText (raw : Text) : DocumentPath := ⟨String.ofList (normalText raw), raw, rfl⟩

/-- The path that a string names. -/
def ofString (raw : String) : DocumentPath := ofText raw.toList

instance : Inhabited DocumentPath := ⟨ofText []⟩

/-- The path of the directory that holds a document, empty at the top. -/
def parent (p : DocumentPath) : Text :=
  match Text.split '/' p.text.toList with
  | [] => []
  | pieces => List.intercalate ['/'] pieces.dropLast

/-- The document that a specifier means when it is written in this document. -/
def join (p : DocumentPath) (specifier : String) : DocumentPath :=
  let wanted := Text.trim specifier.toList
  if wanted.head? == some '/' || isRemote wanted then ofText wanted
  else if p.parent.isEmpty then ofText wanted
  else ofText (p.parent ++ '/' :: wanted)

end DocumentPath

end EventCatalog
