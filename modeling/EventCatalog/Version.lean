import EventCatalog.Text

/-! # Versions

Versions are free text in a catalog.  Before two of them are compared they are **coerced** to a
semantic version (`1` becomes `1.0.0`, `v1.2` becomes `1.2.0`); text that cannot be coerced still
takes part in the order, below every semantic version.

* `Version.coerce` reads a text, `Version.toString` writes the canonical form.
* `Version.precedence` is the order of semantic versions; build metadata has no part in it.
* `Version.Rank` is the total order on optional texts, `compareVersions` compares by it. -/

namespace EventCatalog

/-- One dot-separated part of a pre-release tag. -/
inductive PreRelease
  | number (n : Nat)
  | word (w : String)
deriving DecidableEq, Repr

namespace PreRelease

/-- Reads one part: digits denote a number, which has no leading zero. -/
def ofText? (t : Text) : Option PreRelease :=
  if t.all Text.isDigit then
    if 1 < t.length ∧ t.head? = some '0' then none else some (.number (Text.decimal t))
  else some (.word (String.ofList t))

/-- The written form of a part. -/
def toString : PreRelease → String
  | number n => Nat.repr n
  | word w => w

/-- A number comes before every word; numbers go by size, words by their characters. -/
def order : PreRelease → PreRelease → Ordering
  | number m, number n => compare m n
  | number _, word _ => .lt
  | word _, number _ => .gt
  | word v, word w => compare v w

/-- Tags go part by part, and a tag comes before every longer one that it begins; the empty tag,
which marks a release, comes last. -/
def orderTags : List PreRelease → List PreRelease → Ordering
  | [], [] => .eq
  | [], _ :: _ => .gt
  | _ :: _, [] => .lt
  | ps, qs => parts ps qs
where
  /-- Lexicographic order in which a proper beginning comes first. -/
  parts : List PreRelease → List PreRelease → Ordering
    | [], [] => .eq
    | [], _ :: _ => .lt
    | _ :: _, [] => .gt
    | p :: ps, q :: qs => (order p q).then (parts ps qs)

end PreRelease

/-- A semantic version. -/
structure Version where
  major : Nat
  minor : Nat
  patch : Nat
  pre : List PreRelease
  build : String
deriving DecidableEq, Repr

namespace Version

/-- The numbers of a version are below this bound. -/
def bound : Nat := Nat.pow 2 64

/-- Characters of pre-release tags and build metadata. -/
def isTagChar (c : Char) : Bool := Text.isAlphanumeric c || c == '-' || c == '.'

/-- Reads dot-separated parts, none of which is empty. -/
def readParts? (t : Text) : Option (List Text × Text) :=
  let parts := Text.split '.' (t.takeWhile isTagChar)
  if parts.all (fun part => !part.isEmpty) then some (parts, t.dropWhile isTagChar) else none

/-- Reads a pre-release tag: a hyphen and its parts, or nothing. -/
def readPre? : Text → Option (List PreRelease × Text)
  | '-' :: t => do
    let (parts, rest) ← readParts? t
    return (← parts.mapM PreRelease.ofText?, rest)
  | t => some ([], t)

/-- Reads build metadata: a plus sign and its parts, or nothing. -/
def readBuild? : Text → Option (String × Text)
  | '+' :: t => do
    let (_, rest) ← readParts? t
    return (String.ofList (t.takeWhile isTagChar), rest)
  | t => some ("", t)

/-- The number that a non-empty run of digits denotes, if it is below the bound. -/
def component? (t : Text) : Option Nat :=
  if t.isEmpty || !t.all Text.isDigit then none
  else if Text.decimal t < bound then some (Text.decimal t) else none

/-- Reads a version leniently: blanks around it and one leading `v` are dropped, one to three
numbers are padded with zeros, and a pre-release tag and build metadata may follow. -/
def coerce (raw : String) : Option Version := do
  let trimmed := Text.trim raw.toList
  let bare := match trimmed with
    | 'v' :: t => t
    | 'V' :: t => t
    | t => t
  let isCore (c : Char) : Bool := c != '-' && c != '+'
  let numbers ← (Text.split '.' (bare.takeWhile isCore)).mapM component?
  let (major, minor, patch) ← match numbers with
    | [a] => some (a, 0, 0)
    | [a, b] => some (a, b, 0)
    | [a, b, c] => some (a, b, c)
    | _ => none
  let (pre, rest) ← readPre? (bare.dropWhile isCore)
  let (build, rest) ← readBuild? rest
  if rest.isEmpty then some ⟨major, minor, patch, pre, build⟩ else none

/-- The canonical written form. -/
def toString (v : Version) : String :=
  let core := Nat.repr v.major ++ "." ++ Nat.repr v.minor ++ "." ++ Nat.repr v.patch
  let pre := if v.pre.isEmpty then ""
    else "-" ++ String.intercalate "." (v.pre.map PreRelease.toString)
  let build := if v.build.isEmpty then "" else "+" ++ v.build
  core ++ pre ++ build

/-- The order of semantic versions, which does not look at build metadata. -/
def precedence (v w : Version) : Ordering :=
  (compare v.major w.major).then <| (compare v.minor w.minor).then <|
    (compare v.patch w.patch).then (PreRelease.orderTags v.pre w.pre)

/-- The version without its build metadata. -/
def withoutBuild (v : Version) : Version := { v with build := "" }

/-- Whether two texts denote versions of equal precedence, or are the same text. -/
def same (a b : String) : Bool :=
  match coerce a, coerce b with
  | some v, some w => v.precedence w == .eq
  | _, _ => Text.trimString a == Text.trimString b

/-- One spelling for each version: the canonical form without build metadata, or the trimmed
text. -/
def normalize (raw : String) : String :=
  match coerce raw with
  | some v => v.withoutBuild.toString
  | none => Text.trimString raw

/-- The place of an optional version text in the total order. -/
inductive Rank
  | missing
  | text (t : String)
  | semantic (v : Version)
deriving DecidableEq, Repr

namespace Rank

/-- The rank of an optional version text. -/
def of : Option String → Rank
  | none => missing
  | some raw => match coerce raw with
    | some v => semantic v.withoutBuild
    | none => text (Text.trimString raw)

/-- A missing version comes first, then texts by their characters, then semantic versions. -/
def order : Rank → Rank → Ordering
  | missing, missing => .eq
  | missing, _ => .lt
  | text _, missing => .gt
  | text s, text t => compare s t
  | text _, semantic _ => .lt
  | semantic v, semantic w => v.precedence w
  | semantic _, _ => .gt

end Rank

end Version

/-- The order of optional version texts. -/
def compareVersions (a b : Option String) : Ordering :=
  (Version.Rank.of a).order (Version.Rank.of b)

end EventCatalog
