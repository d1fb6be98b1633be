import EventCatalog.Version

/-! # Version selectors

A reference may say which version it wants: the latest, one version, or a range such as `^1.2` or
`>=1, <3`.

* `Requirement.parse?` reads a range, a comma-separated list of comparators.
* `Requirement.admits` says which versions it allows.
* `Selector.parse` reads any selector, `Selector.select` picks the earliest greatest candidate. -/

namespace EventCatalog

/-- How a comparator relates a version to its own numbers. -/
inductive Comparison
  | exact
  | greater
  | greaterEq
  | less
  | lessEq
  | tilde
  | caret
  | wildcard
deriving DecidableEq, Repr

/-- One condition of a range; numbers that are left out match any. -/
structure Comparator where
  comparison : Comparison
  major : Nat
  minor : Option Nat
  patch : Option Nat
  pre : List PreRelease
deriving DecidableEq, Repr

namespace Comparator

/-- Whether the given numbers and the tag are the version's own. -/
def isExact (c : Comparator) (v : Version) : Bool :=
  v.major == c.major && c.minor.all (v.minor == ·) && c.patch.all (v.patch == ·) &&
    v.pre == c.pre

/-- Whether the version is greater than every version that agrees with the given numbers. -/
def isGreater (c : Comparator) (v : Version) : Bool :=
  if v.major ≠ c.major then c.major < v.major
  else match c.minor with
    | none => false
    | some minor =>
      if v.minor ≠ minor then minor < v.minor
      else match c.patch with
        | none => false
        | some patch =>
          if v.patch ≠ patch then patch < v.patch
          else PreRelease.orderTags v.pre c.pre == .gt

/-- Whether the version is less than every version that agrees with the given numbers. -/
def isLess (c : Comparator) (v : Version) : Bool :=
  if v.major ≠ c.major then v.major < c.major
  else match c.minor with
    | none => false
    | some minor =>
      if v.minor ≠ minor then v.minor < minor
      else match c.patch with
        | none => false
        | some patch =>
          if v.patch ≠ patch then v.patch < patch
          else PreRelease.orderTags v.pre c.pre == .lt

/-- Whether the version differs from the given one at most by a later patch. -/
def isTilde (c : Comparator) (v : Version) : Bool :=
  v.major == c.major && c.minor.all (v.minor == ·) &&
    match c.patch with
    | none => PreRelease.orderTags v.pre c.pre != .lt
    | some patch =>
      if v.patch ≠ patch then patch < v.patch else PreRelease.orderTags v.pre c.pre != .lt

/-- Whether the version is not older than the given one and agrees with it up to its first number
that is not zero. -/
def isCaret (c : Comparator) (v : Version) : Bool :=
  v.major == c.major &&
    match c.minor, c.patch with
    | none, _ => true
    | some minor, none => if 0 < c.major then minor ≤ v.minor else v.minor == minor
    | some minor, some patch =>
      let later := PreRelease.orderTags v.pre c.pre != .lt
      if 0 < c.major then
        if v.minor ≠ minor then minor < v.minor
        else if v.patch ≠ patch then patch < v.patch
        else later
      else if 0 < minor then
        v.minor == minor && (if v.patch ≠ patch then patch < v.patch else later)
      else v.minor == minor && v.patch == patch && later

/-- Whether a version meets the condition. -/
def admits (c : Comparator) (v : Version) : Bool :=
  match c.comparison with
  | .exact | .wildcard => c.isExact v
  | .greater => c.isGreater v
  | .greaterEq => c.isExact v || c.isGreater v
  | .less => c.isLess v
  | .lessEq => c.isExact v || c.isLess v
  | .tilde => c.isTilde v
  | .caret => c.isCaret v

/-- Whether the condition names a pre-release of the version's own numbers. -/
def namesPreReleaseOf (c : Comparator) (v : Version) : Bool :=
  c.major == v.major && c.minor == some v.minor && c.patch == some v.patch && !c.pre.isEmpty

end Comparator

/-- A range of versions: all comparators must hold, and an empty list holds of every release. -/
abbrev Requirement := List Comparator

namespace Requirement

/-- A range allows a version that meets all its conditions; a pre-release only if a condition
names a pre-release of the same numbers. -/
def admits (r : Requirement) (v : Version) : Bool :=
  r.all (·.admits v) && (v.pre.isEmpty || r.any (·.namesPreReleaseOf v))

/-- The most comparators a range may have. -/
def limit : Nat := 32

/-- Drops leading spaces. -/
def skipSpaces (t : Text) : Text := t.dropWhile (· == ' ')

/-- Reads a wildcard character. -/
def wildcard? : Text → Option Text
  | c :: t => if c == '*' || c == 'x' || c == 'X' then some t else none
  | [] => none

/-- Reads the comparison at the front, if one is written. -/
def readComparison : Text → Option Comparison × Text
  | '=' :: t => (some .exact, t)
  | '>' :: '=' :: t => (some .greaterEq, t)
  | '>' :: t => (some .greater, t)
  | '<' :: '=' :: t => (some .lessEq, t)
  | '<' :: t => (some .less, t)
  | '~' :: t => (some .tilde, t)
  | '^' :: t => (some .caret, t)
  | t => (none, t)

/-- Reads a number without leading zeros that is below the bound of version numbers. -/
def readNumber? (t : Text) : Option (Nat × Text) :=
  let digits := t.takeWhile Text.isDigit
  if 1 < digits.length ∧ digits.head? = some '0' then none
  else (Version.component? digits).map (·, t.dropWhile Text.isDigit)

/-- What stands at the place of a minor or patch number. -/
inductive Part
  | absent
  | wildcard
  | number (n : Nat)

/-- Reads a dot and what follows it, if there is one. -/
def readPart? : Text → Option (Part × Text)
  | '.' :: t => match wildcard? t with
    | some rest => some (.wildcard, rest)
    | none => (readNumber? t).map fun (n, rest) => (.number n, rest)
  | t => some (.absent, t)

/-- Reads one comparator and the spaces after it.  A wildcard makes the unwritten comparison a
wildcard, no number follows a wildcard, and only a full version has a tag. -/
def readComparator? (t : Text) : Option (Comparator × Text) := do
  let (written, t) := readComparison t
  let (major, t) ← readNumber? (skipSpaces t)
  let (minor, t) ← readPart? t
  let (patch, t) ← readPart? t
  let loose := written.getD .wildcard
  let plain := written.getD .caret
  match minor, patch with
  | .number m, .number p =>
    let (pre, t) ← Version.readPre? t
    let (_, t) ← Version.readBuild? t
    some (⟨plain, major, some m, some p, pre⟩, skipSpaces t)
  | .number m, .absent => some (⟨plain, major, some m, none, []⟩, skipSpaces t)
  | .number m, .wildcard => some (⟨loose, major, some m, none, []⟩, skipSpaces t)
  | .absent, _ => some (⟨plain, major, none, none, []⟩, skipSpaces t)
  | .wildcard, .number _ => none
  | .wildcard, _ => some (⟨loose, major, none, none, []⟩, skipSpaces t)

/-- Reads at most `n` comparators that are separated by commas and fill the text. -/
def readAll? : Nat → Text → Option Requirement
  | 0, _ => none
  | n + 1, t => do
    let (comparator, rest) ← readComparator? t
    match rest with
    | [] => some [comparator]
    | ',' :: more => (readAll? n (skipSpaces more)).map (comparator :: ·)
    | _ => none

/-- Reads a range; a lone wildcard is the range without conditions. -/
def parse? (raw : String) : Option Requirement :=
  let t := skipSpaces raw.toList
  match wildcard? t with
  | some rest => if (skipSpaces rest).isEmpty then some [] else none
  | none => readAll? limit t

end Requirement

/-- Which version of a definition a reference wants. -/
inductive Selector
  | latest
  | exact (raw : String)
  | range (raw : String) (requirement : Requirement)
deriving DecidableEq, Repr

namespace Selector

/-- Reads a selector; text that is neither a version nor a range stands for itself. -/
def parse (raw : String) : Selector :=
  let trimmed := Text.trimString raw
  if trimmed.isEmpty || Text.lowerAscii trimmed.toList == "latest".toList then .latest
  else if (Version.coerce trimmed).isSome then .exact trimmed
  else match Requirement.parse? trimmed with
    | some requirement => .range trimmed requirement
    | none => .exact trimmed

/-- Whether the text is neither a version nor a range. -/
def isMalformed : Selector → Bool
  | exact raw => (Version.coerce raw).isNone
  | _ => false

/-- Whether any version will do. -/
def isLatest : Selector → Bool
  | latest => true
  | _ => false

/-- The text of a selector that is not the latest. -/
def text? : Selector → Option String
  | latest => none
  | exact raw => some raw
  | range raw _ => some raw

/-- The text shown for a selector. -/
def toString (s : Selector) : String := s.text?.getD "latest"

/-- Whether an optional version is wanted. -/
def admits : Selector → Option String → Bool
  | latest, _ => true
  | exact _, none => false
  | exact wanted, some version => Version.same version wanted
  | range _ requirement, version =>
    match version.bind Version.coerce with
    | some v => Requirement.admits requirement v
    | none => false

variable {α : Type}

/-- The greater of two by version, the first if they are equal. -/
def newer (versionOf : α → Option String) (best candidate : α) : α :=
  if compareVersions (versionOf candidate) (versionOf best) == .gt then candidate else best

/-- The candidate of the greatest version among those that are wanted, the earliest if several
have it. -/
def select (s : Selector) (versionOf : α → Option String) (candidates : List α) : Option α :=
  match candidates.filter (fun candidate => s.admits (versionOf candidate)) with
  | [] => none
  | first :: others => some (others.foldl (newer versionOf) first)

end Selector

end EventCatalog
