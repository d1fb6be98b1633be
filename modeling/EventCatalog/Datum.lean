/-! # Data

Texts, truth values, lists and records, as they stand in the metadata of nodes, and their written
form as JSON: `Datum.compact` on one line, `Datum.pretty` with two spaces a level.

A record that is built with `Datum.insert` keeps its keys in the order of their characters and has
one value for each. -/

namespace EventCatalog

/-- A text, a truth value, a list or a record. -/
inductive Datum
  | text (value : String)
  | flag (value : Bool)
  | list (items : List Datum)
  | record (entries : List (String × Datum))
deriving Repr

namespace Datum

/-- Sets the value of a key in entries that are sorted by key. -/
def insert (key : String) (value : Datum) : List (String × Datum) → List (String × Datum)
  | [] => [(key, value)]
  | (k, v) :: entries =>
    match compare key k with
    | .lt => (key, value) :: (k, v) :: entries
    | .eq => (key, value) :: entries
    | .gt => (k, v) :: insert key value entries

/-- Entries sorted by key; of several for one key the last one counts. -/
def sorted (entries : List (String × Datum)) : List (String × Datum) :=
  entries.foldl (fun sorted (key, value) => insert key value sorted) []

/-! ### Written form -/

/-- A hexadecimal digit. -/
def hexDigit (n : Nat) : Char :=
  if n < 10 then Char.ofNat ('0'.toNat + n) else Char.ofNat ('a'.toNat + (n - 10))

/-- A character inside quotes: quotes, backslashes and control characters are escaped. -/
def escape (c : Char) : List Char :=
  if c = '"' then ['\\', '"']
  else if c = '\\' then ['\\', '\\']
  else if c = '\n' then ['\\', 'n']
  else if c = '\r' then ['\\', 'r']
  else if c = '\t' then ['\\', 't']
  else if c = '\x08' then ['\\', 'b']
  else if c = '\x0c' then ['\\', 'f']
  else if c.toNat < 0x20 then
    ['\\', 'u', '0', '0', hexDigit (c.toNat / 16), hexDigit (c.toNat % 16)]
  else [c]

/-- A text in quotes. -/
def quote (s : String) : String := String.ofList ('"' :: s.toList.flatMap escape ++ ['"'])

/-- The written form of a truth value. -/
def flagText (b : Bool) : String := if b then "true" else "false"

mutual

/-- The form without blanks. -/
def compact : Datum → String
  | text value => quote value
  | flag value => flagText value
  | list items => "[" ++ String.intercalate "," (compactItems items) ++ "]"
  | record entries => "\x7b" ++ String.intercalate "," (compactEntries entries) ++ "\x7d"

/-- The forms of items. -/
def compactItems : List Datum → List String
  | [] => []
  | d :: ds => compact d :: compactItems ds

/-- The forms of entries. -/
def compactEntries : List (String × Datum) → List String
  | [] => []
  | (key, d) :: entries => (quote key ++ ":" ++ compact d) :: compactEntries entries

end

/-- A line break and the blanks of a level. -/
def lineAt (level : Nat) : String := String.ofList ('\n' :: List.replicate (2 * level) ' ')

/-- Items between brackets, one on each line; nothing between them if there are none. -/
def enclose (opening closing : String) (level : Nat) (items : List String) : String :=
  if items.isEmpty then opening ++ closing
  else opening ++ lineAt (level + 1) ++ String.intercalate ("," ++ lineAt (level + 1)) items ++
    lineAt level ++ closing

mutual

/-- The form with one item a line, at a level. -/
def prettyAt (level : Nat) : Datum → String
  | text value => quote value
  | flag value => flagText value
  | list items => enclose "[" "]" level (prettyItems (level + 1) items)
  | record entries => enclose "\x7b" "\x7d" level (prettyEntries (level + 1) entries)

/-- The forms of items at a level. -/
def prettyItems (level : Nat) : List Datum → List String
  | [] => []
  | d :: ds => prettyAt level d :: prettyItems level ds

/-- The forms of entries at a level. -/
def prettyEntries (level : Nat) : List (String × Datum) → List String
  | [] => []
  | (key, d) :: entries =>
    (quote key ++ ": " ++ prettyAt level d) :: prettyEntries level entries

end

/-- The form with one item a line. -/
def pretty (d : Datum) : String := prettyAt 0 d

end Datum

end EventCatalog
