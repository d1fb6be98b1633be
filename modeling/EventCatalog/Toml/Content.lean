import EventCatalog.Toml.Quoted
import EventCatalog.Toml.Word

/-! # The content of a TOML text

`Toml.ofText?` reads a text statement by statement and builds its table.  Assignments and headers
each have a line of their own; only between brackets and braces may a value go on over several
lines.

Sequences are read by `items?` and `statements?`, which go on only while the text gets shorter. -/

namespace EventCatalog.Toml

/-- What is left of a line behind blanks. -/
def skipSpaces (t : Text) : Text := t.dropWhile isSpace

/-- What stands behind a comment, if there is one here; fails at a character that comments may not
hold. -/
def skipComment? (t : Text) : Option Text :=
  if t.head? = some '#' then
    let rest := t.dropWhile isVisible
    if rest.isEmpty || (afterBreak? rest).isSome then some rest else none
  else some t

/-- What stands behind blanks, comments and line breaks. -/
def skipLines? (t : Text) : Option Text :=
  match skipComment? (skipSpaces t) with
  | none => none
  | some rest =>
    match afterBreak? rest with
    | none => some rest
    | some next => if next.length < t.length then skipLines? next else none
termination_by t.length

/-- What stands behind the end of a line: blanks, a comment and a line break or the end of the
text. -/
def endLine? (t : Text) : Option Text :=
  (skipComment? (skipSpaces t)).bind fun rest =>
    if rest.isEmpty then some rest else afterBreak? rest

/-! ### Keys -/

/-- A character of a name without quotes. -/
def isNameChar (c : Char) : Bool := Text.isAlphanumeric c || c == '_' || c == '-'

/-- Reads one name of a key. -/
def name? (t : Text) : Option (String × Text) :=
  match quotedLine? t with
  | some (name, rest) => some (String.ofList name, rest)
  | none =>
    let name := t.takeWhile isNameChar
    if name.isEmpty then none else some (String.ofList name, t.dropWhile isNameChar)

/-- Reads names with points between them, and the blanks behind them. -/
def key? (t : Text) : Option (Key × Text) :=
  match name? t with
  | none => none
  | some (name, rest) =>
    match skipSpaces rest with
    | '.' :: more =>
      if (skipSpaces more).length < t.length then
        (key? (skipSpaces more)).map fun (key, rest) => (⟨name :: key.path, key.last⟩, rest)
      else none
    | rest => some (⟨[], name⟩, rest)
termination_by t.length

/-! ### Values -/

/-- A character of a word without quotes. -/
def isWordChar (c : Char) : Bool := isNameChar c || c == '+' || c == '.' || c == ':'

/-- Reads a word; a time that follows a date and one blank belongs to it. -/
def word? (t : Text) : Option (Toml × Text) :=
  let word := t.takeWhile isWordChar
  let rest := t.dropWhile isWordChar
  match rest with
  | ' ' :: c :: more =>
    if isDate word && Text.isDigit c then
      (ofWord? (word ++ ' ' :: (c :: more).takeWhile isWordChar)).map
        (·, (c :: more).dropWhile isWordChar)
    else (ofWord? word).map (·, rest)
  | _ => (ofWord? word).map (·, rest)

/-- Reads items with commas between them, and perhaps one behind the last, up to a closing mark. -/
def items? {α : Type} (item? : Text → Option (α × Text)) (close : Char) (t : Text) :
    Option (List α × Text) :=
  match skipLines? t with
  | none | some [] => none
  | some (c :: inner) =>
    if c = close then some ([], inner)
    else match item? (c :: inner) with
      | none => none
      | some (a, rest) =>
        match skipLines? rest with
        | some (',' :: more) =>
          if more.length < t.length then
            (items? item? close more).map fun (as, rest) => (a :: as, rest)
          else none
        | some (d :: rest) => if d = close then some ([a], rest) else none
        | none | some [] => none
termination_by t.length

/-- Reads a key, an equals sign and what `value?` reads. -/
def assignment? (value? : Text → Option (Toml × Text)) (t : Text) :
    Option ((Key × Toml) × Text) :=
  match key? t with
  | some (key, '=' :: rest) => (value? (skipSpaces rest)).map fun (v, rest) => ((key, v), rest)
  | _ => none

/-- Reads a value that nests at most so many levels deep. -/
def value? : (depth : Nat) → Text → Option (Toml × Text)
  | 0, _ => none
  | depth + 1, t =>
    match t with
    | '[' :: inner => (items? (value? depth) ']' inner).map fun (items, rest) => (.list items, rest)
    | '{' :: inner =>
      match items? (assignment? (value? depth)) '}' inner with
      | some (assignments, rest) => (ofAssignments? assignments).map (·, rest)
      | none => none
    | _ =>
      match quoted? t with
      | some (s, rest) => some (.text (String.ofList s), rest)
      | none => word? t

/-- Brackets and braces nest at most so deep. -/
def maxDepth : Nat := 80

/-! ### Statements -/

/-- Reads a header or an assignment. -/
def statement? : Text → Option (Statement × Text)
  | '[' :: '[' :: t =>
    match key? (skipSpaces t) with
    | some (key, ']' :: ']' :: rest) => some (.doubleHeader key, rest)
    | _ => none
  | '[' :: t =>
    match key? (skipSpaces t) with
    | some (key, ']' :: rest) => some (.header key, rest)
    | _ => none
  | t => (assignment? (value? (maxDepth + 1)) t).map fun ((key, v), rest) =>
      (.assignment key v, rest)

/-- Reads statements up to the end of the text. -/
def statements? (t : Text) : Option (List Statement) :=
  match skipLines? t with
  | none => none
  | some [] => some []
  | some (c :: inner) =>
    match statement? (c :: inner) with
    | none => none
    | some (s, rest) =>
      match endLine? rest with
      | none => none
      | some next => if next.length < t.length then (statements? next).map (s :: ·) else none
termination_by t.length

/-- The table of a TOML text, which may begin with a byte order mark. -/
def ofText? (t : Text) : Option Entries :=
  (statements? (if t.head? = some '\ufeff' then t.tail else t)).bind ofStatements?

end EventCatalog.Toml
