import EventCatalog.Token.Literal

/-! # Quoted texts of TOML

Double quotes hold escapes, single quotes hold what they hold, and three quotes of either kind hold
several lines.  Each function here reads what follows the opening quotes and gives the text denoted
and what stands behind the closing ones. -/

namespace EventCatalog.Toml

/-- A blank inside a line. -/
def isSpace (c : Char) : Bool := c == ' ' || c == '\t'

/-- A character that may stand in a comment or in quotes: no control character but the tab. -/
def isVisible (c : Char) : Bool := c == '\t' || (0x20 ≤ c.toNat && c.toNat != 0x7F)

/-- What follows a line break, if there is one. -/
def afterBreak? : Text → Option Text
  | '\n' :: t => some t
  | '\r' :: '\n' :: t => some t
  | _ => none

/-- The character that so many hexadecimal digits write, and the length of an escape that ends with
them. -/
def codeEscape? (count : Nat) (t : Text) : Option (Char × Nat) :=
  let digits := t.take count
  if digits.length = count ∧ digits.all Escape.isHexDigit then
    (Escape.scalar? digits).map (·, count + 1)
  else none

/-- The character that follows a backslash, and the length of its escape without the backslash. -/
def escape? : Text → Option (Char × Nat)
  | [] => none
  | c :: t =>
    match c with
    | 'b' => some ('\x08', 1)
    | 't' => some ('\t', 1)
    | 'n' => some ('\n', 1)
    | 'f' => some ('\x0c', 1)
    | 'r' => some ('\r', 1)
    | 'e' => some ('\x1b', 1)
    | '"' => some ('"', 1)
    | '\\' => some ('\\', 1)
    | 'x' => codeEscape? 2 t
    | 'u' => codeEscape? 4 t
    | 'U' => codeEscape? 8 t
    | _ => none

/-- Puts a character in front of a text that has been read. -/
def prepend (c : Char) (read : Text × Text) : Text × Text := (c :: read.1, read.2)

/-- Reads what follows a double quote. -/
def basic? : Text → Option (Text × Text)
  | [] => none
  | c :: t =>
    if c = '"' then some ([], t)
    else if c = '\\' then
      match escape? t with
      | some (value, length) => (basic? (t.drop length)).map (prepend value)
      | none => none
    else if isVisible c then (basic? t).map (prepend c)
    else none
termination_by t => t.length
decreasing_by all_goals simp; try omega

/-- Reads what follows a single quote. -/
def literal? : Text → Option (Text × Text)
  | [] => none
  | c :: t =>
    if c = '\'' then some ([], t)
    else if isVisible c then (literal? t).map (prepend c)
    else none

/-- The text that up to five quotes close: three end it, and those before them belong to it. -/
def closing? (quote : Char) (t : Text) : Option (Text × Text) :=
  let quotes := (t.take 5).takeWhile (· == quote)
  if 3 ≤ quotes.length then some (quotes.drop 3, t.drop quotes.length) else none

/-- The number of characters that a backslash at the end of a line takes away; none elsewhere. -/
def continuation? (t : Text) : Option Nat :=
  match afterBreak? (t.dropWhile isSpace) with
  | some _ => some (t.takeWhile fun c => isSpace c || c == '\n' || c == '\r').length
  | none => none

/-- Reads what follows three double quotes. -/
def basicLines? (t : Text) : Option (Text × Text) :=
  match closing? '"' t with
  | some read => some read
  | none =>
    match t with
    | [] => none
    | c :: t =>
      if c = '\\' then
        match continuation? t with
        | some length => basicLines? (t.drop length)
        | none => match escape? t with
          | some (value, length) => (basicLines? (t.drop length)).map (prepend value)
          | none => none
      else if isVisible c ∨ (afterBreak? (c :: t)).isSome then (basicLines? t).map (prepend c)
      else none
termination_by t.length
decreasing_by all_goals simp; try omega

/-- Reads what follows three single quotes. -/
def literalLines? (t : Text) : Option (Text × Text) :=
  match closing? '\'' t with
  | some read => some read
  | none =>
    match t with
    | [] => none
    | c :: t =>
      if isVisible c ∨ (afterBreak? (c :: t)).isSome then (literalLines? t).map (prepend c)
      else none
termination_by t.length
decreasing_by all_goals simp

/-- A text without a line break at its beginning. -/
def dropBreak (t : Text) : Text := (afterBreak? t).getD t

/-- Reads a text in quotes of any kind. -/
def quoted? : Text → Option (Text × Text)
  | '"' :: '"' :: '"' :: t => basicLines? (dropBreak t)
  | '\'' :: '\'' :: '\'' :: t => literalLines? (dropBreak t)
  | '"' :: t => basic? t
  | '\'' :: t => literal? t
  | _ => none

/-- Reads a text in quotes on one line. -/
def quotedLine? : Text → Option (Text × Text)
  | '"' :: t => basic? t
  | '\'' :: t => literal? t
  | _ => none

end EventCatalog.Toml
