import EventCatalog.Diagnostic

/-! # String literals

`Literal.scan` reads what follows an opening quote.  It counts characters instead of cutting the
text, so the caller says what is taken and what is left:

* `closed value length`: the literal denotes `value` and ends with the `length`-th character;
* `unterminated length`: the line or the text ends after `length` characters;
* `broken code before body`: after `before` characters there is an escape of which the first
  `body` characters are in order and the next one is not. -/

namespace EventCatalog

/-- What follows a backslash in a string literal. -/
inductive Escape
  /-- The character that the next `length` characters stand for. -/
  | char (c : Char) (length : Nat)
  /-- An offence after `length` characters. -/
  | fault (code : Diagnostic.Code) (length : Nat)
deriving DecidableEq, Repr

namespace Escape

/-- A hexadecimal digit. -/
def isHexDigit (c : Char) : Bool :=
  Text.isDigit c || ('a' ≤ c && c ≤ 'f') || ('A' ≤ c && c ≤ 'F')

/-- The value of a hexadecimal digit. -/
def hexValue (c : Char) : Nat :=
  if Text.isDigit c then c.toNat - '0'.toNat
  else if 'a' ≤ c then c.toNat - 'a'.toNat + 10
  else c.toNat - 'A'.toNat + 10

/-- The character whose number the hexadecimal digits write, if it is a Unicode scalar value. -/
def scalar? (digits : Text) : Option Char :=
  let n := digits.foldl (fun n c => 16 * n + hexValue c) 0
  if n.isValidChar then some (Char.ofNat n) else none

/-- The character that a one-letter escape stands for. -/
def simple? : Char → Option Char
  | 'n' => some '\n'
  | 'r' => some '\r'
  | 't' => some '\t'
  | '0' => some '\x00'
  | '\\' => some '\\'
  | '\'' => some '\''
  | '"' => some '"'
  | _ => none

/-- Reads the braces and one to six digits of a Unicode escape. -/
def scanUnicode : Text → Escape
  | '{' :: t =>
    let digits := (t.take 6).takeWhile isHexDigit
    if digits.isEmpty then .fault .emptyUnicodeEscape 2
    else if (t.drop digits.length).head? ≠ some '}' then
      .fault .invalidUnicodeEscape (2 + digits.length)
    else match scalar? digits with
      | some c => .char c (3 + digits.length)
      | none => .fault .invalidCodePoint 1
  | _ => .fault .invalidUnicodeEscape 1

/-- Reads what follows a backslash. -/
def scan : Text → Escape
  | [] => .fault .invalidEscape 0
  | c :: t =>
    if c = 'u' then scanUnicode t
    else match simple? c with
      | some value => .char value 1
      | none => .fault .invalidEscape 0

end Escape

/-- What follows an opening quote. -/
inductive Literal
  | closed (value : Text) (length : Nat)
  | unterminated (length : Nat)
  | broken (code : Diagnostic.Code) (before body : Nat)
deriving DecidableEq, Repr

namespace Literal

/-- The same literal with one more character, written with `length` characters, in front. -/
def after (c : Char) (length : Nat) : Literal → Literal
  | closed value n => closed (c :: value) (length + n)
  | unterminated n => unterminated (length + n)
  | broken code before body => broken code (length + before) body

/-- Reads what follows an opening quote. -/
def scan : Text → Literal
  | [] => .unterminated 0
  | c :: t =>
    if c = '"' then .closed [] 1
    else if c = '\n' ∨ c = '\r' then .unterminated 0
    else if c = '\\' then
      match Escape.scan t with
      | .char value length => (scan (t.drop length)).after value (1 + length)
      | .fault code length => .broken code 0 (1 + length)
    else (scan t).after c 1
termination_by t => t.length
decreasing_by all_goals simp; try omega

end Literal

end EventCatalog
