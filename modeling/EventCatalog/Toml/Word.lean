import EventCatalog.Toml
import EventCatalog.Token.Literal

/-! # Bare words of TOML

A word that stands for a value without quotes is a truth value, a number, a date or a time;
`Toml.ofWord?` says which.  Digits may be set apart by single underscores. -/

namespace EventCatalog.Toml

/-! ### Numbers -/

/-- The digits of a run that underscores may divide. -/
def digits? (isDigit : Char → Bool) (t : Text) : Option Text :=
  let runs := Text.split '_' t
  if runs.all fun run => !run.isEmpty && run.all isDigit then some runs.flatten else none

/-- The digits of a decimal number, which begins with a zero only if it is one. -/
def wholeDigits? (t : Text) : Option Text :=
  (digits? Text.isDigit t).filter fun digits => digits.length == 1 || digits.head? != some '0'

/-- Whether a number has a minus, and what follows its sign. -/
def takeSign : Text → Bool × Text
  | '-' :: t => (true, t)
  | '+' :: t => (false, t)
  | t => (false, t)

/-- The number that digits of a base denote. -/
def valueOf (base : Nat) (digits : Text) : Nat :=
  digits.foldl (fun n c => base * n + Escape.hexValue c) 0

/-- The number of a word with the sign of its base in front. -/
def ofBase? : Text → Option Nat
  | '0' :: 'x' :: t => (digits? Escape.isHexDigit t).map (valueOf 16)
  | '0' :: 'o' :: t => (digits? (fun c => '0' ≤ c && c ≤ '7') t).map (valueOf 8)
  | '0' :: 'b' :: t => (digits? (fun c => c == '0' || c == '1') t).map (valueOf 2)
  | _ => none

/-- The number of a decimal word. -/
def ofDecimal? (t : Text) : Option Int :=
  let (negative, magnitude) := takeSign t
  (wholeDigits? magnitude).map fun digits =>
    if negative then -(Text.decimal digits : Int) else Text.decimal digits

/-- The numbers that can be read have at most 128 bits. -/
def inRange (n : Int) : Bool :=
  -(Nat.pow 2 127 : Nat) ≤ n && n < (Nat.pow 2 128 : Nat)

/-- The integer of a word. -/
def integer? (t : Text) : Option Int :=
  (match ofBase? t with
    | some n => some (n : Int)
    | none => ofDecimal? t).filter inRange

/-- Half a unit above the greatest double: what is not less than that has no double. -/
def doubleLimit : Nat := Nat.pow 2 1024 - Nat.pow 2 970

/-- Whether `m · 10 ^ k` is too great for a double. -/
def exceedsDouble (m : Nat) (k : Int) : Bool :=
  let width : Int := (Nat.repr m).length + k
  if m = 0 ∨ width < 309 then false
  else if 309 < width then true
  else if 0 ≤ k then doubleLimit ≤ m * Nat.pow 10 k.toNat
  else doubleLimit * Nat.pow 10 (-k).toNat ≤ m

/-- The exponent behind an `e`, which may have a sign and leading zeros. -/
def exponent? (t : Text) : Option Int :=
  let (negative, magnitude) := takeSign t
  (digits? Text.isDigit magnitude).map fun digits =>
    if negative then -(Text.decimal digits : Int) else Text.decimal digits

/-- The digits before and behind the point of a number; none behind it if there is no point. -/
def fraction? (t : Text) : Option (Text × Text) :=
  match Text.split '.' t with
  | [whole] => (wholeDigits? whole).map (·, [])
  | [whole, part] =>
    match wholeDigits? whole, digits? Text.isDigit part with
    | some whole, some part => some (whole, part)
    | _, _ => none
  | _ => none

/-- Whether a word is a number with a fraction or an exponent. -/
def isFloat (t : Text) : Bool :=
  let magnitude := (takeSign t).2
  if magnitude = "inf".toList ∨ magnitude = "nan".toList then true
  else
    let isMark (c : Char) : Bool := c == 'e' || c == 'E'
    let front := magnitude.takeWhile (!isMark ·)
    let exponent := match magnitude.dropWhile (!isMark ·) with
      | [] => if front.contains '.' then some 0 else none
      | _ :: t => exponent? t
    match fraction? front, exponent with
    | some (whole, part), some e => !exceedsDouble (Text.decimal (whole ++ part)) (e - part.length)
    | _, _ => false

/-! ### Dates and times -/

/-- The number that exactly so many digits denote. -/
def digitsOf? (count : Nat) (t : Text) : Option Nat :=
  if t.length = count ∧ t.all Text.isDigit then some (Text.decimal t) else none

/-- The days of a month. -/
def daysIn (year month : Nat) : Nat :=
  if month = 2 then
    if year % 4 = 0 ∧ (year % 100 ≠ 0 ∨ year % 400 = 0) then 29 else 28
  else if month = 4 ∨ month = 6 ∨ month = 9 ∨ month = 11 then 30 else 31

/-- Whether a word is a date: year, month and day. -/
def isDate (t : Text) : Bool :=
  match (Text.split '-' t) with
  | [year, month, day] =>
    match digitsOf? 4 year, digitsOf? 2 month, digitsOf? 2 day with
    | some year, some month, some day =>
      1 ≤ month && month ≤ 12 && 1 ≤ day && day ≤ daysIn year month
    | _, _, _ => false
  | _ => false

/-- Whether two digits denote a number up to a limit. -/
def isUpTo (limit : Nat) (t : Text) : Bool := (digitsOf? 2 t).any (· ≤ limit)

/-- Whether a word is a number of seconds: two digits, and perhaps a fraction. -/
def isSecond (t : Text) : Bool :=
  match Text.split '.' t with
  | [second] => isUpTo 60 second
  | [second, part] => isUpTo 60 second && !part.isEmpty && part.all Text.isDigit
  | _ => false

/-- Whether a word is a time: hour, minute and perhaps second. -/
def isTime (t : Text) : Bool :=
  match Text.split ':' t with
  | [hour, minute] => isUpTo 23 hour && isUpTo 59 minute
  | [hour, minute, second] => isUpTo 23 hour && isUpTo 59 minute && isSecond second
  | _ => false

/-- Whether a text is a distance from universal time: `Z`, or hours and minutes behind a sign. -/
def isOffset : Text → Bool
  | [c] => c == 'Z' || c == 'z'
  | c :: t =>
    (c == '+' || c == '-') && match Text.split ':' t with
      | [hour, minute] => isUpTo 23 hour && isUpTo 59 minute
      | _ => false
  | [] => false

/-- Whether a word is a time that may have an offset. -/
def isTimeOfZone (t : Text) : Bool :=
  let isPart (c : Char) : Bool := Text.isDigit c || c == ':' || c == '.'
  let offset := t.dropWhile isPart
  isTime (t.takeWhile isPart) && (offset.isEmpty || isOffset offset)

/-- Whether a word is a date, a time, or both with a `T` or a blank between them. -/
def isMoment (t : Text) : Bool :=
  isDate t || isTime t ||
    isDate (t.take 10) && (match t.drop 10 with
      | c :: time => (c == 'T' || c == 't' || c == ' ') && isTimeOfZone time
      | [] => false)

/-- The value of a word that stands without quotes. -/
def ofWord? (t : Text) : Option Toml :=
  if t = "true".toList then some (.flag true)
  else if t = "false".toList then some (.flag false)
  else match integer? t with
    | some n => some (.integer n)
    | none => if isFloat t then some .float else if isMoment t then some .moment else none

end EventCatalog.Toml
