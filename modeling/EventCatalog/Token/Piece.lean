import EventCatalog.Token
import EventCatalog.Token.Literal

/-! # The pieces of a text

Lexing cuts a text into pieces, each a token or an offence with the characters that are skipped
for it, and loses nothing: the pieces put together are the text (`Piece.text_ofText`).  All other
views are read off the pieces:

* `Piece.tokens` places the tokens, `Piece.diagnostics` words the offences;
* `Piece.lexemes` keeps the tokens that carry meaning, each with the fact whether a line break
  stands between it and the one before it.  This is all that the parser sees. -/

namespace EventCatalog

/-- What stands at the front of a text that is not empty. -/
inductive Front
  /-- A token that takes the first character and `more` others. -/
  | token (token : Token) (more : Nat)
  /-- An offence that begins after `lead` characters and covers `body` characters. -/
  | fault (code : Diagnostic.Code) (lead body : Nat)
deriving DecidableEq, Repr

namespace Front

/-- Characters of identifiers. -/
def isWordChar (c : Char) : Bool := Text.isAlphanumeric c || c == '_'

/-- Characters of version literals. -/
def isVersionChar (c : Char) : Bool := Text.isAlphanumeric c || c == '.' || c == '+'

/-- Characters of version selectors. -/
def isSelectorChar (c : Char) : Bool :=
  Text.isAlphanumeric c || ['.', '+', '-', '^', '~', '<', '>', '=', '*'].contains c

/-- The length of the longest run of `isPart` characters in which single hyphens may stand before
a letter or digit, so that `orders-topic` is one word and `a->b` is not. -/
def hyphenatedLength (isPart : Char → Bool) : Text → Nat
  | [] => 0
  | c :: t =>
    if isPart c || (c == '-' && t.head?.any Text.isAlphanumeric) then
      hyphenatedLength isPart t + 1
    else 0

/-- The number of characters of a block comment before its end, if it ends. -/
def commentLength? : Text → Option Nat
  | '*' :: '/' :: _ => some 0
  | _ :: t => (commentLength? t).map (· + 1)
  | [] => none

/-- Whether text after an at sign is a version selector: it starts with a digit, with an operator,
or with `v` and a digit, or it is the word `latest`. -/
def isSelector (t : Text) : Bool :=
  match t with
  | [] => false
  | c :: rest =>
    Text.isDigit c || ['^', '~', '<', '>', '=', '*'].contains c ||
      (if c = 'v' ∨ c = 'V' then rest.head?.any Text.isDigit
      else Text.lowerAscii t == "latest".toList)

/-- The length of a version after its `v`, if nothing but digits and dots follows. -/
def markedVersionLength? (t : Text) : Option Nat :=
  let length := (t.takeWhile fun c => Text.isDigit c || c == '.').length
  if t.head?.any Text.isDigit && !(t.drop length).head?.any (fun c => isWordChar c || c == '-')
  then some length else none

/-- The token of a punctuation mark of one character. -/
def mark? : Char → Option Token
  | '@' => some .atSign
  | '{' => some .leftBrace
  | '}' => some .rightBrace
  | '[' => some .leftBracket
  | ']' => some .rightBracket
  | '(' => some .leftParen
  | ')' => some .rightParen
  | ',' => some .comma
  | ':' => some .colon
  | _ => none

/-- A comment, if one starts here. -/
def comment? : Char → Text → Option Front
  | '/', '/' :: t =>
    let body := t.takeWhile (· != '\n')
    some (.token (.lineComment (String.ofList body)) (1 + body.length))
  | '/', '*' :: t =>
    match commentLength? t with
    | some length => some (.token (.blockComment (String.ofList (t.take length))) (3 + length))
    | none => some (.token (.blockComment (String.ofList t)) (1 + t.length))
  | _, _ => none

/-- A string literal, or the offence in it, if one starts here. -/
def literal? (c : Char) (t : Text) : Option Front :=
  if c = '"' then
    match Literal.scan t with
    | .closed value length => some (.token (.stringLiteral (String.ofList value)) length)
    | .unterminated length => some (.fault .unterminatedString 0 (1 + length))
    | .broken code before body => some (.fault code (1 + before) body)
  else none

/-- A version selector, if one starts here. -/
def selector? (c : Char) (t : Text) : Option Front :=
  let body := t.takeWhile isSelectorChar
  if c = '@' ∧ isSelector body then
    some (.token (.versionSelector (String.ofList body)) body.length)
  else none

/-- A version literal, if one starts here. -/
def version? (c : Char) (t : Text) : Option Front :=
  if Text.isDigit c then
    let length := hyphenatedLength isVersionChar t
    some (.token (.version (String.ofList (c :: t.take length))) length)
  else if c = 'v' ∨ c = 'V' then
    (markedVersionLength? t).map fun length =>
      .token (.version (String.ofList (c :: t.take length))) length
  else none

/-- An identifier, if one starts here. -/
def identifier? (c : Char) (t : Text) : Option Front :=
  if Text.isLetter c ∨ c = '_' then
    let length := hyphenatedLength isWordChar t
    some (.token (.identifier (String.ofList (c :: t.take length))) length)
  else none

/-- A punctuation mark, if one starts here. -/
def punctuation? (c : Char) (t : Text) : Option Front :=
  if c = '-' ∧ t.head? = some '>' then some (.token .arrow 1)
  else (mark? c).map (.token · 0)

/-- A line break or a run of other blanks, if one starts here. -/
def blank? (c : Char) (t : Text) : Option Front :=
  if c = '\n' then some (.token .newline 0)
  else if Text.isBlank c then
    let run := t.takeWhile fun c => Text.isBlank c && c != '\n'
    some (.token .whitespace run.length)
  else none

/-- What stands at the front of `c :: t`; a character that starts no token is an offence. -/
def scan (c : Char) (t : Text) : Front :=
  (comment? c t <|> literal? c t <|> selector? c t <|> version? c t <|> identifier? c t <|>
    punctuation? c t <|> blank? c t).getD (.fault .unexpectedCharacter 0 0)

end Front

/-- A part of a text: a token, or an offence and what is skipped for it. -/
inductive Piece
  | token (token : Token) (text : Text)
  | fault (code : Diagnostic.Code) (lead body : Nat) (text : Text)
deriving DecidableEq, Repr

namespace Piece

/-- The characters of a piece. -/
def text : Piece → Text
  | token _ t => t
  | fault _ _ _ t => t

/-- Cuts a text into pieces.  After an offence the next character is skipped as well, if there is
one, and lexing goes on behind it. -/
def ofText : Text → List Piece
  | [] => []
  | c :: t =>
    match Front.scan c t with
    | .token tok more => token tok (c :: t.take more) :: ofText (t.drop more)
    | .fault code lead body =>
      fault code lead body (c :: t.take (lead + body)) :: ofText (t.drop (lead + body))
termination_by t => t.length
decreasing_by all_goals simp; try omega

/-- No character is lost or added. -/
theorem text_ofText (t : Text) : (ofText t).flatMap text = t := by
  fun_induction ofText t with
  | case1 => rfl
  | case2 c t tok more _ ih => simp [text, ih]
  | case3 c t code lead body _ ih => simp [text, ih]

/-- The tokens of pieces that start at an offset. -/
def tokens (start : Nat) : List Piece → List (Located Token)
  | [] => []
  | token tok t :: pieces =>
    ⟨tok, ⟨start, start + t.size⟩⟩ :: tokens (start + t.size) pieces
  | fault _ _ _ t :: pieces => tokens (start + t.size) pieces

/-- The advice on a lexical offence. -/
def help? : Diagnostic.Code → Option String
  | .unterminatedString => some "add closing `\"` before the end of the line"
  | .invalidEscape => some
      "valid escapes: `\\n`, `\\r`, `\\t`, `\\\\`, `\\'`, `\\\"`, `\\0`, `\\u\x7b\x7d`"
  | .invalidUnicodeEscape => some "use format `\\u\x7bXXXX\x7d` with 1-6 hex digits"
  | .invalidCodePoint => some "valid range: `0x0000`-`0xD7FF` or `0xE000`-`0x10FFFF`"
  | .emptyUnicodeEscape => some "provide 1-6 hex digits: `\\u\x7b1F602\x7d`"
  | _ => none

/-- The diagnostic of an offence in a piece that starts at an offset; a character that starts no
token is labelled by one byte. -/
def diagnostic (start : Nat) (code : Diagnostic.Code) (lead body : Nat) (t : Text) : Diagnostic :=
  let first := start + Text.size (t.take lead)
  let length := if body = 0 then 1 else Text.size ((t.drop lead).take body)
  { severity := .error, code := some code, message := code.description,
    labels := [⟨⟨first, first + length⟩, code.description, true, none⟩], help := help? code }

/-- The diagnostics of pieces that start at an offset. -/
def diagnostics (start : Nat) : List Piece → List Diagnostic
  | [] => []
  | token _ t :: pieces => diagnostics (start + t.size) pieces
  | fault code lead body t :: pieces =>
    diagnostic start code lead body t :: diagnostics (start + t.size) pieces

end Piece

/-- A token that carries meaning, with its place and whether it is the first such token of its
line; the first token of a text is. -/
structure Lexeme where
  token : Token
  span : Span
  startsLine : Bool
deriving DecidableEq, Repr

namespace Piece

/-- The lexemes of pieces that start at an offset; `broken` tells whether a line break has been
seen since the last lexeme, or none has come yet. -/
def lexemes (start : Nat) (broken : Bool) : List Piece → List Lexeme
  | [] => []
  | token tok t :: pieces =>
    if tok.isTrivia then lexemes (start + t.size) (broken || t.hasBreak) pieces
    else ⟨tok, ⟨start, start + t.size⟩, broken⟩ :: lexemes (start + t.size) false pieces
  | fault _ _ _ t :: pieces => lexemes (start + t.size) (broken || t.hasBreak) pieces

end Piece

/-- The tokens of a text and the diagnostics of its lexical offences. -/
def tokenize (source : String) : List (Located Token) × List Diagnostic :=
  let pieces := Piece.ofText source.toList
  (Piece.tokens 0 pieces, Piece.diagnostics 0 pieces)

end EventCatalog
