/-! # Tokens

The words of the language.  Blanks, line breaks and comments are tokens too, so the tokens of a
text without lexical errors cover it; `Token.isTrivia` tells them from the others. -/

namespace EventCatalog

/-- A word of the language. -/
inductive Token
  | identifier (name : String)
  | stringLiteral (value : String)
  | version (text : String)
  | versionSelector (text : String)
  | atSign
  | arrow
  | leftBrace
  | rightBrace
  | leftBracket
  | rightBracket
  | leftParen
  | rightParen
  | comma
  | colon
  | lineComment (text : String)
  | blockComment (text : String)
  | whitespace
  | newline
deriving DecidableEq, Repr

namespace Token

/-- Whether the token carries no meaning for the parser. -/
def isTrivia : Token → Bool
  | lineComment _ | blockComment _ | whitespace | newline => true
  | _ => false

/-- The word of an identifier. -/
def identifier? : Token → Option String
  | identifier name => some name
  | _ => none

/-- The text that a token carries. -/
def payload? : Token → Option String
  | identifier text | stringLiteral text | version text | versionSelector text
  | lineComment text | blockComment text => some text
  | _ => none

/-- The name of a token in messages. -/
def describe : Token → String
  | identifier name => "`" ++ name ++ "`"
  | stringLiteral _ => "string literal"
  | version text => "version `" ++ text ++ "`"
  | versionSelector text => "`@" ++ text ++ "`"
  | atSign => "`@`"
  | arrow => "`->`"
  | leftBrace => "`\x7b`"
  | rightBrace => "`\x7d`"
  | leftBracket => "`[`"
  | rightBracket => "`]`"
  | leftParen => "`(`"
  | rightParen => "`)`"
  | comma => "`,`"
  | colon => "`:`"
  | lineComment _ | blockComment _ => "comment"
  | whitespace => "whitespace"
  | newline => "newline"

end Token

end EventCatalog
