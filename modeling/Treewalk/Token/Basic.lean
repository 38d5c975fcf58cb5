/-
Tokens: a kind, the bytes that spell it, and where they stand.
-/
import Treewalk.Source

namespace Treewalk

/-- kinds of tokens; `unlisted` holds codes that stand for no kind of the language -/
inductive Kind where
  | function | print | loop
  | identifier | number | boolean
  | semicolon | comma
  | openParen | closeParen | openBrace | closeBrace | openBracket | closeBracket
  | colon | question
  | walrus | assign | endOfInput
  | plus | minus | star | slash | percent | power
  | and | or | not
  | greater | greaterEqual | less | lessEqual | equal | notEqual
  | unknown
  | unlisted (code : Int)
deriving DecidableEq

/-- a located lexeme -/
structure Token where
  kind : Kind
  text : Bytes
  location : Location
deriving DecidableEq

/-- the token of nodes that no source spells -/
def Token.unplaced : Token := ⟨.unknown, [], .nowhere⟩

instance : Inhabited Token := ⟨.unplaced⟩

/-- name of a kind in dumps -/
def Kind.name : Kind → String
  | .function => "FUN"
  | .print => "PRINT"
  | .loop => "WHILE"
  | .identifier => "IDENTIFIER"
  | .number => "NUMBER"
  | .boolean => "BOOLEAN"
  | .semicolon => "SEMICOLON"
  | .comma => "COMMA"
  | .openParen => "OPENPARENTHESIS"
  | .closeParen => "CLOSEPARENTHESIS"
  | .openBrace => "OPENBRACE"
  | .closeBrace => "CLOSEBRACE"
  | .openBracket => "OPENBRACKET"
  | .closeBracket => "CLOSEBRACKET"
  | .colon => "COLON"
  | .question => "QUESTIONMARK"
  | .walrus => "WALRUS"
  | .assign => "ASSIGN"
  | .endOfInput => "EOF_TOKEN"
  | .plus => "PLUS"
  | .minus => "MINUS"
  | .star => "STAR"
  | .slash => "SLASH"
  | .percent => "PERCENT"
  | .power => "POWER"
  | .and => "AND"
  | .or => "OR"
  | .not => "NOT"
  | .greater => "GREATERTHAN"
  | .greaterEqual => "GREATEROREQUALTHAN"
  | .less => "LESSTHAN"
  | .lessEqual => "LESSOREQUALTHAN"
  | .equal => "EQUALITY"
  | .notEqual => "NOTEQUAL"
  | .unknown => "UNKNOWN"
  | .unlisted _ => "TOKEN(?)"

end Treewalk
