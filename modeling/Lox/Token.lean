import Lox.Number

/-!
# Tokens

The alphabet of the parser.  A token has a kind, the characters it was read
from, the constant it denotes if it is a number or a string, and the line on
which its last character stands.
-/

namespace Lox

inductive Literal where
  | nil
  | bool (value : Bool)
  | number (value : Number)
  | text (value : String)
deriving DecidableEq, Repr

inductive TokenKind where
  | leftParen | rightParen | leftBrace | rightBrace
  | comma | dot | minus | plus | semicolon | slash | star | question | colon
  | bang | bangEqual | equal | equalEqual
  | greater | greaterEqual | less | lessEqual
  | identifier | string | number
  | kwAnd | kwClass | kwElse | kwFalse | kwFun | kwFor | kwIf | kwNil | kwOr
  | kwPrint | kwReturn | kwSuper | kwThis | kwTrue | kwVar | kwWhile
  | eof
deriving DecidableEq, Repr

namespace TokenKind

def names : List (TokenKind × String) :=
  [(leftParen, "LEFT_PAREN"), (rightParen, "RIGHT_PAREN"),
   (leftBrace, "LEFT_BRACE"), (rightBrace, "RIGHT_BRACE"),
   (comma, "COMMA"), (dot, "DOT"), (minus, "MINUS"), (plus, "PLUS"),
   (semicolon, "SEMICOLON"), (slash, "SLASH"), (star, "STAR"),
   (question, "QUESTION"), (colon, "COLON"),
   (bang, "BANG"), (bangEqual, "BANG_EQUAL"),
   (equal, "EQUAL"), (equalEqual, "EQUAL_EQUAL"),
   (greater, "GREATER"), (greaterEqual, "GREATER_EQUAL"),
   (less, "LESS"), (lessEqual, "LESS_EQUAL"),
   (identifier, "IDENTIFIER"), (string, "STRING"), (number, "NUMBER"),
   (kwAnd, "AND"), (kwClass, "CLASS"), (kwElse, "ELSE"), (kwFalse, "FALSE"),
   (kwFun, "FUN"), (kwFor, "FOR"), (kwIf, "IF"), (kwNil, "NIL"), (kwOr, "OR"),
   (kwPrint, "PRINT"), (kwReturn, "RETURN"), (kwSuper, "SUPER"),
   (kwThis, "THIS"), (kwTrue, "TRUE"), (kwVar, "VAR"), (kwWhile, "WHILE"),
   (eof, "EOF")]

def name (kind : TokenKind) : String := (names.lookup kind).getD ""

def ofName? (name : String) : Option TokenKind :=
  (names.find? (fun entry => entry.2 == name)).map Prod.fst

def keywords : List (String × TokenKind) :=
  [("and", kwAnd), ("class", kwClass), ("else", kwElse), ("false", kwFalse),
   ("for", kwFor), ("fun", kwFun), ("if", kwIf), ("nil", kwNil), ("or", kwOr),
   ("print", kwPrint), ("return", kwReturn), ("super", kwSuper),
   ("this", kwThis), ("true", kwTrue), ("var", kwVar), ("while", kwWhile)]

def ofWord (word : String) : TokenKind := (keywords.lookup word).getD identifier

end TokenKind

structure Token where
  kind : TokenKind
  lexeme : String
  literal : Literal
  line : Nat
deriving DecidableEq, Repr

namespace Token

def endOfInput (line : Nat) : Token := ⟨.eof, "", .nil, line⟩

def countDistinct (tokens : List Token) : Nat := tokens.eraseDups.length

end Token
end Lox
