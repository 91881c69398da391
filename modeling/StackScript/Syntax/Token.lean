import StackScript.Text.Bytes

/-! # Tokens

The kinds of token in their fixed order (the order gives each kind its number), their upper-case
names, the sixteen keywords, and the token record: kind, text and position. The text of an
error token is its message rather than a slice of the source.
-/

namespace StackScript

/-- The kinds of token, in the order that numbers them. -/
inductive TokenKind where
  | lparen | rparen | lbrace | rbrace | comma | dot | minus | plus | semicolon | slash | star
  | colon
  | bang | notEqual | assign | equal | define | greater | greaterEqual | less | lessEqual
  | ident | string | number
  | andKw | classKw | elseKw | falseKw | forKw | funcKw | ifKw | infoKw | nilKw | orKw
  | returnKw | superKw | thisKw | trueKw | varKw | whileKw
  | error | eof
deriving DecidableEq, Repr, Inhabited

namespace TokenKind

/-- Every kind, in numbering order. -/
def all : List TokenKind :=
  [lparen, rparen, lbrace, rbrace, comma, dot, minus, plus, semicolon, slash, star, colon,
   bang, notEqual, assign, equal, define, greater, greaterEqual, less, lessEqual,
   ident, string, number,
   andKw, classKw, elseKw, falseKw, forKw, funcKw, ifKw, infoKw, nilKw, orKw,
   returnKw, superKw, thisKw, trueKw, varKw, whileKw,
   error, eof]

/-- The upper-case name of a kind. -/
def name : TokenKind → String
  | lparen => "LPAREN" | rparen => "RPAREN" | lbrace => "LBRACE" | rbrace => "RBRACE"
  | comma => "COMMA" | dot => "DOT" | minus => "MINUS" | plus => "PLUS"
  | semicolon => "SEMICOLON" | slash => "SLASH" | star => "STAR" | colon => "COLON"
  | bang => "BANG" | notEqual => "NOTEQUAL" | assign => "ASSIGN" | equal => "EQUAL"
  | define => "DEFINE" | greater => "GREATER" | greaterEqual => "GREATEREQUAL"
  | less => "LESS" | lessEqual => "LESSEQUAL"
  | ident => "IDENT" | string => "STRING" | number => "NUMBER"
  | andKw => "AND" | classKw => "CLASS" | elseKw => "ELSE" | falseKw => "FALSE"
  | forKw => "FOR" | funcKw => "FUNC" | ifKw => "IF" | infoKw => "INFO" | nilKw => "NIL"
  | orKw => "OR" | returnKw => "RETURN" | superKw => "SUPER" | thisKw => "THIS"
  | trueKw => "TRUE" | varKw => "VAR" | whileKw => "WHILE"
  | error => "ERROR" | eof => "EOF"

/-- The name of the kind numbered `n`; numbers past the last kind are `UNKNOWN`. -/
def nameOfIndex (n : Nat) : String :=
  match all[n]? with
  | some k => k.name
  | none => "UNKNOWN"

/-- The number of kinds. -/
def count : Nat := all.length

/-- The keywords with their kinds, in byte order of the keyword. -/
def keywords : List (String × TokenKind) :=
  [("and", andKw), ("class", classKw), ("else", elseKw), ("false", falseKw), ("for", forKw),
   ("func", funcKw), ("if", ifKw), ("info", infoKw), ("nil", nilKw), ("or", orKw),
   ("return", returnKw), ("super", superKw), ("this", thisKw), ("true", trueKw),
   ("var", varKw), ("while", whileKw)]

/-- The kind of a word: its keyword kind, or `ident`. -/
def ofWord (w : Bytes) : TokenKind :=
  match keywords.find? (fun p => Bytes.ofString p.1 == w) with
  | some p => p.2
  | none => ident

end TokenKind

/-- Where a token starts: byte offset, line from 1, byte column from 1. -/
structure Position where
  offset : Nat
  line : Nat
  column : Nat
deriving DecidableEq, Repr, Inhabited

/-- A token: its kind, its text (the message for an error token) and where it starts. -/
structure Token where
  kind : TokenKind
  text : Bytes
  pos : Position
deriving DecidableEq, Repr, Inhabited

end StackScript
