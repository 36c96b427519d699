/-!
# Tokens

A token is a kind, the text it was read from (its *lexeme*) and the line on which that text ends.
Kinds are grouped by what fixes their text: symbols and keywords are spelled one way only, names,
strings and numbers carry what they denote, and one kind marks the end of the text.
-/

namespace Lox

/-- Punctuation and operators. -/
inductive Symbol
  | leftParen | rightParen | leftBrace | rightBrace
  | comma | dot | minus | plus | semicolon | slash | star
  | bang | bangEqual | equal | equalEqual
  | greater | greaterEqual | less | lessEqual
  deriving DecidableEq, Repr

/-- The reserved words. -/
inductive Keyword
  | and | cls | else | false | fun | for | if | nil
  | or | print | return | super | this | true | var | while
  deriving DecidableEq, Repr

/-- What a token is. -/
inductive Token.Kind
  | symbol (symbol : Symbol)
  | keyword (keyword : Keyword)
  | identifier
  | string (content : String)
  | number (value : Float)
  | eof
  deriving DecidableEq

/-- A piece of a program with its meaning, its spelling, and the line of its last character. -/
structure Token where
  kind : Token.Kind
  lexeme : String
  line : Nat
  deriving DecidableEq

namespace Symbol

/-- The spelling of a symbol. -/
def text : Symbol → String
  | leftParen => "("
  | rightParen => ")"
  | leftBrace => "\x7b"
  | rightBrace => "\x7d"
  | comma => ","
  | dot => "."
  | minus => "-"
  | plus => "+"
  | semicolon => ";"
  | slash => "/"
  | star => "*"
  | bang => "!"
  | bangEqual => "!="
  | equal => "="
  | equalEqual => "=="
  | greater => ">"
  | greaterEqual => ">="
  | less => "<"
  | lessEqual => "<="

/-- The name of a symbol in listings. -/
def name : Symbol → String
  | leftParen => "LEFT_PAREN"
  | rightParen => "RIGHT_PAREN"
  | leftBrace => "LEFT_BRACE"
  | rightBrace => "RIGHT_BRACE"
  | comma => "COMMA"
  | dot => "DOT"
  | minus => "MINUS"
  | plus => "PLUS"
  | semicolon => "SEMICOLON"
  | slash => "SLASH"
  | star => "STAR"
  | bang => "BANG"
  | bangEqual => "BANG_EQUAL"
  | equal => "EQUAL"
  | equalEqual => "EQUAL_EQUAL"
  | greater => "GREATER"
  | greaterEqual => "GREATER_EQUAL"
  | less => "LESS"
  | lessEqual => "LESS_EQUAL"

/-- All symbols. -/
def all : List Symbol :=
  [leftParen, rightParen, leftBrace, rightBrace, comma, dot, minus, plus, semicolon, slash, star,
    bang, bangEqual, equal, equalEqual, greater, greaterEqual, less, lessEqual]

/-- The symbol of one character. -/
def ofChar? : Char → Option Symbol
  | '(' => some leftParen
  | ')' => some rightParen
  | '\x7b' => some leftBrace
  | '\x7d' => some rightBrace
  | ',' => some comma
  | '.' => some dot
  | '-' => some minus
  | '+' => some plus
  | ';' => some semicolon
  | '/' => some slash
  | '*' => some star
  | '!' => some bang
  | '=' => some equal
  | '>' => some greater
  | '<' => some less
  | _ => none

/-- The symbol spelled by this symbol and a following `=`. -/
def withEqual? : Symbol → Option Symbol
  | bang => some bangEqual
  | equal => some equalEqual
  | greater => some greaterEqual
  | less => some lessEqual
  | _ => none

end Symbol

namespace Keyword

/-- The spelling of a keyword. -/
def text : Keyword → String
  | .and => "and"
  | .cls => "class"
  | .else => "else"
  | .false => "false"
  | .fun => "fun"
  | .for => "for"
  | .if => "if"
  | .nil => "nil"
  | .or => "or"
  | .print => "print"
  | .return => "return"
  | .super => "super"
  | .this => "this"
  | .true => "true"
  | .var => "var"
  | .while => "while"

/-- The name of a keyword in listings. -/
def name : Keyword → String
  | .and => "AND"
  | .cls => "CLASS"
  | .else => "ELSE"
  | .false => "FALSE"
  | .fun => "FUN"
  | .for => "FOR"
  | .if => "IF"
  | .nil => "NIL"
  | .or => "OR"
  | .print => "PRINT"
  | .return => "RETURN"
  | .super => "SUPER"
  | .this => "THIS"
  | .true => "TRUE"
  | .var => "VAR"
  | .while => "WHILE"

/-- All keywords. -/
def all : List Keyword :=
  [.and, .cls, .else, .false, .fun, .for, .if, .nil, .or, .print, .return, .super, .this, .true,
    .var, .while]

/-- The keyword with this spelling. -/
def ofText? (text : String) : Option Keyword :=
  all.find? fun keyword => keyword.text == text

end Keyword

namespace Token

/-- The name of a kind in listings; what the token denotes is left out. -/
def Kind.name : Kind → String
  | .symbol s => s.name
  | .keyword k => k.name
  | .identifier => "IDENTIFIER"
  | .string _ => "STRING"
  | .number _ => "NUMBER"
  | .eof => "EOF"

/-- Whether two kinds differ at most in what the tokens denote. -/
def Kind.sameSort (a b : Kind) : Bool :=
  a.name == b.name

/-- Whether two tokens have the same sort of kind, the same lexeme and the same line. -/
def sameShape (a b : Token) : Bool :=
  a.kind.sameSort b.kind && a.lexeme == b.lexeme && a.line == b.line

/-- The kind of a word: its keyword, or an identifier if it is none. -/
def Kind.ofWord (word : String) : Kind :=
  match Keyword.ofText? word with
  | some reserved => .keyword reserved
  | none => .identifier

end Token

end Lox
