import Lox.Token.Basic
import Lox.Number.Text
import Lox.Text.Quoted

/-!
# Tokens as text

A token listing has one line per token, either plain (`Token.display`: kind, lexeme, what it
denotes) or a JSON object (`Token.json`).
-/

namespace Lox.Token

/-- What a token denotes, in a plain listing. -/
def Kind.literalText : Kind → String
  | .string content => content
  | .number value => String.ofList (Number.inToken value)
  | _ => "null"

/-- The plain listing of a token. -/
def display (token : Token) : String :=
  token.kind.name ++ " " ++ token.lexeme ++ " " ++ token.kind.literalText

/-- The member that holds what a token denotes; only strings and numbers have one. -/
def Kind.jsonLiteral : Kind → List Char
  | .string content => ",\"literal\":".toList ++ Quoted.json content.toList
  | .number value => ",\"literal\":".toList ++ Number.inJson value
  | _ => []

/-- The kind as a JSON object. -/
def Kind.json (kind : Kind) : List Char :=
  "\x7b\"type\":".toList ++ Quoted.json kind.name.toList ++ kind.jsonLiteral ++ ['\x7d']

/-- The token as a JSON object. -/
def jsonChars (token : Token) : List Char :=
  "\x7b\"token\":".toList ++ token.kind.json ++
    ",\"lexeme\":".toList ++ Quoted.json token.lexeme.toList ++
    ",\"line\":".toList ++ Nat.toDigits 10 token.line ++ ['\x7d']

/-- The JSON listing of a token. -/
def json (token : Token) : String :=
  String.ofList token.jsonChars

end Lox.Token
