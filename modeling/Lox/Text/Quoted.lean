/-!
# Quoted text

Two ways to write a text between double quotes.  `json` is a JSON string: only the quote, the
backslash and the characters below the blank are escaped.  `debug` is the form used in listings of
names and values: control characters are escaped by code point, and all else stands for itself.
-/

namespace Lox.Quoted

/-- Four lower-case hexadecimal digits. -/
def fourHex (n : Nat) : List Char :=
  [Nat.digitChar (n / 4096 % 16), Nat.digitChar (n / 256 % 16), Nat.digitChar (n / 16 % 16),
    Nat.digitChar (n % 16)]

/-- A character inside a JSON string. -/
def jsonChar (c : Char) : List Char :=
  if c = '"' then ['\\', '"']
  else if c = '\\' then ['\\', '\\']
  else if c = '\x08' then ['\\', 'b']
  else if c = '\x0c' then ['\\', 'f']
  else if c = '\n' then ['\\', 'n']
  else if c = '\r' then ['\\', 'r']
  else if c = '\t' then ['\\', 't']
  else if c.toNat < 0x20 then '\\' :: 'u' :: fourHex c.toNat
  else [c]

/-- A JSON string. -/
def json (text : List Char) : List Char :=
  '"' :: text.flatMap jsonChar ++ ['"']

/-- A character inside a debug listing. -/
def debugChar (c : Char) : List Char :=
  if c = '"' then ['\\', '"']
  else if c = '\\' then ['\\', '\\']
  else if c = '\n' then ['\\', 'n']
  else if c = '\r' then ['\\', 'r']
  else if c = '\t' then ['\\', 't']
  else if c.toNat = 0 then ['\\', '0']
  else if c.toNat < 0x20 ∨ c.toNat = 0x7F then
    ['\\', 'u', '\x7b'] ++ Nat.toDigits 16 c.toNat ++ ['\x7d']
  else [c]

/-- A quoted text in a debug listing. -/
def debug (text : List Char) : List Char :=
  '"' :: text.flatMap debugChar ++ ['"']

end Lox.Quoted
