import Lox.Proofs.Rounding
import Lox.Proofs.Scanning.Grammar

/-!
# JSON texts

    json     → element
    element  → blank* value blank*
    value    → "null" | "true" | "false" | number | string
             | "[" blank* "]" | "[" elements "]" | "{" blank* "}" | "{" members "}"
    elements → element ( "," element )*
    members  → member ( "," member )*
    member   → blank* string blank* ":" element
    string   → '"' character* '"'
    number   → "-"? ( "0" | nonzero digit* ) ( "." digit+ )? power?
    power    → ( "e" | "E" ) ( "+" | "-" )? digit+

`Json.Derives` says which texts stand for which values, with one case for each way to write one.  A
character of a string stands for itself or is escaped (`Json.Escaped`): by a letter, by its code in
four hexadecimal digits of either case, or by the two halves of a surrogate pair.  Half a pair alone
stands for no character.
-/

namespace Lox

/-- A JSON value.  The members of an object are in the order of the text, and a number has a sign of
its own, as zero can be written with one. -/
inductive Json
  | null
  | bool (value : Bool)
  | number (negative : Bool) (magnitude : ℚ)
  | string (text : List Char)
  | array (items : List Json)
  | object (members : List (List Char × Json))

namespace Json

/-- The characters between the parts of a text. -/
def isBlank (c : Char) : Bool :=
  c == ' ' || c == '\t' || c == '\n' || c == '\r'

/-- A text of such characters only. -/
def Blank (text : List Char) : Prop :=
  ∀ c ∈ text, isBlank c = true

/-! ## Strings -/

/-- The letters behind a backslash, each with the character that it stands for. -/
def shortEscapes : List (Char × Char) :=
  [('"', '"'), ('\\', '\\'), ('/', '/'), ('b', '\x08'), ('f', '\x0c'), ('n', '\n'), ('r', '\r'),
    ('t', '\t')]

/-- What a hexadecimal digit stands for. -/
def hexValue? (c : Char) : Option Nat :=
  if '0' ≤ c ∧ c ≤ '9' then some (c.toNat - '0'.toNat)
  else if 'a' ≤ c ∧ c ≤ 'f' then some (c.toNat - 'a'.toNat + 10)
  else if 'A' ≤ c ∧ c ≤ 'F' then some (c.toNat - 'A'.toNat + 10)
  else none

/-- What hexadecimal digits stand for behind others. -/
def hexValue (before : Nat) : List Char → Option Nat
  | [] => some before
  | c :: cs => (hexValue? c).bind fun n => hexValue (16 * before + n) cs

/-- Four hexadecimal digits with what they stand for. -/
def FourHex (digits : List Char) (code : Nat) : Prop :=
  digits.length = 4 ∧ hexValue 0 digits = some code

/-- The code that two halves of a pair stand for. -/
def paired (high low : Nat) : Nat :=
  0x10000 + (high - 0xD800) * 0x400 + (low - 0xDC00)

/-- The texts of a character in a string. -/
inductive Escaped : Char → List Char → Prop
  | plain {c : Char} (hc : 0x20 ≤ c.toNat) (hquote : c ≠ '"') (hbackslash : c ≠ '\\') :
      Escaped c [c]
  | short {letter c : Char} (h : (letter, c) ∈ shortEscapes) : Escaped c ['\\', letter]
  | code {digits : List Char} {code : Nat} (h : FourHex digits code) (hvalid : code.isValidChar) :
      Escaped (.ofNat code) ('\\' :: 'u' :: digits)
  | pair {digits digits' : List Char} {high low : Nat} (hhigh : FourHex digits high)
      (hlow : FourHex digits' low) (hhigh' : 0xD800 ≤ high ∧ high < 0xDC00)
      (hlow' : 0xDC00 ≤ low ∧ low < 0xE000) :
      Escaped (.ofNat (paired high low)) ('\\' :: 'u' :: digits ++ '\\' :: 'u' :: digits')

/-- The texts between the quotes of a string. -/
inductive Content : List Char → List Char → Prop
  | nil : Content [] []
  | cons {c : Char} {cs front rest : List Char} (hc : Escaped c front) (hcs : Content cs rest) :
      Content (c :: cs) (front ++ rest)

/-! ## Numbers -/

/-- The digits before a point: no zero stands in front of others. -/
def Whole (digits : List Char) : Prop :=
  Digits digits ∧ (digits.head? = some '0' → digits = ['0'])

/-- The texts of the digits behind a point, which are none if there is no point. -/
inductive Fraction : List Char → List Char → Prop
  | none : Fraction [] []
  | some {digits : List Char} (h : Digits digits) : Fraction digits ('.' :: digits)

/-- The texts of a power of ten. -/
inductive Power : Int → List Char → Prop
  | none : Power 0 []
  | plain {e : Char} {digits : List Char} (he : e = 'e' ∨ e = 'E') (h : Digits digits) :
      Power (Nat.ofDigitChars 10 digits 0) (e :: digits)
  | up {e : Char} {digits : List Char} (he : e = 'e' ∨ e = 'E') (h : Digits digits) :
      Power (Nat.ofDigitChars 10 digits 0) (e :: '+' :: digits)
  | down {e : Char} {digits : List Char} (he : e = 'e' ∨ e = 'E') (h : Digits digits) :
      Power (-Nat.ofDigitChars 10 digits 0) (e :: '-' :: digits)

/-- The texts of a number without its sign. -/
inductive Magnitude : ℚ → List Char → Prop
  | mk {whole fraction text powerText : List Char} {power : Int} (hwhole : Whole whole)
      (hfraction : Fraction fraction text) (hpower : Power power powerText) :
      Magnitude (Number.decimal whole fraction * 10 ^ power) (whole ++ text ++ powerText)

/-! ## Values -/

/-- The parts of a JSON text, each with what it stands for. -/
inductive Part
  | value (value : Json)
  | element (value : Json)
  | elements (values : List Json)
  | member (key : List Char) (value : Json)
  | members (members : List (List Char × Json))

/-- **The texts of a part.** -/
inductive Derives : Part → List Char → Prop
  | null : Derives (.value .null) "null".toList
  | true : Derives (.value (.bool true)) "true".toList
  | false : Derives (.value (.bool false)) "false".toList
  | positive {q : ℚ} {text : List Char} (h : Magnitude q text) :
      Derives (.value (.number .false q)) text
  | negative {q : ℚ} {text : List Char} (h : Magnitude q text) :
      Derives (.value (.number .true q)) ('-' :: text)
  | string {content text : List Char} (h : Content content text) :
      Derives (.value (.string content)) ('"' :: text ++ ['"'])
  | noElements {gap : List Char} (h : Blank gap) :
      Derives (.value (.array [])) ('[' :: gap ++ [']'])
  | array {values : List Json} {text : List Char} (h : Derives (.elements values) text) :
      Derives (.value (.array values)) ('[' :: text ++ [']'])
  | noMembers {gap : List Char} (h : Blank gap) :
      Derives (.value (.object [])) ('\x7b' :: gap ++ ['\x7d'])
  | object {members : List (List Char × Json)} {text : List Char}
      (h : Derives (.members members) text) :
      Derives (.value (.object members)) ('\x7b' :: text ++ ['\x7d'])
  | element {v : Json} {before text behind : List Char} (hbefore : Blank before)
      (h : Derives (.value v) text) (hbehind : Blank behind) :
      Derives (.element v) (before ++ text ++ behind)
  | lastElement {v : Json} {text : List Char} (h : Derives (.element v) text) :
      Derives (.elements [v]) text
  | moreElements {v : Json} {values : List Json} {text more : List Char}
      (h : Derives (.element v) text) (hmore : Derives (.elements values) more) :
      Derives (.elements (v :: values)) (text ++ ',' :: more)
  | member {key : List Char} {v : Json} {before keyText between text : List Char}
      (hbefore : Blank before) (hkey : Content key keyText) (hbetween : Blank between)
      (h : Derives (.element v) text) :
      Derives (.member key v) (before ++ '"' :: keyText ++ '"' :: between ++ ':' :: text)
  | lastMember {key : List Char} {v : Json} {text : List Char} (h : Derives (.member key v) text) :
      Derives (.members [(key, v)]) text
  | moreMembers {key : List Char} {v : Json} {members : List (List Char × Json)}
      {text more : List Char} (h : Derives (.member key v) text)
      (hmore : Derives (.members members) more) :
      Derives (.members ((key, v) :: members)) (text ++ ',' :: more)

/-- **The texts of a value:** it may have blanks around it. -/
def Spells (v : Json) (text : List Char) : Prop :=
  Derives (.element v) text

end Json

end Lox
