import Lox.Text.Utf8

/-!
# Diagnostics

Everything that can go wrong is one `Diagnostic`.  Faults that are found before a program runs name
a line (and a place on it); a batch of them is one diagnostic too.  `text` is what the user reads,
`exitCode` what the process answers.
-/

namespace Lox

/-- What went wrong.

* `lex`, `parse` and `resolve` are found in a program's text, its tree and its names; an empty
  lexeme stands for the end of the text.
* `batch` holds all such faults of one program, which then is not run.
* `runtime` stops a running program, and `internal` is a fault of the machine itself.
* `io` is a failed write, and `utf8` a byte string that is no text. -/
inductive Diagnostic
  | lex (line : Nat) (message : String)
  | parse (line : Nat) (lexeme message : String)
  | resolve (line : Nat) (lexeme message : String)
  | batch (faults : List Diagnostic)
  | runtime (line : Nat) (message : String)
  | internal (message : String)
  | io (message : String)
  | utf8 (fault : Utf8.Fault)

namespace Diagnostic

/-- Where on its line a fault is. -/
def place (lexeme : String) : String :=
  if lexeme = "" then " at end" else " at '" ++ lexeme ++ "'"

/-- A fault of a program's text, as one line. -/
def located (line : Nat) (place message : String) : String :=
  s!"[line {line}] Error{place}: {message}"

mutual

/-- What the user reads. -/
def text : Diagnostic → String
  | lex line message => located line "" message
  | parse line lexeme message => located line (place lexeme) message
  | resolve line lexeme message => located line (place lexeme) message
  | batch faults => "\n".intercalate (texts faults)
  | runtime line message => s!"{message}\n[line {line}]"
  | internal message => s!"Internal error: {message}"
  | io message => message
  | utf8 fault => fault.message

/-- What the user reads of each. -/
def texts : List Diagnostic → List String
  | [] => []
  | fault :: others => text fault :: texts others

end

/-- Whether the fault keeps a program from running at all. -/
def isStatic : Diagnostic → Bool
  | lex .. => true
  | parse .. => true
  | resolve .. => true
  | batch _ => true
  | runtime .. => false
  | internal _ => false
  | io _ => false
  | utf8 _ => false

/-- The exit code of a process that ends with this fault: 65 for unusable input, 70 for a failure
on the way. -/
def exitCode (d : Diagnostic) : Nat :=
  if d.isStatic then 65 else 70

end Diagnostic

end Lox
