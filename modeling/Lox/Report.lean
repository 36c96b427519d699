import Lox.Text.Utf8

/-!
# Reports

What a process has left behind so far: the bytes on its standard output and the text on its standard
error; and its exit code, if it has come to its end.
-/

namespace Lox

/-- What a process has left behind.  There is no status as long as the process runs. -/
@[ext]
structure Report where
  stdout : ByteArray
  stderr : String
  status : Option Nat

namespace Report

/-- Success, with some text on standard output. -/
def success (text : String) : Report := ⟨text.toUTF8, "", some 0⟩

/-- Failure before any output, with a line on standard error. -/
def failure (message : String) : Report := ⟨.empty, "Error: " ++ message ++ "\n", some 1⟩

/-- The exit code of a process that has come to its end; of any other process 0. -/
def exitCode (report : Report) : Nat := report.status.getD 0

/-- A report of what comes later, with earlier output in front. -/
def after (later : Report) (stdout : ByteArray) (stderr : String) : Report :=
  { later with stdout := stdout ++ later.stdout, stderr := stderr ++ later.stderr }

end Report

end Lox
