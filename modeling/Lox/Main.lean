import Lox.CommandLine
import Std.Time.DateTime.Timestamp

/-!
# The program

The only module that reads and writes.  It decides nothing: arguments, files and lines go to
`CommandLine` and `Prompt`, and what these answer is written out.  The clock is read when a text
begins to run, and this text is told the same time at each of its readings.
-/

namespace Lox.Process

/-- Seconds since the beginning of 1970, to the millisecond. -/
def readClock : IO Float := do
  let now ← Std.Time.Timestamp.now
  return Float.ofInt now.toMillisecondsSinceUnixEpoch.val / 1000

/-- Reads a file as far as possible. -/
def readFile (file : String) : IO CommandLine.FileRead := do
  try
    return .content (← IO.FS.readBinFile file).toList
  catch
    | .noFileOrDirectory .. => return .missing
    | .inappropriateType .. => return .directory
    | other => return .notOpened (toString other)

/-- Writes out a report. -/
def finish (report : Report) : IO UInt32 := do
  (← IO.getStdout).write report.stdout
  (← IO.getStdout).flush
  (← IO.getStderr).putStr report.stderr
  return UInt32.ofNat report.exitCode

/-- One line with its newline, as bytes; nothing at the end of the input. -/
partial def readLine (input : IO.FS.Stream) (line : ByteArray) : IO ByteArray := do
  let byte ← input.read 1
  if byte.isEmpty then return line
  let line := line ++ byte
  if byte.toList = [10] then return line else readLine input line

/-- The prompt, line by line. -/
partial def converse (session : Session) : IO UInt32 := do
  (← IO.getStdout).putStr Prompt.text
  (← IO.getStdout).flush
  let bytes ← readLine (← IO.getStdin) .empty
  match Prompt.splitLines bytes.toList with
  | [] => finish (.success "\n")
  | line :: _ =>
    match Prompt.turn? Machine.ampleFuel (session.withClock (← readClock)) line with
    | none => finish Prompt.notText
    | some (.outOfFuel, printed, _) => finish ⟨printed, "", none⟩
    | some (outcome, printed, behind) =>
      (← IO.getStdout).write printed
      (← IO.getStderr).putStr outcome.report
      converse behind

/-- The report of a command, which reads at most the file that it names. -/
def report (clock : Clock) (command : CommandLine.Command) : IO Report := do
  let read ← match command.file? with
    | some file => readFile file
    | none => pure .missing
  return CommandLine.execute Machine.ampleFuel clock command (fun _ => read) []

/-- Does what an invocation says. -/
def start (invocation : CommandLine.Invocation) : IO UInt32 := do
  if invocation.log then IO.FS.writeFile "app.log" ""
  let clock ← readClock
  match invocation.command with
  | .repl => converse (.fresh clock)
  | command => finish (← report clock command)

end Lox.Process

/-- Runs the command line. -/
def main (args : List String) : IO UInt32 := do
  match Lox.CommandLine.Invocation.ofArgs? args with
  | some invocation => Lox.Process.start invocation
  | none =>
    IO.eprintln "usage: [--log] run [FILE] | tokenize [FILE] [--json] | repl"
    return 2
