import Lox.Prompt
import Lox.Token.Text

/-!
# The command line

An invocation runs a file, lists its tokens, or opens the prompt.  `CommandLine.execute` gives what
the process has left behind when it has spent so much fuel on a text, as a function of the
invocation, of what reading the file gives, of the standard input, and of what the clock shows
whenever it is read.
-/

namespace Lox.CommandLine

/-- What the process is to do. -/
inductive Command
  | run (file : Option String)
  | tokenize (file : Option String) (json : Bool)
  | repl
  deriving DecidableEq, Repr

/-- The file that a command names. -/
def Command.file? : Command → Option String
  | run file => file
  | tokenize file _ => file
  | repl => none

/-- A command, and whether the process keeps a log. -/
structure Invocation where
  command : Command
  log : Bool
  deriving DecidableEq, Repr

/-- The command that arguments without the log flag spell. -/
def Command.ofArgs? : List String → Option Command
  | ["repl"] => some .repl
  | ["run"] => some (.run none)
  | ["run", file] => some (.run (some file))
  | "tokenize" :: args =>
    match args.filter (· != "--json") with
    | [] => some (.tokenize none (args.contains "--json"))
    | [file] => some (.tokenize (some file) (args.contains "--json"))
    | _ => none
  | _ => none

/-- The invocation that arguments spell.  The log flag may stand anywhere. -/
def Invocation.ofArgs? (args : List String) : Option Invocation :=
  (Command.ofArgs? (args.filter (· != "--log"))).map fun command =>
    ⟨command, args.contains "--log"⟩

/-- What reading a file gives: its bytes, or why it cannot be opened or read. -/
inductive FileRead
  | content (bytes : List UInt8)
  | notOpened (reason : String)
  | notRead (reason : String)
  deriving DecidableEq, Repr

/-- There is no such file. -/
def FileRead.missing : FileRead := .notOpened "No such file or directory (os error 2)"

/-- The file is a directory. -/
def FileRead.directory : FileRead := .notRead "Is a directory (os error 21)"

/-- A failure with what caused it. -/
def caused (message cause : String) : String :=
  message ++ "\n\nCaused by:\n    " ++ cause

/-- The text of a file, or what the process says if there is none. -/
def FileRead.text (file : String) : FileRead → Except String (List Char)
  | .content bytes =>
    match Utf8.decode bytes with
    | .ok text => .ok text
    | .error fault => .error (caused (quoted ++ " is not valid UTF-8") fault.message)
  | .notOpened reason => .error (caused ("Failed to open file " ++ quoted) reason)
  | .notRead reason => .error (caused ("Failed to read file " ++ quoted) reason)
where
  /-- The name of the file in quotes. -/
  quoted : String := String.ofList (Quoted.debug file.toList)

/-- What the process says if a command needs a file and none is given. -/
def noFile : Report := .success "No input filepath was provided. Exiting...\n"

/-- Runs a text in a session of its own. -/
def runText (fuel : Nat) (clock : Clock) (text : List Char) : Report :=
  let (outcome, session) := (Session.fresh clock).run fuel text
  ⟨session.drain.1, outcome.report, outcome.status⟩

/-- Lists the tokens of a text, one on a line, and its faults. -/
def tokenizeText (json : Bool) (text : List Char) : Report :=
  let line (token : Token) := (if json then token.json else token.display) ++ "\n"
  let faults := Token.faults text
  ⟨(String.join ((Token.tokens text).map line)).toUTF8,
    String.join (faults.map fun fault => fault.text ++ "\n"),
    some (if faults.isEmpty then 0 else 65)⟩

/-- Does something with the text of a file. -/
def withText (file : Option String) (read : String → FileRead) (use : List Char → Report) :
    Report :=
  match file with
  | none => noFile
  | some file =>
    match (read file).text file with
    | .ok text => use text
    | .error message => .failure message

/-- What the process has left behind, with so much fuel for each text that it runs. -/
def execute (fuel : Nat) (clock : Clock) (command : Command) (read : String → FileRead)
    (stdin : List UInt8) : Report :=
  match command with
  | .run file => withText file read (runText fuel clock)
  | .tokenize file json => withText file read (tokenizeText json)
  | .repl => Prompt.run fuel (.fresh clock) (Prompt.splitLines stdin)

end Lox.CommandLine
