import Lox.Main
import Lox.Syntax.Outline
import Lox.Proofs.Grammar.Program
import Lox.Proofs.Lexical.Sessions
import Lox.Proofs.Joining.Sessions
import Lox.Proofs.Locality.Programs
import Lox.Proofs.Occurrences.Rules
import Lox.Proofs.Observed.Sessions
import Lox.Proofs.Restoring
import Lox.Proofs.Scanning.Stretches
import Lox.Proofs.Scanning.Separated
import Lox.Proofs.Bytes.Safety
import Lox.Proofs.Gate
import Lox.Proofs.Growth.Identities
import Lox.Proofs.Limited.Sessions
import Lox.Proofs.Renaming.Sessions
import Lox.Proofs.Diagnostics.Sessions
import Lox.Proofs.Prompt.Sessions
import Lox.Proofs.Loops.Sessions
import Lox.Proofs.Initializers.Sessions
import Lox.Proofs.Trails.Distances
import Lox.Proofs.Jobs.Returns
import Lox.Proofs.Jobs.Arguments
import Lox.Proofs.Histories.Bindings
import Lox.Proofs.Progress.Rounds
import Lox.Proofs.Json.Tokens
import Lox.Proofs.Printing.Sessions
