import Lox.CommandLine
import Lox.Proofs.Locality.Programs
import Lox.Proofs.Joining.Findings
import Lox.Proofs.Restoring
import Lox.Proofs.Sessions

/-!
# What keeps a text from being run

The faults of a text are a matter of the text alone (`Session.check_cases`): those of its tokens
and of its syntax, and if there are none of these, those of its names, each of its own kind
(`Static.kinds`).  A text with faults is answered by all of them and leaves the machine as it is,
with its sink not even flushed, whatever was run before and wherever its output goes; a text without
faults is run, which flushes the sink once, and a running program never fails in such a way
(`Session.gate`).  So the exit code of a process tells the two apart
(`CommandLine.runText_of_faults`).
-/

namespace Lox

/-- A failure on the way, which only a running program comes to. -/
inductive Diagnostic.OfExecution : Diagnostic → Prop
  | runtime (line : Nat) (message : String) : OfExecution (.runtime line message)
  | internal (message : String) : OfExecution (.internal message)
  | io (message : String) : OfExecution (.io message)

/-! ## The faults of a text -/

namespace Static

/-- The lexical faults of a text. -/
def lexical (text : List Char) : List Diagnostic :=
  Token.faults text

/-- The syntax faults of a text. -/
def syntactic (text : List Char) : List Diagnostic :=
  match (Program.ofTokens (Token.tokens text) 0).1 with
  | .ok _ => []
  | .error faults => faults.map Syntax.Fault.diagnostic

/-- The faults of a text's names, if it spells a program. -/
def scoping (text : List Char) : List Diagnostic :=
  match (Program.ofTokens (Token.tokens text) 0).1 with
  | .ok program => program.violations
  | .error _ => []

/-- Whether a text has a fault of any kind. -/
def Faulty (text : List Char) : Prop :=
  lexical text ≠ [] ∨ syntactic text ≠ [] ∨ scoping text ≠ []

/-- The faults that a text is answered by: all lexical ones followed by all of its syntax, or if
there are none of these all of its names. -/
def faults (text : List Char) : List Diagnostic :=
  if lexical text ++ syntactic text = [] then scoping text else lexical text ++ syntactic text

variable {text : List Char}

theorem syntactic_eq (text : List Char) : syntactic text =
    (Program.faults (Token.tokens text) 0).map Syntax.Fault.diagnostic := by
  unfold syntactic Program.faults
  cases (Program.ofTokens (Token.tokens text) 0).1 <;> rfl

theorem scoping_eq (h : Program.faults (Token.tokens text) 0 = []) :
    scoping text = Program.violations (Program.reading (Token.tokens text) 0).1 := by
  unfold scoping
  rw [Program.ofTokens_of_faults_eq_nil h]

theorem faults_ne_nil_iff : faults text ≠ [] ↔ Faulty text := by
  unfold faults Faulty
  split
  · next h =>
    obtain ⟨hlexical, hsyntactic⟩ := List.append_eq_nil_iff.mp h
    simp [hlexical, hsyntactic]
  · next h =>
    refine iff_of_true h ?_
    by_cases hlexical : lexical text = []
    · exact .inr (.inl fun hsyntactic => h (List.append_eq_nil_iff.mpr ⟨hlexical, hsyntactic⟩))
    · exact .inl hlexical

/-- Whether the faults of a text are of their own kinds, each with the line it is on. -/
structure Sorted (text : List Char) : Prop where
  lexical : ∀ d ∈ lexical text, ∃ line message, d = .lex line message
  syntactic : ∀ d ∈ syntactic text, ∃ line lexeme message, d = .parse line lexeme message
  scoping : ∀ d ∈ scoping text, ∃ line lexeme message, d = .resolve line lexeme message

/-- Every fault is of its own kind. -/
theorem kinds (text : List Char) : Sorted text := by
  refine ⟨fun d hd => ?_, fun d hd => ?_, fun d hd => ?_⟩
  · obtain ⟨item, -, hitem⟩ := List.mem_filterMap.mp hd
    cases item with
    | token => cases hitem
    | fault line f => exact ⟨line, f.message, (Option.some.inj hitem).symm⟩
  · rw [syntactic_eq] at hd
    obtain ⟨fault, -, rfl⟩ := List.mem_map.mp hd
    exact ⟨_, _, _, rfl⟩
  · unfold scoping at hd
    split at hd
    · obtain ⟨finding, -, hfinding⟩ := List.mem_filterMap.mp hd
      cases finding with
      | bound => cases hfinding
      | violation name rule => exact ⟨_, _, _, (Option.some.inj hfinding).symm⟩
    · cases hd

end Static

namespace Program

/-- Whatever identities are used, tokens have the same faults, or spell a program with the same
violations. -/
theorem ofTokens_later (tokens : List Token) (n : NodeId) :
    faults tokens 0 ≠ [] ∧ (∃ n', ofTokens tokens n = (.error (faults tokens 0), n')) ∨
      faults tokens 0 = [] ∧ ∃ program n', ofTokens tokens n = (.ok program, n') ∧
        program.violations = Program.violations (reading tokens 0).1 := by
  have hfaults : faults tokens n = faults tokens 0 := faults_moved tokens n 0
  have hreading : (reading tokens n).1 = Stmt.allMoved ⟨n, 0⟩ (reading tokens 0).1 :=
    congrArg Prod.fst (reading_moved tokens n 0)
  by_cases hnone : faults tokens 0 = []
  · refine .inr ⟨hnone, _, _, ofTokens_of_faults_eq_nil (hfaults.trans hnone), ?_⟩
    rw [hreading, violations_later]
  · refine .inl ⟨hnone, (reading tokens n).2.nextId, ?_⟩
    rw [ofTokens_eq, ← faults_eq, hfaults, if_neg (mt List.isEmpty_iff.mp hnone)]

end Program

namespace Session

variable {text : List Char} {n n' : NodeId} {program : Program}

/-! ## What a check comes to -/

theorem check_of_syntactic {faults : List Syntax.Fault}
    (h : Program.ofTokens (Token.tokens text) n = (.error faults, n')) :
    check text n = (.error (Token.faults text ++ faults.map Syntax.Fault.diagnostic), n') := by
  rw [check, programOf, h]

theorem check_of_lexical (h : Program.ofTokens (Token.tokens text) n = (.ok program, n'))
    (hlexical : Token.faults text ≠ []) : check text n = (.error (Token.faults text), n') := by
  rw [check, programOf, h]
  dsimp only
  rw [if_neg (mt List.isEmpty_iff.mp hlexical)]

theorem check_of_program (h : Program.ofTokens (Token.tokens text) n = (.ok program, n'))
    (hlexical : Token.faults text = []) :
    check text n = (program.resolve.map fun distances => (program, distances), n') := by
  rw [check, programOf, h, hlexical]
  rfl

/-- **What a check comes to** is a matter of the text: all faults that there are to answer, or a
program if there are none. -/
theorem check_cases (text : List Char) (n : NodeId) :
    (Static.faults text ≠ [] ∧ ∃ n', check text n = (.error (Static.faults text), n')) ∨
      Static.faults text = [] ∧
        ∃ program distances n', check text n = (.ok (program, distances), n') := by
  have hsyntactic := Static.syntactic_eq text
  rcases Program.ofTokens_later (Token.tokens text) n with
    ⟨hsome, n', hread⟩ | ⟨hnone, program, n', hread, hviolations⟩
  · have hne : Static.lexical text ++ Static.syntactic text ≠ [] := by
      rw [hsyntactic]
      exact fun h => hsome (List.map_eq_nil_iff.mp (List.append_eq_nil_iff.mp h).2)
    have hfaults : Static.faults text = Static.lexical text ++ Static.syntactic text := if_neg hne
    refine .inl ⟨hfaults ▸ hne, n', ?_⟩
    rw [hfaults, hsyntactic]
    exact check_of_syntactic hread
  rw [hnone, List.map_nil] at hsyntactic
  by_cases hlexical : Static.lexical text = []
  · have hfaults : Static.faults text = program.violations := by
      rw [hviolations, ← Static.scoping_eq hnone]
      exact if_pos (by rw [hlexical, hsyntactic, List.append_nil])
    have hcheck := check_of_program hread hlexical
    rw [hfaults]
    unfold Program.resolve at hcheck
    cases hfound : program.violations with
    | nil =>
      rw [hfound] at hcheck
      exact .inr ⟨rfl, program, program.distances, n', hcheck⟩
    | cons violation violations =>
      rw [hfound] at hcheck
      exact .inl ⟨List.cons_ne_nil _ _, n', hcheck⟩
  · have hfaults : Static.faults text = Static.lexical text := by
      rw [Static.faults, hsyntactic, List.append_nil, if_neg hlexical]
    rw [hfaults]
    exact .inl ⟨hlexical, n', check_of_lexical hread hlexical⟩

/-! ## What a run comes to -/

/-- **A machine that runs** comes to no other failures than those of execution, whatever program it
runs with whatever distances. -/
theorem ofExecution_of_outcomeOf {result : EStateM.Result Machine.Stop Machine Unit}
    {diagnostic : Diagnostic} (h : (outcomeOf result).1 = .failed diagnostic) :
    diagnostic.OfExecution := by
  unfold outcomeOf at h
  split at h <;> cases h
  next fault _ => cases fault <;> constructor

theorem outcomeOf_behind (x : Machine.Run Unit) (m : Machine) :
    (outcomeOf (x m)).2 = x.behind m := by
  unfold Machine.Run.behind
  cases x m with
  | ok a m' => rfl
  | error stop m' => cases stop <;> rfl

/-- A text with faults is answered by them, and nothing else happens. -/
theorem run_of_faulty (session : Session) (fuel : Nat) (h : Static.Faulty text) :
    session.run fuel text = (.failed (.batch (Static.faults text)),
      { session with nextId := (check text session.nextId).2 }) := by
  rcases check_cases text session.nextId with ⟨-, n', hcheck⟩ | ⟨hnone, -⟩
  · rw [run_of_error hcheck, hcheck]
  · exact absurd hnone (Static.faults_ne_nil_iff.mpr h)

theorem run_of_not_faulty (session : Session) (fuel : Nat) (h : ¬ Static.Faulty text) :
    ∃ program distances n', check text session.nextId = (.ok (program, distances), n') ∧
      session.run fuel text =
        ((outcomeOf (Machine.interpret fuel program distances session.machine)).1,
          ⟨(outcomeOf (Machine.interpret fuel program distances session.machine)).2, n'⟩) := by
  rcases check_cases text session.nextId with ⟨hsome, -⟩ | ⟨-, program, distances, n', hcheck⟩
  · exact absurd (Static.faults_ne_nil_iff.mp hsome) h
  · exact ⟨program, distances, n', hcheck, run_of_ok hcheck⟩

theorem status_outcomeOf (result : EStateM.Result Machine.Stop Machine Unit) :
    (outcomeOf result).1.status ≠ some 65 := by
  cases hresult : (outcomeOf result).1 with
  | ok => nofun
  | outOfFuel => nofun
  | failed diagnostic =>
    cases ofExecution_of_outcomeOf hresult <;> nofun

/-- **The gate is exact and free of effects.**  In every session, a text is answered by a batch of
faults if and only if it has some, which are of their own kinds.  The batch is then a matter of the
text alone, and nothing of the session changes but the next identity; so nothing is written and
nothing flushed, and that a sink refuses to be flushed does not show.  A text without faults is run,
which flushes the sink once, and fails in no other way than one of execution.  So the exit code 65
means that the text was not run. -/
theorem gate (session : Session) (fuel : Nat) (text : List Char) :
    ((∃ faults, (session.run fuel text).1 = .failed (.batch faults)) ↔ Static.Faulty text) ∧
    Static.Sorted text ∧
    (Static.Faulty text → session.run fuel text = (.failed (.batch (Static.faults text)),
      { session with nextId := (check text session.nextId).2 })) ∧
    (¬ Static.Faulty text →
      (∃ program distances n', check text session.nextId = (.ok (program, distances), n') ∧
        session.run fuel text =
          ((outcomeOf (Machine.interpret fuel program distances session.machine)).1,
            ⟨(outcomeOf (Machine.interpret fuel program distances session.machine)).2, n'⟩)) ∧
      (session.run fuel text).2.machine.flushes = session.machine.flushes + 1 ∧
      ∀ diagnostic, (session.run fuel text).1 = .failed diagnostic → diagnostic.OfExecution) ∧
    ((session.run fuel text).1.status = some 65 ↔ Static.Faulty text) := by
  by_cases h : Static.Faulty text
  · have hrun := run_of_faulty session fuel h
    refine ⟨iff_of_true ⟨_, congrArg Prod.fst hrun⟩ h, Static.kinds text, fun _ => hrun, absurd h, ?_⟩
    rw [hrun]
    exact iff_of_true rfl h
  · obtain ⟨program, distances, n', hcheck, hrun⟩ := run_of_not_faulty session fuel h
    have hexecution : ∀ diagnostic, (session.run fuel text).1 = .failed diagnostic →
        diagnostic.OfExecution := fun diagnostic hfailed =>
      ofExecution_of_outcomeOf (by rwa [hrun] at hfailed)
    have hflushes : (session.run fuel text).2.machine.flushes = session.machine.flushes + 1 := by
      rw [hrun, outcomeOf_behind]
      exact (Machine.restores_interpret fuel program distances session.machine).2
    refine ⟨iff_of_false ?_ h, Static.kinds text, fun hfaulty => absurd hfaulty h,
      fun _ => ⟨⟨program, distances, n', hcheck, hrun⟩, hflushes, hexecution⟩, iff_of_false ?_ h⟩
    · rintro ⟨faults, hfailed⟩
      cases hexecution _ hfailed
    · rw [hrun]
      exact status_outcomeOf _

end Session

/-- A process that is given a text with faults prints them and nothing else; any other text it runs,
and its exit code is another. -/
theorem CommandLine.runText_of_faults (fuel : Nat) (clock : Clock) (text : List Char) :
    ((CommandLine.runText fuel clock text).status = some 65 ↔ Static.Faulty text) ∧
      (Static.Faulty text → CommandLine.runText fuel clock text =
        ⟨.empty, (Diagnostic.batch (Static.faults text)).text ++ "\n", some 65⟩) := by
  by_cases h : Static.Faulty text
  · have hrun := Session.run_of_faulty (.fresh clock) fuel h
    have hreport : CommandLine.runText fuel clock text =
        ⟨.empty, (Diagnostic.batch (Static.faults text)).text ++ "\n", some 65⟩ := by
      rw [CommandLine.runText, hrun]
      rfl
    exact ⟨iff_of_true (congrArg Report.status hreport) h, fun _ => hreport⟩
  · obtain ⟨program, distances, n', -, hrun⟩ := Session.run_of_not_faulty (.fresh clock) fuel h
    refine ⟨iff_of_false ?_ h, fun hfaulty => absurd hfaulty h⟩
    rw [CommandLine.runText, hrun]
    exact Session.status_outcomeOf _

end Lox
