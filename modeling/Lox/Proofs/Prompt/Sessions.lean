import Lox.CommandLine
import Lox.Proofs.Copies.Sessions
import Lox.Proofs.Endings
import Lox.Proofs.Prompt.Lines
import Lox.Proofs.Prompt.Utf8

/-!
# The prompt runs its lines in one session

A process that opens the prompt runs the lines of its input one after the other in one session
(`Prompt.Fold`), up to the first line that is no text.  Each line's output comes behind a prompt, and
the lines that fail are reported in order.  The process comes to its end if the runs of these lines
all do; behind a line whose run does not, it does nothing any more (`CommandLine.prompt_folds`).  What
a failing line leaves behind for later ones are the globals and the objects that it had changed, and
nothing else.
-/

namespace Lox

namespace Prompt

/-- **The texts of lines**, up to the first line that is no text, and whether there is no such
line. -/
inductive Texts : List (List UInt8) → List (List Char) → Bool → Prop
  | none : Texts [] [] true
  | noText {line : List UInt8} {lines : List (List UInt8)} :
    (∀ text, ¬ Utf8.Encodes text line) → Texts (line :: lines) [] false
  | text {line : List UInt8} {lines : List (List UInt8)} {first : List Char}
    {texts : List (List Char)} {complete : Bool} : Utf8.Encodes first line →
    Texts lines texts complete → Texts (line :: lines) (first :: texts) complete

/-- **Texts that come to their ends one after the other in a session**, with all that is printed, a
prompt in front of what each of them writes, with all that is reported, the text of each failure on a
line of its own, and with the session behind them. -/
inductive Fold : Session → List (List Char) → ByteArray → String → Session → Prop
  | none (session : Session) : Fold session [] .empty "" session
  | succeeds {session behind last : Session} {first : List Char} {texts : List (List Char)}
    {written stdout : ByteArray} {stderr : String} :
    session.ComesTo first .ok behind → behind.written = session.written ++ written →
    Fold behind texts stdout stderr last →
    Fold session (first :: texts) ("> ".toUTF8 ++ written ++ stdout) stderr last
  | fails {session behind last : Session} {first : List Char} {texts : List (List Char)}
    {written stdout : ByteArray} {stderr : String} {diagnostic : Diagnostic} :
    session.ComesTo first (.failed diagnostic) behind →
    behind.written = session.written ++ written → Fold behind texts stdout stderr last →
    Fold session (first :: texts) ("> ".toUTF8 ++ written ++ stdout)
      (diagnostic.text ++ "\n" ++ stderr) last

/-- What the process has left behind in the end: a last prompt, and a newline or a complaint. -/
def ending (complete : Bool) (stdout : ByteArray) (stderr : String) : Report :=
  if complete then ⟨stdout ++ "> \n".toUTF8, stderr, some 0⟩
  else ⟨stdout ++ "> ".toUTF8, stderr ++ "Error: stream did not contain valid UTF-8\n", some 1⟩

variable {fuel : Nat} {session behind last : Session} {first : List Char} {line : List UInt8}
  {lines : List (List UInt8)} {texts : List (List Char)} {complete : Bool} {outcome : Outcome}
  {written stdout : ByteArray} {stderr : String}

theorem Fold.cons (hfirst : session.ComesTo first outcome behind)
    (hwritten : behind.written = session.written ++ written)
    (hothers : Fold behind texts stdout stderr last) :
    Fold session (first :: texts) ("> ".toUTF8 ++ written ++ stdout) (outcome.report ++ stderr)
      last := by
  cases outcome with
  | ok =>
    rw [Outcome.report, String.empty_append]
    exact .succeeds hfirst hwritten hothers
  | failed diagnostic => exact .fails hfirst hwritten hothers
  | outOfFuel => exact absurd rfl hfirst.1

theorem ending_after (complete : Bool) (stdout : ByteArray) (stderr : String) (front : ByteArray)
    (report : String) : (ending complete stdout stderr).after front report =
      ending complete (front ++ stdout) (report ++ stderr) := by
  cases complete <;> simp [ending, Report.after, ByteArray.append_assoc, String.append_assoc]

theorem exists_texts : ∀ lines : List (List UInt8), ∃ texts complete, Texts lines texts complete
  | [] => ⟨[], true, .none⟩
  | line :: lines => by
    by_cases hline : ∃ first, Utf8.Encodes first line
    · obtain ⟨first, hfirst⟩ := hline
      obtain ⟨texts, complete, htexts⟩ := exists_texts lines
      exact ⟨first :: texts, complete, .text hfirst htexts⟩
    · exact ⟨[], false, .noText (not_exists.mp hline)⟩

/-! ## One line -/

theorem run_nil : run fuel session [] = ending true .empty "" := by
  have hlast : Report.success (text ++ "\n") = ending true .empty "" :=
    Report.ext (by decide) rfl rfl
  rw [run, hlast]

theorem run_of_noText (h : ∀ text, ¬ Utf8.Encodes text line) :
    run fuel session (line :: lines) = ending false .empty "" := by
  cases hdecode : Utf8.decode line with
  | ok text => exact absurd (Utf8.decode_eq_ok_iff.mp hdecode) (h text)
  | error fault =>
    simp only [run, turn?, hdecode]
    rfl

/-- Behind a line that has come to its end the others are run, -/
theorem run_cons (hfirst : Utf8.Encodes first line)
    (hrun : session.run fuel first = (outcome, behind)) (hends : outcome ≠ .outOfFuel) :
    run fuel session (line :: lines) = (run fuel behind.drain.2 lines).after
      ("> ".toUTF8 ++ behind.written) outcome.report := by
  simp only [run, turn?, Utf8.decode_eq_ok_iff.mpr hfirst, hrun]
  cases outcome with
  | outOfFuel => exact absurd rfl hends
  | _ => rfl

/-- and until it has done so the process runs. -/
theorem status_of_outOfFuel (hfirst : Utf8.Encodes first line)
    (h : (session.run fuel first).1 = .outOfFuel) :
    (run fuel session (line :: lines)).status = none := by
  simp only [run, turn?, Utf8.decode_eq_ok_iff.mpr hfirst]
  cases hrun : session.run fuel first with
  | mk outcome behind =>
    rw [hrun] at h
    obtain rfl : outcome = .outOfFuel := h
    rfl

/-! ## All lines -/

/-- Output that is taken away stands in front of what comes later. -/
theorem behind_drain {session : Session} (h : session.machine.sink.capacity = none)
    (earlier : ByteArray) :
    session.behind earlier = session.drain.2.behind (earlier ++ session.written) := by
  unfold Session.drain Session.behind Session.written
  simp only [Sink.behind, h, Option.map_none, ByteArray.append_empty]

theorem written_behind (session : Session) (earlier : ByteArray) :
    (session.behind earlier).written = earlier ++ session.written := rfl

theorem capacity_drain_run (hcapacity : session.machine.sink.capacity = none) (fuel : Nat)
    (first : List Char) : (session.run fuel first).2.drain.2.machine.sink.capacity = none := by
  obtain ⟨printed, hsink⟩ := Session.sink_run session fuel first hcapacity
  show (session.run fuel first).2.machine.sink.capacity = none
  rw [hsink]
  exact hcapacity

theorem behind_run (hcapacity : session.machine.sink.capacity = none) (fuel : Nat)
    (first : List Char) (earlier : ByteArray) :
    (session.behind earlier).run fuel first = ((session.run fuel first).1,
      (session.run fuel first).2.drain.2.behind
        (earlier ++ (session.run fuel first).2.written)) := by
  have hbehind : (session.run fuel first).2.machine.sink.capacity = none :=
    capacity_drain_run hcapacity fuel first
  rw [Session.run_behind, behind_drain hbehind]

/-- **The prompt folds** the texts of its lines if they all come to their ends.  So it does with
enough fuel, and with any fuel with which it comes to its own. -/
theorem run_folds (htexts : Texts lines texts complete) : ∀ (session : Session)
    (earlier : ByteArray), session.machine.sink.capacity = none → session.written = .empty →
    (session.behind earlier).AllEnd texts → ∃ stdout stderr last,
      Fold (session.behind earlier) texts stdout stderr last ∧
        (∃ enough, ∀ fuel ≥ enough, run fuel session lines = ending complete stdout stderr) ∧
        ∀ fuel, (run fuel session lines).status ≠ none →
          run fuel session lines = ending complete stdout stderr := by
  induction htexts with
  | none =>
    exact fun _ _ _ _ _ => ⟨.empty, "", _, .none _, ⟨0, fun _ _ => run_nil⟩, fun _ _ => run_nil⟩
  | noText hline =>
    exact fun _ _ _ _ _ => ⟨.empty, "", _, .none _, ⟨0, fun _ _ => run_of_noText hline⟩,
      fun _ _ => run_of_noText hline⟩
  | @text line lines first texts complete hfirst _ ih =>
    rintro session earlier hcapacity hempty ⟨outcome, next, hcomes, hothers⟩
    obtain ⟨hends, fuel, hrun⟩ := hcomes
    rw [behind_run hcapacity] at hrun
    let behind := (session.run fuel first).2
    obtain rfl : (session.run fuel first).1 = outcome := congrArg Prod.fst hrun
    obtain rfl : behind.drain.2.behind (earlier ++ behind.written) = next := congrArg Prod.snd hrun
    have hcomes : session.ComesTo first (session.run fuel first).1 behind := ⟨hends, fuel, rfl⟩
    obtain ⟨stdout, stderr, last, hfold, ⟨enough, henough⟩, honly⟩ :=
      ih _ _ (capacity_drain_run hcapacity fuel first) rfl hothers
    obtain ⟨enough', henough'⟩ := hcomes.exists_enough
    refine ⟨"> ".toUTF8 ++ behind.written ++ stdout, (session.run fuel first).1.report ++ stderr,
      last, Fold.cons ⟨hends, fuel, behind_run hcapacity fuel first earlier⟩ ?_ hfold,
      ⟨max enough enough', fun k hk => ?_⟩, fun k hk => ?_⟩
    · rw [written_behind, written_behind, hempty, ByteArray.append_empty]
      exact ByteArray.append_empty
    · rw [run_cons hfirst (henough' k (Nat.le_trans (Nat.le_max_right _ _) hk)) hends,
        henough k (Nat.le_trans (Nat.le_max_left _ _) hk), ending_after]
    · have hne : (session.run k first).1 ≠ .outOfFuel := fun hcut =>
        hk (status_of_outOfFuel hfirst hcut)
      have hstep : run k session (line :: lines) = (run k behind.drain.2 lines).after
          ("> ".toUTF8 ++ behind.written) (session.run fuel first).1.report :=
        run_cons hfirst (hcomes.run_of_ne hne) hends
      rw [hstep] at hk
      rw [hstep, honly k hk, ending_after]

/-- **A process that opens the prompt runs on** if not all its texts come to their ends. -/
theorem status_eq_none (htexts : Texts lines texts complete) : ∀ (session : Session)
    (earlier : ByteArray), session.machine.sink.capacity = none →
    ¬(session.behind earlier).AllEnd texts → ∀ fuel, (run fuel session lines).status = none := by
  induction htexts with
  | none => exact fun _ _ _ h => absurd trivial h
  | noText => exact fun _ _ _ h => absurd trivial h
  | @text line lines first texts complete hfirst _ ih =>
    intro session earlier hcapacity h fuel
    by_cases hcut : (session.run fuel first).1 = .outOfFuel
    · exact status_of_outOfFuel hfirst hcut
    · rw [run_cons hfirst rfl hcut]
      exact ih _ _ (capacity_drain_run hcapacity fuel first) (fun hothers =>
        h ⟨_, _, ⟨hcut, fuel, behind_run hcapacity fuel first earlier⟩, hothers⟩) fuel

end Prompt

namespace CommandLine

/-- **What a process leaves behind in the end**: with enough fuel it has left that behind, and so it
has with any with which it comes to its end. -/
structure Ends (clock : Clock) (command : Command) (read : String → FileRead) (stdin : List UInt8)
    (report : Report) : Prop where
  status : report.status ≠ none
  comes : ∃ enough, ∀ fuel ≥ enough, execute fuel clock command read stdin = report
  only : ∀ fuel, (execute fuel clock command read stdin).status ≠ none →
    execute fuel clock command read stdin = report

/-- **The prompt is the fold of running its lines.**  The lines of every input are determined, and so
are their texts up to the first line that is no text.  If the runs of these texts, one after the other
in one session, all come to their ends, then so does the process.  It has printed a prompt and what the
session writes for each of them, and a last prompt; it has reported the failures in order; and if all
lines are texts it ends well.  If one of these runs does not come to its end, neither does the process.

Between lines the current frame is the outermost one.  A line that fails statically leaves the globals
and the objects as they are, a line that fails at run time leaves those that there were when it
failed, and how later lines run depends on nothing else but what the clock shows: in any two sessions
with the same globals and objects, whatever was run in them before, they come to the same and write
the same. -/
theorem prompt_folds (clock : Clock) (read : String → FileRead) (stdin : List UInt8) :
    (∃ lines texts complete,
      (∀ other, Prompt.Lines stdin other ↔ other = lines) ∧
      Prompt.Texts lines texts complete ∧
      ((Session.fresh clock).AllEnd texts → ∃ stdout stderr last,
        Prompt.Fold (.fresh clock) texts stdout stderr last ∧
        Ends clock .repl read stdin
          (if complete then ⟨stdout ++ "> \n".toUTF8, stderr, some 0⟩
          else ⟨stdout ++ "> ".toUTF8, stderr ++ "Error: stream did not contain valid UTF-8\n",
            some 1⟩)) ∧
      (¬(Session.fresh clock).AllEnd texts →
        ∀ fuel, (execute fuel clock .repl read stdin).status = none)) ∧
    ∀ before : List (Nat × List Char),
      let session := (Session.fresh clock).after before
      session.machine.environment = session.machine.globals ∧
      (∀ fuel text, Static.Faulty text → session.SameObjects (session.run fuel text).2) ∧
      (∀ fuel text program distances nextId fault m,
        Session.check text session.nextId = (.ok (program, distances), nextId) →
        Machine.runProgram fuel program
            { session.machine with distances := session.machine.distances.merge distances } =
          .error (.fault fault) m →
        session.run fuel text = (.failed fault.diagnostic,
          ⟨{ m with environment := m.globals, flushes := m.flushes + 1 }, nextId⟩)) ∧
      ∀ (clock' : Clock) (before' : List (Nat × List Char)),
        session.SameObjects ((Session.fresh clock').after before') →
        ∀ later, session.outcomes later = ((Session.fresh clock').after before').outcomes later ∧
          ∃ written, (session.after later).written = session.written ++ written ∧
            (((Session.fresh clock').after before').after later).written =
              ((Session.fresh clock').after before').written ++ written := by
  refine ⟨?_, fun before => ⟨(Session.settled_after clock before).outermost, fun fuel text hfaulty =>
    .of_faulty _ fuel hfaulty, fun fuel text program distances nextId fault m hcheck hstops => ?_,
    fun clock' before' hsame later => hsame.runsLike later⟩⟩
  · obtain ⟨texts, complete, htexts⟩ := Prompt.exists_texts (Prompt.splitLines stdin)
    have hbehind : (Session.fresh clock).behind .empty = .fresh clock := rfl
    refine ⟨_, texts, complete, fun _ => Prompt.lines_iff, htexts, fun hends => ?_, fun hruns => ?_⟩
    · obtain ⟨stdout, stderr, last, hfold, hcomes, honly⟩ :=
        Prompt.run_folds htexts (.fresh clock) .empty rfl rfl (hbehind ▸ hends)
      refine ⟨stdout, stderr, last, hbehind ▸ hfold, ?_, hcomes, honly⟩
      cases complete <;> exact Option.some_ne_none _
    · exact Prompt.status_eq_none htexts (.fresh clock) .empty rfl (hbehind ▸ hruns)
  · rw [Session.run_of_ok hcheck, Machine.interpret_of_error hstops]
    rfl

/-- A line that fails, between two that do not. -/
theorem prompt_folds_failing :
    Ends (.constant 0) .repl (fun _ => .missing) "print 1;\nprint b;\r\nprint 2;".toUTF8.toList
      ⟨"> 1\n> > 2\n> \n".toUTF8, "Undefined variable 'b'.\n[line 1]\n", some 0⟩ := by
  have hrun : execute 9 (.constant 0) .repl (fun _ => .missing)
      "print 1;\nprint b;\r\nprint 2;".toUTF8.toList =
        ⟨"> 1\n> > 2\n> \n".toUTF8, "Undefined variable 'b'.\n[line 1]\n", some 0⟩ :=
    Report.ext (by decide +kernel) (by decide +kernel) (by decide +kernel)
  obtain ⟨⟨lines, texts, complete, -, -, hfolds, hruns⟩, -⟩ := prompt_folds (.constant 0)
    (fun _ => .missing) "print 1;\nprint b;\r\nprint 2;".toUTF8.toList
  have hend : (Session.fresh (.constant 0)).AllEnd texts := by
    by_contra hnot
    have hnone := hruns hnot 9
    rw [hrun] at hnone
    cases hnone
  obtain ⟨stdout, stderr, last, -, hends⟩ := hfolds hend
  have hreport := hends.only 9 (by rw [hrun]; exact Option.some_ne_none 0)
  rw [hrun] at hreport
  rwa [← hreport] at hends

/-- A line whose run does not come to its end: then neither does the process, though the line is a
text. -/
theorem prompt_runs_on :
    Prompt.Texts (Prompt.splitLines "while (true) nil;\n".toUTF8.toList)
        ["while (true) nil;".toList] true ∧
      ∀ clock read, ¬∃ fuel,
        (execute fuel clock .repl read "while (true) nil;\n".toUTF8.toList).status = some 0 := by
  have hlines : Prompt.splitLines "while (true) nil;\n".toUTF8.toList =
      ["while (true) nil;".toUTF8.toList] := by decide +kernel
  have htext : Utf8.Encodes "while (true) nil;".toList "while (true) nil;".toUTF8.toList := by
    unfold Utf8.Encodes
    decide +kernel
  have hcheck : Session.check "while (true) nil;".toList 0 =
      (.ok ([.whileDo (.literal (.bool true)) (.expr (.literal .nil))], []), 0) := by
    with_unfolding_all rfl
  rw [hlines]
  refine ⟨.text htext .none, fun clock read ⟨fuel, hends⟩ => ?_⟩
  have hruns : ((Session.fresh clock).run fuel "while (true) nil;".toList).1 = .outOfFuel :=
    Session.run_of_runsOn hcheck (Machine.endlessLoop_runsOn fuel)
  rw [execute, hlines, Prompt.status_of_outOfFuel htext hruns] at hends
  cases hends

end CommandLine

end Lox
