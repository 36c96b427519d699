import Lox.Machine.Interpret
import Lox.Proofs.Steps

/-!
# What a program comes to

The statements of a program are run in order up to the first that stops (`Machine.runProgram_cases`).
Behind them comes the flush of the sink.  If they run to their end then the program ends as the flush
does (`Machine.interpret_of_ok`); if they stop, then the program stops so, with the outermost frame as
the current one (`Machine.interpret_of_error`).
-/

namespace Lox.Machine

open Run

variable {m m' : Machine}

theorem Run.flush_eq (m : Machine) :
    flush m = (if m.sink.flushFails then EStateM.Result.error (.fault .sinkClosed)
      else EStateM.Result.ok ()) { m with flushes := m.flushes + 1 } := by
  show (if m.sink.flushFails then fail .sinkClosed else pure () : Run Unit) _ = _
  cases m.sink.flushFails <;> rfl

theorem flushOnStop_of_ok {x : Run Unit} (h : x m = .ok () m') : flushOnStop x m = .ok () m' := by
  simp only [flushOnStop, h]

theorem flushOnStop_of_error {x : Run Unit} {stop : Stop} (h : x m = .error stop m') :
    flushOnStop x m = .error stop { m' with flushes := m'.flushes + 1 } := by
  simp only [flushOnStop, h]

theorem backToGlobals_of_ok {x : Run Unit} (h : x m = .ok () m') :
    backToGlobals x m = .ok () m' := by
  simp only [backToGlobals, h]

theorem backToGlobals_of_error {x : Run Unit} {stop : Stop} (h : x m = .error stop m') :
    backToGlobals x m = .error stop { m' with environment := m'.globals } := by
  simp only [backToGlobals, h]

theorem interpret_eq (m : Machine) (fuel : Nat) (program : Program) (distances : Distances) :
    interpret fuel program distances m =
      (flushOnStop (backToGlobals (runProgram fuel program)) >>= fun _ => flush)
        { m with distances := m.distances.merge distances } := rfl

/-! ## Statements in order -/

theorem runProgram_cons_of_ok {fuel : Nat} {s : Stmt} {others : Program} {flow : Flow}
    (h : execute fuel s m = .ok flow m') :
    runProgram fuel (s :: others) m = runProgram fuel others m' :=
  Steps.bind_of_ok h

/-- **The statements of a program** are run to their end, or up to the first that stops. -/
theorem runProgram_cases (fuel : Nat) : ∀ (program : Program) (m : Machine),
    (∃ m', runProgram fuel program m = .ok () m') ∨
      ∃ before s later m₁ stop m', program = before ++ s :: later ∧
        runProgram fuel before m = .ok () m₁ ∧ execute fuel s m₁ = .error stop m' ∧
        runProgram fuel program m = .error stop m'
  | [], m => .inl ⟨m, rfl⟩
  | s :: others, m => by
    cases hs : execute fuel s m with
    | error stop m' => exact .inr ⟨[], s, others, m, stop, m', rfl, rfl, hs, Steps.bind_of_error hs⟩
    | ok flow m₁ =>
      have hothers : runProgram fuel (s :: others) m = runProgram fuel others m₁ :=
        runProgram_cons_of_ok hs
      rcases runProgram_cases fuel others m₁ with
        ⟨m', hends⟩ | ⟨before, t, later, m₂, stop, m', rfl, hbefore, ht, hstops⟩
      · exact .inl ⟨m', hothers.trans hends⟩
      · exact .inr ⟨s :: before, t, later, m₂, stop, m', rfl,
          (runProgram_cons_of_ok hs).trans hbefore, ht, hothers.trans hstops⟩

/-! ## The flush behind them -/

variable {fuel : Nat} {program : Program} {distances : Distances}

theorem interpret_of_ok
    (h : runProgram fuel program { m with distances := m.distances.merge distances } = .ok () m') :
    interpret fuel program distances m = flush m' := by
  rw [interpret_eq]
  exact Steps.bind_of_ok (flushOnStop_of_ok (backToGlobals_of_ok h))

theorem interpret_of_error {stop : Stop}
    (h : runProgram fuel program { m with distances := m.distances.merge distances } =
      .error stop m') :
    interpret fuel program distances m =
      .error stop { m' with environment := m'.globals, flushes := m'.flushes + 1 } := by
  have hstop : flushOnStop (backToGlobals (runProgram fuel program))
      { m with distances := m.distances.merge distances } =
      .error stop { m' with environment := m'.globals, flushes := m'.flushes + 1 } :=
    flushOnStop_of_error (backToGlobals_of_error h)
  rw [interpret_eq]
  exact Steps.bind_of_error hstop

end Lox.Machine
