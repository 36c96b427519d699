import Lox.Proofs.Gate
import Lox.Proofs.Growth.Sessions
import Lox.Proofs.Jobs.Fit
import Lox.Proofs.Joining.Sessions

/-!
# Jobs of a session

A program without violations has functions whose parameters have different names
(`Stmt.AllResolved.distinct`), and running it makes no other functions.  So the machine of a session
is fit behind any texts (`Observed.Session.Fit.after`).  The jobs that a text begins with are those
that running it begins with (`Session.begins_jobs`), and they are fit (`Session.fit_of_mem_jobs`).
-/

namespace Lox

/-! ## Accepted programs -/

section
variable {distances : Distances} {bound : NodeId}

mutual

/-- A statement without violations has functions whose parameters have different names. -/
theorem Stmt.Resolved.distinct : ∀ {s : Stmt} {ribs : Ribs}, s.Resolved distances bound ribs →
    s.From .distinct
  | .expr value, _, _ | .print value, _, _ => value.from_distinct
  | .var _ none, _, _ | .ret _ none, _, _ => trivial
  | .var _ (some value), _, _ | .ret _ (some value), _, _ => value.from_distinct
  | .block body, ribs, h =>
    have hbody : Stmt.AllResolved distances bound (.none :: ribs) body := h
    hbody.distinct
  | .ifElse condition _ none, _, ⟨_, _, h⟩ => ⟨condition.from_distinct, h.distinct⟩
  | .ifElse condition _ (some _), _, ⟨_, _, h, _, h'⟩ =>
    ⟨condition.from_distinct, h.distinct, h'.distinct⟩
  | .whileDo condition _, _, ⟨_, _, h⟩ => ⟨condition.from_distinct, h.distinct⟩
  | .function _, _, ⟨_, _, h⟩ => h.distinct
  | .classDecl _ none _, _, ⟨_, _, _, h⟩ => ⟨trivial, trivial, h.distinct⟩
  | .classDecl _ (some _) _, _, ⟨_, _, _, h⟩ => ⟨trivial, ⟨trivial, trivial⟩, h.distinct⟩

theorem FunctionDecl.Resolved.distinct : ∀ {f : FunctionDecl} {ribs : Ribs},
    f.Resolved distances bound ribs → f.From .distinct
  | ⟨_, _, _⟩, _, ⟨_, hnodup, h⟩ => ⟨hnodup, h.distinct⟩

theorem FunctionDecl.AllResolved.distinct : ∀ {fs : List FunctionDecl} {ribs : Ribs},
    FunctionDecl.AllResolved distances bound ribs fs → FunctionDecl.AllFrom .distinct fs
  | [], _, _ => trivial
  | _ :: _, _, ⟨h, hs⟩ => ⟨h.distinct, hs.distinct⟩

theorem Stmt.AllResolved.distinct : ∀ {ss : List Stmt} {ribs : Ribs},
    Stmt.AllResolved distances bound ribs ss → Stmt.AllFrom .distinct ss
  | [], _, _ => trivial
  | _ :: _, _, ⟨h, hs⟩ => ⟨h.distinct, hs.distinct⟩

end

end

/-- **An accepted program** has functions whose parameters have different names. -/
theorem Session.distinct_of_check {text : List Char} {n n' : NodeId} {program : Program}
    {distances : Distances} (h : check text n = (.ok (program, distances), n')) :
    Stmt.AllFrom .distinct program := by
  have hnone : ∀ id : Nat, n ≤ id → Distances.get? [] id = none := fun _ _ => rfl
  exact (resolved_of_check h hnone).1.distinct

namespace Machine

theorem Fit.more {bound bound' : NodeId} {m : Machine} (h : m.Fit bound) (hle : bound ≤ bound')
    (distances : Distances) : Machine.Fit bound' { m with distances } := by
  have hformed : m.Formed (Observed.Written bound') := h.formed.mono fun _ hf =>
    FunctionDecl.Within.mono hf (Nat.le_refl _) hle
  exact ⟨⟨hformed.heap, hformed.environment⟩, h.distinct⟩

/-- **What a program leaves behind** has functions whose parameters have different names. -/
theorem Fit.distinct_interpret {bound : NodeId} {m : Machine} (h : m.Fit bound) (fuel : Nat)
    {program : Program} {distances : Distances} (hprogram : Stmt.AllFrom .distinct program) :
    ∀ (i : Nat) f, (Session.outcomeOf (interpret fuel program distances m)).2.heap.functions[i]? =
      some f → f.declaration.From .distinct := by
  have hstart : Machine.Fit bound { m with distances := m.distances.merge distances } :=
    h.more (Nat.le_refl bound) _
  have hfrom : Stmt.AllFrom ((Fit.setting { m with
    distances := m.distances.merge distances }).origin false) program := hprogram
  obtain ⟨m', marks', hfits, -, hends⟩ := Joining.program_follows fuel hfrom hstart.fits
  rw [interpret_eq]
  rcases hends with ⟨_, hx, -⟩ | ⟨stop, _, hx, -⟩
  · rw [hx]
    exact hfits.held.known
  · rw [hx]
    cases stop <;> exact hfits.held.known

end Machine

/-! ## Sessions -/

namespace Observed.Session

/-- **Whether the machine of a session is fit**, and the session is ready for its next text. -/
structure Fit (session : Session) : Prop where
  ready : session.Ready
  machine : session.state.machine.Fit session.nextId

theorem fit_initial (sink : Sink) (clock : Clock) : (initial sink clock).Fit where
  ready := ready_initial sink clock
  machine := ⟨formed_initial sink clock, fun i _ hf =>
    nomatch (Array.getElem?_empty (i := i)).symm.trans hf⟩

/-- **A text leaves a fit session behind.** -/
theorem Fit.run {session : Session} (h : session.Fit) (fuel : Nat) (text : List Char) :
    (session.run fuel text).2.Fit := by
  obtain ⟨start, hstart, -, -, hleads⟩ := exists_leads_run h.ready h.machine.formed fuel text
  refine ⟨h.ready.run fuel text, (hleads.formed hstart).1, ?_⟩
  have hmachine : (session.run fuel text).2.state.machine =
      (Lox.Session.run session.erased fuel text).2.machine := by
    rw [run_erased]
    rfl
  rw [hmachine]
  rcases Lox.Session.check_cases text session.nextId with
    ⟨-, n', hcheck⟩ | ⟨-, program, distances, n', hcheck⟩
  · have hcheck : Lox.Session.check text session.erased.nextId = _ := hcheck
    rw [Lox.Session.run_of_error hcheck]
    exact h.machine.distinct
  · have hdistinct := Lox.Session.distinct_of_check hcheck
    have hcheck : Lox.Session.check text session.erased.nextId = _ := hcheck
    rw [Lox.Session.run_of_ok hcheck]
    exact h.machine.distinct_interpret fuel hdistinct

theorem Fit.after : ∀ (texts : List (Nat × List Char)) {session : Session}, session.Fit →
    (session.after texts).Fit
  | [], _, h => h
  | (fuel, text) :: texts, _, h => Fit.after texts (h.run fuel text)

end Observed.Session

/-- The machine with which the statements of a text begin. -/
def Session.begun (session : Session) (distances : Distances) : Machine :=
  { session.machine with distances := session.machine.distances.merge distances }

/-- What running a text comes to, and what it leaves behind, if the machine comes to this. -/
def Session.endedBy (result : EStateM.Result Machine.Stop Machine Unit) (nextId : NodeId) :
    Outcome × Session :=
  ((outcomeOf result).1, ⟨(outcomeOf result).2, nextId⟩)

/-- **Whether jobs are the statements that running a text begins with.** -/
structure Session.Begins (session : Session) (fuel : Nat) (text : List Char)
    (jobs : List Machine.Job) : Prop where
  /-- A text that is not accepted runs none. -/
  refused : ∀ faults n', check text session.nextId = (.error faults, n') → jobs = []
  /-- Those of an accepted text are its statements, each at the machine that those before it leave
  behind. -/
  statements : ∀ program distances n', check text session.nextId = (.ok (program, distances), n') →
    ∀ job, job ∈ jobs ↔ ∃ before s later m, program = before ++ s :: later ∧
      Machine.runProgram fuel before (session.begun distances) = .ok () m ∧
      job = ⟨fuel, .stmt s, m⟩
  /-- Running the text comes to what the flush behind them comes to, or to what the first of them
  comes to that stops. -/
  ends : ∀ program distances n', check text session.nextId = (.ok (program, distances), n') →
    (∃ m, Machine.runProgram fuel program (session.begun distances) = .ok () m ∧
      session.run fuel text = endedBy (Machine.Run.flush m) n') ∨
    ∃ before s later m stop m', program = before ++ s :: later ∧
      Machine.runProgram fuel before (session.begun distances) = .ok () m ∧
      Machine.execute fuel s m = .error stop m' ∧ session.run fuel text = endedBy
        (.error stop { m' with environment := m'.globals, flushes := m'.flushes + 1 }) n'

theorem Session.jobs_of_ok {session : Session} {fuel : Nat} {text : List Char} {program : Program}
    {distances : Distances} {n' : NodeId}
    (h : check text session.nextId = (.ok (program, distances), n')) :
    session.jobs fuel text = Machine.Job.ofProgram fuel program (session.begun distances) := by
  rw [jobs, h]
  rfl

/-- **The jobs of a text** are the statements that running it begins with. -/
theorem Session.begins_jobs (session : Session) (fuel : Nat) (text : List Char) :
    session.Begins fuel text (session.jobs fuel text) where
  refused faults n' hcheck := by rw [jobs, hcheck]
  statements program distances n' hcheck job := by
    rw [jobs_of_ok hcheck]
    exact Machine.Job.mem_ofProgram
  ends program distances n' hcheck := by
    rw [run_of_ok hcheck]
    rcases Machine.runProgram_cases fuel program (session.begun distances) with
      ⟨m, hends⟩ | ⟨before, s, later, m, stop, m', hprogram, hbefore, hs, hstops⟩
    · refine .inl ⟨m, hends, ?_⟩
      rw [Machine.interpret_of_ok hends]
      rfl
    · refine .inr ⟨before, s, later, m, stop, m', hprogram, hbefore, hs, ?_⟩
      rw [Machine.interpret_of_error hstops]
      rfl

theorem Session.stmt_of_mem_jobs {session : Session} {fuel : Nat} {text : List Char}
    {job : Machine.Job} (h : job ∈ session.jobs fuel text) :
    ∃ program distances n', check text session.nextId = (.ok (program, distances), n') ∧
      ∃ s m, s ∈ program ∧ job = ⟨fuel, .stmt s, m⟩ := by
  rcases check_cases text session.nextId with
    ⟨-, n', hcheck⟩ | ⟨-, program, distances, n', hcheck⟩
  · rw [jobs, hcheck] at h
    exact absurd h List.not_mem_nil
  · rw [jobs_of_ok hcheck] at h
    obtain ⟨before, s, later, m, rfl, -, rfl⟩ := Machine.Job.mem_ofProgram.mp h
    exact ⟨_, distances, n', hcheck, s, m, List.mem_append_right _ List.mem_cons_self, rfl⟩

/-- **The jobs that a text begins with** are fit. -/
theorem Session.fit_of_mem_jobs (sink : Sink) (clock : Clock) (texts : List (Nat × List Char))
    (fuel : Nat) (text : List Char) :
    ∃ bound, ∀ job ∈ ((initial sink clock).after texts).jobs fuel text, job.Fit bound := by
  have hfit := (Observed.Session.fit_initial sink clock).after texts
  have herased : ((Observed.Session.initial sink clock).after texts).erased =
    (initial sink clock).after texts := Observed.Session.erased_after texts _
  rw [← herased]
  unfold jobs
  rcases check_cases text ((Observed.Session.initial sink clock).after texts).nextId with
    ⟨-, n', hcheck⟩ | ⟨-, program, distances, n', hcheck⟩
  · refine ⟨n', fun job hjob => ?_⟩
    rw [Observed.Session.erased, hcheck] at hjob
    exact absurd hjob List.not_mem_nil
  · refine ⟨n', fun job hjob => ?_⟩
    rw [Observed.Session.erased, hcheck] at hjob
    have hwithin := within_of_check hcheck
    exact Machine.Job.Fit.ofProgram (hfit.machine.more hwithin.le _)
      (hwithin.mono (Nat.zero_le _) (Nat.le_refl _)) (distinct_of_check hcheck) hjob

end Lox
