import Lox.Proofs.Limited.Programs
import Lox.Proofs.Observed.Erasure

/-!
# A full sink only cuts the output

A text is run twice from the same session, once on a sink without a limit and once on one that takes so
many more bytes.  If all fits, the two runs are the same.  Otherwise the second one ends at the first
line that does not fit: with the first bytes in its sink, which is flushed once more, with the fault
of a full sink, and with everything else as it was in the first run when that line was about to be
written (`Session.run_limited`).
-/

namespace Lox

/-- The session with another limit of its sink. -/
def Session.limited (session : Session) (capacity : Option Nat) : Session :=
  { session with machine := session.machine.limited capacity }

namespace Observed

/-- A session that is observed from now on. -/
def Session.from (session : Lox.Session) : Session :=
  ⟨⟨session.machine, fun _ => .outermost, [], []⟩, session.nextId⟩

variable {n : Nat} {s : State} {program : Program} {distances : Distances}

/-! ## Programs -/

/-- The state back in the outermost frame, with one more flush of the sink. -/
def State.stopped (s : State) : State :=
  { s.moveTo s.machine.globals with machine.flushes := s.machine.flushes + 1 }

/-- Whether a state is what a program leaves behind that stops in another one. -/
def Stopped (s left : State) : Prop :=
  left = s.stopped

/-- **Behind a program that stops** the two runs are where they were cut, too. -/
theorem Cuts.stopped {x : Run Unit} (h : Cuts n x) : Onward (flushOnStop (backToGlobals x)) ∧
    ∀ s : State, s.machine.sink.capacity = none → s.written.size ≤ n →
      Lockstep n Stopped s (flushOnStop (backToGlobals x)) := by
  have hbehind : ∀ s : State,
      (behind (flushOnStop (backToGlobals x)) s).machine.sink = (behind x s).machine.sink ∧
      (behind (flushOnStop (backToGlobals x)) s).visits = (behind x s).visits := by
    intro s
    unfold behind flushOnStop backToGlobals
    cases x s <;> exact ⟨rfl, rfl⟩
  refine ⟨fun s hs => ?_, fun s hs hsize => ?_⟩
  · obtain ⟨hsink, hvisits⟩ := hbehind s
    have hx := h.onward s hs
    exact ⟨hsink ▸ hx.sink, hvisits ▸ hx.visits⟩
  · obtain ⟨hsink, hvisits⟩ := hbehind s
    rcases h.lockstep s hs hsize with ⟨hsize', hsame⟩ | ⟨u, line, _, hstuck, hu, ⟨_, rfl⟩, hcut⟩
    · refine .inl ⟨by rw [State.written, hsink]; exact hsize', ?_⟩
      unfold flushOnStop backToGlobals
      rw [hsame]
      cases x s <;> rfl
    · refine .inr ⟨u, line, _, hstuck, ⟨hsink ▸ hu.sink, hvisits ▸ hu.visits⟩, rfl, ?_⟩
      unfold flushOnStop backToGlobals
      rw [hcut]
      rfl

theorem flush_eq (s : State) : lift Machine.Run.flush s =
    (if s.machine.sink.flushFails then EStateM.Result.error (.fault .sinkClosed)
      else EStateM.Result.ok ()) { s with machine.flushes := s.machine.flushes + 1 } := by
  unfold lift
  rw [Machine.Run.flush_eq]
  cases s.machine.sink.flushFails <;> rfl

theorem behind_flush (s : State) :
    behind (lift Machine.Run.flush) s = { s with machine.flushes := s.machine.flushes + 1 } := by
  unfold behind
  rw [flush_eq]
  cases s.machine.sink.flushFails <;> rfl

theorem onward_flush : Onward (lift Machine.Run.flush) := by
  intro s _
  rw [behind_flush]
  exact { Further.refl s with }

/-- A limit makes no difference to a flush. -/
theorem lockstep_flush {P : State → State → Prop} (hsize : s.written.size ≤ n) :
    Lockstep n P s (lift Machine.Run.flush) := by
  refine .inl ⟨by rw [behind_flush]; exact hsize, ?_⟩
  have hsame : (s.limited n).machine.sink.flushFails = s.machine.sink.flushFails := rfl
  rw [flush_eq, flush_eq, hsame]
  cases s.machine.sink.flushFails <;> rfl

/-- **A whole program is only cut**, and in the end the current frame is the outermost one. -/
theorem lockstep_interpret (fuel : Nat) (hs : s.machine.sink.capacity = none)
    (hsize : s.written.size ≤ n) : Lockstep n Stopped s (interpret fuel program distances) := by
  obtain ⟨honward, hlockstep⟩ := (cuts_runProgram (n := n) fuel program .outermost).stopped
  have hrun : Onward (do
      flushOnStop (backToGlobals (runProgram fuel .outermost program))
      lift Machine.Run.flush) := honward.bind fun _ => onward_flush
  have hlearnt : ∀ t : State, t.machine.sink.capacity = none → t.written.size ≤ n →
      Lockstep n Stopped t (do
        lift (Machine.addDistances distances)
        flushOnStop (backToGlobals (runProgram fuel .outermost program))
        lift Machine.Run.flush) := fun t ht hsize =>
    (lockstep_lift (.addDistances distances) hsize).bind (onward_lift (.addDistances distances))
      (fun _ => hrun) ht fun _ t₁ _ ht₁ hsize₁ =>
        (hlockstep t₁ ht₁ hsize₁).bind honward (fun _ => onward_flush) ht₁
          fun _ t₂ _ _ hsize₂ => lockstep_flush hsize₂
  exact hlearnt { s with sites := s.sites ++ program.sites } hs hsize

/-! ## Sessions -/

namespace Session

/-- The session with a limit of its sink, now and at all visits. -/
def limited (n : Nat) (session : Session) : Session :=
  { session with state := session.state.limited n }

theorem outcomeOf_limitedResult (n : Nat) (result : EStateM.Result Machine.Stop State Unit) :
    outcomeOf (limitedResult n result) = ((outcomeOf result).1, (outcomeOf result).2.limited n) := by
  cases result with
  | ok a t => rfl
  | error stop t => cases stop <;> rfl

theorem outcomeOf_snd (x : Run Unit) (s : State) : (outcomeOf (x s)).2 = behind x s := by
  unfold behind
  cases x s with
  | ok a t => rfl
  | error stop t => cases stop <;> rfl

/-- **A text is only cut**, whether or not it is run at all. -/
theorem run_limited_cases (session : Session) (fuel : Nat) (text : List Char)
    (hs : session.state.machine.sink.capacity = none) (hsize : session.state.written.size ≤ n) :
    let whole := session.run fuel text
    whole.2.state.written.size ≤ n ∧
        (session.limited n).run fuel text = (whole.1, whole.2.limited n) ∨
      ∃ u line, Stuck n u line ∧ Further (u.write line) whole.2.state ∧
        (session.limited n).run fuel text =
          (.failed Machine.Fault.sinkFull.diagnostic,
            ⟨(u.cutAt n line).stopped, whole.2.nextId⟩) := by
  have hnext : (session.limited n).nextId = session.nextId := rfl
  have hstate : (session.limited n).state = session.state.limited n := rfl
  unfold run
  rw [hnext, hstate]
  cases Lox.Session.check text session.nextId with
  | mk result nextId =>
    cases result with
    | error faults => exact .inl ⟨hsize, rfl⟩
    | ok accepted =>
      obtain ⟨program, distances⟩ := accepted
      have hrun : Lockstep n Stopped session.state (interpret fuel program distances) :=
        lockstep_interpret fuel hs hsize
      simp only [Lockstep, ← outcomeOf_snd] at hrun
      rcases hrun with ⟨hsize', hsame⟩ | ⟨u, line, _, hstuck, hu, rfl, hcut⟩
      · refine .inl ⟨hsize', ?_⟩
        simp only [hsame, outcomeOf_limitedResult]
        rfl
      · exact .inr ⟨u, line, hstuck, hu, by simp only [hcut]; rfl⟩

/-- **A full sink only cuts the output.**  A text is run on a sink without a limit, and then from the
same session on one that takes `n` more bytes.  This one holds in the end what fits of all that the
first one got.  If that is everything, both runs come to the same.  Otherwise the second one fails
because its sink is full, and there is a moment of the first one, when a print statement has evaluated
its expression and comes to write the first line that does not fit, such that nothing was visited in
the second run after this moment, and everything but the sink and the current frame is as it was at
this moment.  The current frame is the outermost one, and the sink was flushed once more. -/
theorem run_limited (session : Lox.Session) (fuel : Nat) (text : List Char) (n : Nat) :
    let limit := session.machine.sink.written.size + n
    let whole := (session.limited none).run fuel text
    let cut := (session.limited (some limit)).run fuel text
    let written := whole.2.machine.sink.written
    cut.2.machine.sink.written = written.extract 0 limit ∧
      (written.size ≤ limit → cut = (whole.1, whole.2.limited (some limit))) ∧
      (limit < written.size → cut.1 = .failed (.io "sink full") ∧
        ∃ u line, Stuck limit u line ∧
          Further (u.write line) ((Session.from (session.limited none)).run fuel text).2.state ∧
          ((Session.from (session.limited (some limit))).run fuel text).2.state.visits =
            u.visits.map (Visit.limited limit) ∧
          cut.2.nextId = whole.2.nextId ∧
          cut.2.machine = { u.machine with
            sink := { u.machine.sink with
              written := written.extract 0 limit
              capacity := some limit }
            environment := u.machine.globals
            flushes := u.machine.flushes + 1 }) := by
  intro limit whole cut written
  have hwhole := run_erased (Session.from (session.limited none)) fuel text
  have hcut := run_erased (Session.from (session.limited (some limit))) fuel text
  have hwhole : whole = _ := hwhole
  have hcut : cut = _ := hcut
  have hlimited : Session.from (session.limited (some limit)) =
    (Session.from (session.limited none)).limited limit := rfl
  have hcases := run_limited_cases (n := limit) (Session.from (session.limited none)) fuel text rfl
    (Nat.le_add_right _ n)
  rw [← hlimited] at hcases
  have hwritten : written = ((Session.from (session.limited none)).run fuel text).2.state.written := by
    rw [State.written]
    exact congrArg (fun ends : Outcome × Lox.Session => ends.2.machine.sink.written) hwhole
  rcases hcases with ⟨hsize, hsame⟩ | ⟨u, line, hstuck, hfurther, hends⟩
  · rw [← hwritten] at hsize
    have hsame : cut = (whole.1, whole.2.limited (some limit)) := by
      rw [hcut, hsame, hwhole]
      rfl
    refine ⟨?_, fun _ => hsame, fun hfull => absurd hsize (Nat.not_le_of_lt hfull)⟩
    rw [hsame]
    exact (extract_of_size_le hsize).symm
  · obtain ⟨more, hmore⟩ := hfurther.sink
    have hlong : written = u.written ++ line ++ more := by
      rw [hwritten, State.written, hmore]
      rfl
    have hfirst : written.extract 0 limit = (u.written ++ line).extract 0 limit := by
      rw [hlong, extract_append_of_le more (Nat.le_of_lt hstuck.full)]
    have hfull : limit < written.size := by
      rw [hlong, ByteArray.size_append]
      exact Nat.lt_add_right _ hstuck.full
    rw [hends] at hcut
    refine ⟨?_, fun hsize => absurd hsize (Nat.not_le_of_lt hfull), fun _ => ⟨?_, u, line, hstuck,
      hfurther, ?_, ?_, ?_⟩⟩
    · rw [hcut, hfirst]
      rfl
    · rw [hcut]
      rfl
    · rw [hends]
      rfl
    · rw [hcut, hwhole]
      rfl
    · rw [hcut, hfirst]
      rfl

/-- The second line does not fit. -/
example :
    (((Lox.Session.initial .unbounded (.constant 0)).limited (some 5)).run 9
      "print 12; print 345;".toList).2.machine.sink.written = "12\n34".toUTF8 := by
  decide +kernel

end Session

end Observed

end Lox
