import Lox.Proofs.Limited.Blind
import Lox.Proofs.Observed.Steps

/-!
# Runs that are cut

The run on a limited sink keeps pace with the run on an unlimited one (`Lockstep`): it comes to the
same as long as all that is written fits, and stops at the first line that does not.  There the
unlimited run is at a certain moment, when it has evaluated the expression of a print statement and
comes to write its text (`Stuck`); the limited run leaves the state of this moment behind, but with a
full sink and perhaps in another frame.  Both runs are observed, so it is also on record what they
visit, and what the limited one does not visit any more.
-/

namespace Lox.Observed

open Machine (Blind)

/-! ## States -/

/-- The visit with a limit of the sink. -/
def Visit.limited (n : Nat) (v : Visit) : Visit :=
  { v with machine := v.machine.limited (some n) }

/-- The state with a limit of the sink, now and at all visits. -/
def State.limited (n : Nat) (s : State) : State :=
  { s with machine := s.machine.limited (some n), visits := s.visits.map (Visit.limited n) }

/-- What has been written. -/
def State.written (s : State) : ByteArray :=
  s.machine.sink.written

/-- The state in which more is written. -/
def State.write (s : State) (line : ByteArray) : State :=
  { s with machine := { s.machine with
      sink := { s.machine.sink with written := s.written ++ line } } }

/-- The state with a sink that has been filled by a line which does not fit. -/
def State.cutAt (n : Nat) (s : State) (line : ByteArray) : State :=
  { s with
    machine := { s.machine with
      sink := { s.machine.sink with
        written := (s.written ++ line).extract 0 n
        capacity := some n } }
    visits := s.visits.map (Visit.limited n) }

/-- Whether a state is one that comes later: more may have been written and visited. -/
structure Further (s t : State) : Prop where
  sink : ∃ more, t.machine.sink = { s.machine.sink with written := s.written ++ more }
  visits : s.visits <+: t.visits

/-- The line that a print statement writes for a value. -/
def lineOf (heap : Heap) (value : Value) : ByteArray :=
  (heap.display value ++ "\n").toUTF8

/-- **Whether a state is one where a limited sink is filled**: the last statement that was begun is a
print statement, its expression has been evaluated, and what was written so far fits, but not
together with the line of the value. -/
structure Stuck (n : Nat) (u : State) (line : ByteArray) : Prop where
  fits : u.written.size ≤ n
  full : n < (u.written ++ line).size
  printing : ∃ (begun : State) (position : Position) (e : Expr) (fuel : Nat) (value : Value),
    begun.visits.getLast? = some ⟨.stmt (.print e), position, begun.machine⟩ ∧
    Observed.evaluate fuel position e begun = .ok value u ∧ Further begun u ∧
    line = lineOf u.machine.heap value

variable {α β : Type}

/-- The state that a run leaves behind. -/
def behind (x : Run α) (s : State) : State :=
  match x s with
  | .ok _ t => t
  | .error _ t => t

/-- What a run comes to, with a limit of the sink. -/
def limitedResult (n : Nat) :
    EStateM.Result Machine.Stop State α → EStateM.Result Machine.Stop State α
  | .ok a t => .ok a (t.limited n)
  | .error stop t => .error stop (t.limited n)

/-- Whether a run only goes on, if there is no limit. -/
def Onward (x : Run α) : Prop :=
  ∀ s : State, s.machine.sink.capacity = none → Further s (behind x s)

/-- **Whether the limited run keeps pace** with the unlimited one: either all fits and they come to the
same, or the limited one stops at the line that does not fit, and leaves something behind that `P`
allows for the state of that moment. -/
def Lockstep (n : Nat) (P : State → State → Prop) (s : State) (x : Run α) : Prop :=
  (behind x s).written.size ≤ n ∧ x (s.limited n) = limitedResult n (x s) ∨
    ∃ u line left, Stuck n u line ∧ Further (u.write line) (behind x s) ∧ P (u.cutAt n line) left ∧
      x (s.limited n) = .error (.fault .sinkFull) left

/-- Whether a state is another one, perhaps in another frame. -/
def Elsewhere (s left : State) : Prop :=
  ∃ frame, left = s.moveTo frame

/-- **Whether a limit only cuts a run**, wherever it begins with something left of the limit. -/
structure Cuts (n : Nat) (x : Run α) : Prop where
  onward : Onward x
  lockstep : ∀ s : State, s.machine.sink.capacity = none → s.written.size ≤ n →
    Lockstep n Elsewhere s x

variable {n : Nat} {P : State → State → Prop} {s t u : State} {x : Run α} {f : α → Run β}

theorem Further.refl (s : State) : Further s s :=
  ⟨⟨.empty, by rw [ByteArray.append_empty]; rfl⟩, List.prefix_refl _⟩

theorem Further.trans (h : Further s t) (h' : Further t u) : Further s u := by
  obtain ⟨more, hmore⟩ := h.sink
  obtain ⟨more', hmore'⟩ := h'.sink
  refine ⟨⟨more ++ more', ?_⟩, h.visits.trans h'.visits⟩
  rw [hmore', State.written, hmore, ByteArray.append_assoc]

theorem Further.capacity (h : Further s t) (hs : s.machine.sink.capacity = none) :
    t.machine.sink.capacity = none := by
  obtain ⟨more, hmore⟩ := h.sink
  rw [hmore]
  exact hs

theorem behind_of_ok {a : α} (h : x s = .ok a t) : behind x s = t := by
  rw [behind, h]

theorem behind_of_error {stop : Machine.Stop} (h : x s = .error stop t) : behind x s = t := by
  rw [behind, h]

/-! ## Steps that do not see the sink -/

/-- A blind step leaves the sink and the visits as they are. -/
theorem behind_lift {y : Machine.Run α} (h : Blind y) (s : State) :
    (behind (lift y) s).machine.sink = s.machine.sink ∧ (behind (lift y) s).visits = s.visits := by
  have hs : y s.machine = Machine.withSink s.machine.sink (y s.machine) := h s.machine s.machine.sink
  unfold behind lift
  cases hy : y s.machine with
  | ok a m | error a m =>
    rw [hy] at hs
    injection hs with _ hm
    have hsink : m.sink = s.machine.sink := (congrArg Machine.sink hm).trans rfl
    exact ⟨hsink, rfl⟩

theorem onward_lift {y : Machine.Run α} (h : Blind y) : Onward (lift y) := by
  intro s _
  obtain ⟨hsink, hvisits⟩ := behind_lift h s
  refine ⟨⟨.empty, ?_⟩, ?_⟩
  · rw [hsink, ByteArray.append_empty]
    rfl
  · exact ⟨[], (List.append_nil _).trans hvisits.symm⟩

/-- **A blind step** comes to the same with a limit. -/
theorem lockstep_lift {y : Machine.Run α} (h : Blind y) (hsize : s.written.size ≤ n) :
    Lockstep n P s (lift y) := by
  obtain ⟨hsink, -⟩ := behind_lift h s
  refine .inl ⟨by rw [State.written, hsink]; exact hsize, ?_⟩
  have hs : y (s.limited n).machine =
    Machine.withSink (s.machine.sink.limited (some n)) (y s.machine) := h s.machine _
  unfold behind lift at hsink
  unfold lift limitedResult
  rw [hs]
  cases hy : y s.machine with
  | ok a m | error a m =>
    rw [hy] at hsink
    have hsink : m.sink = s.machine.sink := hsink
    simp only [Machine.withSink, State.limited, Machine.limited, hsink]

/-! ## Rows of runs -/

theorem Onward.bind (h : Onward x) (hf : ∀ a, Onward (f a)) : Onward (x >>= f) := by
  intro s hs
  have hx := h s hs
  cases hends : x s with
  | ok a t =>
    rw [behind_of_ok hends] at hx
    have hrow : behind (x >>= f) s = behind (f a) t := by
      rw [behind, Steps.bind_of_ok hends]
      rfl
    rw [hrow]
    exact hx.trans (hf a t (hx.capacity hs))
  | error stop t =>
    rw [behind_of_error hends] at hx
    rw [behind_of_error (Steps.bind_of_error hends)]
    exact hx

/-- **What follows a run that keeps pace** keeps pace if it does so from what the run comes to. -/
theorem Lockstep.bind (h : Lockstep n P s x) (hx : Onward x) (hf : ∀ a, Onward (f a))
    (hs : s.machine.sink.capacity = none)
    (hnext : ∀ a t, x s = .ok a t → t.machine.sink.capacity = none → t.written.size ≤ n →
      Lockstep n P t (f a)) : Lockstep n P s (x >>= f) := by
  have hfurther := hx s hs
  cases hends : x s with
  | ok a t =>
    rw [behind_of_ok hends] at hfurther
    have ht := hfurther.capacity hs
    have hrow : behind (x >>= f) s = behind (f a) t := by
      rw [behind, Steps.bind_of_ok hends]
      rfl
    rcases h with ⟨hsize, hlimited⟩ | ⟨u, line, left, hstuck, hu, hleft, hlimited⟩
    · rw [behind_of_ok hends] at hsize
      rw [hends] at hlimited
      have hagain := hnext a t hends ht hsize
      unfold Lockstep at hagain ⊢
      rw [hrow, Steps.bind_of_ok hlimited, Steps.bind_of_ok hends]
      exact hagain
    · rw [behind_of_ok hends] at hu
      refine .inr ⟨u, line, left, hstuck, ?_, hleft, Steps.bind_of_error hlimited⟩
      rw [hrow]
      exact hu.trans (hf a t ht)
  | error stop t =>
    unfold Lockstep at h ⊢
    rw [behind_of_error (Steps.bind_of_error hends), Steps.bind_of_error hends]
    rw [behind_of_error hends, hends] at h
    rcases h with ⟨hsize, hlimited⟩ | ⟨u, line, left, hstuck, hu, hleft, hlimited⟩
    · exact .inl ⟨hsize, Steps.bind_of_error hlimited⟩
    · exact .inr ⟨u, line, left, hstuck, hu, hleft, Steps.bind_of_error hlimited⟩

namespace Cuts

theorem bind (h : Cuts n x) (hf : ∀ a, Cuts n (f a)) : Cuts n (x >>= f) where
  onward := h.onward.bind fun a => (hf a).onward
  lockstep s hs hsize := (h.lockstep s hs hsize).bind h.onward (fun a => (hf a).onward) hs
    fun a t _ ht hsize' => (hf a).lockstep t ht hsize'

theorem pure (a : α) : Cuts n (Pure.pure a : Run α) where
  onward s _ := .refl s
  lockstep _ _ hsize := .inl ⟨hsize, rfl⟩

theorem lift {y : Machine.Run α} (h : Blind y) : Cuts n (Observed.lift y) :=
  ⟨onward_lift h, fun _ _ hsize => lockstep_lift h hsize⟩

theorem get {f : State → Run β} (h : ∀ s, Cuts n (f s)) (hsame : ∀ s, f (s.limited n) = f s) :
    Cuts n (MonadState.get >>= f) where
  onward s hs := (h s).onward s hs
  lockstep s hs hsize := by
    have hagain := (h s).lockstep s hs hsize
    unfold Lockstep at hagain ⊢
    rw [← hsame s] at hagain
    have hlimited : (MonadState.get >>= f) (s.limited n) = f (s.limited n) (s.limited n) := rfl
    have hhere : behind (MonadState.get >>= f) s = behind (f (s.limited n)) s := by
      rw [hsame s]
      rfl
    have hends : (MonadState.get >>= f) s = f (s.limited n) s := by
      rw [hsame s]
      rfl
    rw [hlimited, hhere, hends]
    exact hagain

theorem originOf {id : FunctionId} {f : Position → Run β} (h : ∀ position, Cuts n (f position)) :
    Cuts n (originOf id >>= f) :=
  get (f := fun s => f (s.origin id)) (fun s => h (s.origin id)) fun _ => rfl

theorem visit (node : Node) (position : Position) : Cuts n (visit node position) where
  onward s _ := ⟨⟨.empty, by rw [ByteArray.append_empty]; rfl⟩, List.prefix_append _ _⟩
  lockstep s _ hsize := by
    have hvisits : (s.visits ++ [(⟨node, position, s.machine⟩ : Visit)]).map (Visit.limited n) =
        s.visits.map (Visit.limited n) ++ [⟨node, position, s.machine.limited (some n)⟩] := by
      rw [List.map_append]
      rfl
    have hresult := congrArg (fun visits => { s.limited n with visits }) hvisits.symm
    exact .inl ⟨hsize, congrArg (EStateM.Result.ok ()) hresult⟩

theorem note (id : FunctionId) (position : Position) : Cuts n (note id position) where
  onward s _ := { Further.refl s with }
  lockstep _ _ hsize := .inl ⟨hsize, rfl⟩

/-- **A run inside another frame** is cut where it would be without. -/
theorem withFrame (frame : FrameId) (h : Cuts n x) : Cuts n (withFrame frame x) := by
  have hbehind : ∀ s : State, behind (Observed.withFrame frame x) s =
      (behind x (s.moveTo frame)).moveTo s.machine.environment := by
    intro s
    unfold behind Observed.withFrame
    cases x (s.moveTo frame) <;> rfl
  refine ⟨fun s hs => ?_, fun s hs hsize => ?_⟩
  · rw [hbehind]
    have hinside := h.onward (s.moveTo frame) hs
    exact ⟨hinside.sink, hinside.visits⟩
  · rcases h.lockstep (s.moveTo frame) hs hsize with
      ⟨hsize', hlimited⟩ | ⟨u, line, _, hstuck, hu, ⟨_, rfl⟩, hlimited⟩
    · refine .inl ⟨by rw [hbehind]; exact hsize', ?_⟩
      have hlimited : x ((s.limited n).moveTo frame) = _ := hlimited
      unfold Observed.withFrame
      rw [hlimited]
      cases x (s.moveTo frame) <;> rfl
    · refine .inr ⟨u, line, _, hstuck, ?_, ⟨s.machine.environment, rfl⟩, ?_⟩
      · rw [hbehind]
        exact ⟨hu.sink, hu.visits⟩
      · have hlimited : x ((s.limited n).moveTo frame) = _ := hlimited
        unfold Observed.withFrame
        rw [hlimited]
        rfl

end Cuts

/-! ## Print statements -/

theorem onward_writeLine (text : String) : Onward (lift (Machine.Run.writeLine text)) := by
  intro s hs
  have hwrite := Sink.write_unlimited hs (text ++ "\n").toUTF8
  unfold behind lift
  rw [Machine.Run.writeLine_eq, hwrite]
  exact ⟨⟨_, rfl⟩, List.prefix_refl _⟩

/-- **A line is written** if it fits, and is where the sink is filled otherwise. -/
theorem lockstep_writeLine {text : String} (hs : s.machine.sink.capacity = none)
    (hsize : s.written.size ≤ n)
    (hprinting : n < (s.written ++ (text ++ "\n").toUTF8).size → Stuck n s (text ++ "\n").toUTF8) :
    Lockstep n Elsewhere s (lift (Machine.Run.writeLine text)) := by
  have hwrite := Sink.write_unlimited hs (text ++ "\n").toUTF8
  have hhere : lift (Machine.Run.writeLine text) s = .ok () (s.write (text ++ "\n").toUTF8) := by
    unfold lift
    rw [Machine.Run.writeLine_eq, hwrite]
    rfl
  have hsizes : (s.written ++ (text ++ "\n").toUTF8).size =
    s.written.size + (text ++ "\n").toUTF8.size := ByteArray.size_append
  by_cases hfits : s.written.size + (text ++ "\n").toUTF8.size ≤ n
  · refine .inl ⟨?_, ?_⟩
    · rw [behind_of_ok hhere]
      exact Nat.le_trans (Nat.le_of_eq hsizes) hfits
    · have hlimited : (s.limited n).machine.sink.write (text ++ "\n").toUTF8 = _ :=
        Sink.write_limited_of_le hfits
      rw [hhere]
      unfold lift
      rw [Machine.Run.writeLine_eq, hlimited]
      rfl
  · have hfull : n < s.written.size + (text ++ "\n").toUTF8.size := Nat.lt_of_not_le hfits
    refine .inr ⟨s, _, _, hprinting (hsizes ▸ hfull), ?_, ⟨s.machine.environment, rfl⟩, ?_⟩
    · rw [behind_of_ok hhere]
      exact .refl _
    · have hlimited : (s.limited n).machine.sink.write (text ++ "\n").toUTF8 = _ :=
        Sink.write_limited_of_lt hsize hfull
      unfold lift
      rw [Machine.Run.writeLine_eq, hlimited]
      rfl

end Lox.Observed
