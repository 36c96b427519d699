import Lox.Proofs.Interpret
import Lox.Proofs.Sessions

/-!
# Runs that come to an end

Fuel only bounds how far a run gets.  With more fuel a run does the same, and goes on where it ran out
of fuel before (`Machine.Prolonged`); so a text that has come to an end with some fuel comes to the
same with more (`Session.run_of_le`).  What a text comes to (`Session.ComesTo`) is therefore a matter
of the text and the session alone.
-/

namespace Lox

namespace Machine

open Run (withFrame)

/-- **Whether a run is prolonged by another**: that one does the same, but that it may go on where this
one runs out of fuel. -/
def Prolonged {α : Type} (x y : Run α) : Prop :=
  ∀ m, (∃ m', x m = .error .outOfFuel m') ∨ y m = x m

namespace Prolonged

variable {α β : Type} {x y : Run α} {f g : α → Run β}

theorem refl (x : Run α) : Prolonged x x := fun _ => .inr rfl

theorem outOfFuel (y : Run α) : Prolonged Run.outOfFuel y := fun m => .inl ⟨m, rfl⟩

/-- **Rows of runs** are prolonged if their parts are. -/
theorem bind (h : Prolonged x y) (hfg : ∀ a, Prolonged (f a) (g a)) :
    Prolonged (x >>= f) (y >>= g) := by
  intro m
  rcases h m with ⟨m', hx⟩ | hsame
  · exact .inl ⟨m', Steps.bind_of_error hx⟩
  · cases hx : x m with
    | ok a m₁ =>
      rw [Steps.bind_of_ok hx, Steps.bind_of_ok (hsame.trans hx)]
      exact hfg a m₁
    | error stop m₁ =>
      rw [Steps.bind_of_error hx, Steps.bind_of_error (hsame.trans hx)]
      exact .inr rfl

theorem behind (x : Run α) (hfg : ∀ a, Prolonged (f a) (g a)) : Prolonged (x >>= f) (x >>= g) :=
  (refl x).bind hfg

theorem bind_refl (h : Prolonged x y) (f : α → Run β) : Prolonged (x >>= f) (y >>= f) :=
  h.bind fun a => refl (f a)

theorem ite {c : Prop} [Decidable c] {x' y' : Run α} (h : Prolonged x y) (h' : Prolonged x' y') :
    Prolonged (if c then x else x') (if c then y else y') := by
  by_cases hc : c
  · rw [if_pos hc, if_pos hc]
    exact h
  · rw [if_neg hc, if_neg hc]
    exact h'

theorem withFrame (frame : FrameId) (h : Prolonged x y) :
    Prolonged (withFrame frame x) (withFrame frame y) := by
  intro m
  unfold Run.withFrame
  rcases h { m with environment := frame } with ⟨m', hx⟩ | hsame
  · exact .inl ⟨_, by rw [hx]⟩
  · exact .inr (by rw [hsame])

theorem backToGlobals {x y : Run Unit} (h : Prolonged x y) :
    Prolonged (backToGlobals x) (backToGlobals y) := by
  intro m
  rcases h m with ⟨m', hx⟩ | hsame
  · exact .inl ⟨_, backToGlobals_of_error hx⟩
  · exact .inr (by unfold Machine.backToGlobals; rw [hsame])

theorem flushOnStop {x y : Run Unit} (h : Prolonged x y) :
    Prolonged (flushOnStop x) (flushOnStop y) := by
  intro m
  rcases h m with ⟨m', hx⟩ | hsame
  · exact .inl ⟨_, flushOnStop_of_error hx⟩
  · exact .inr (by unfold Machine.flushOnStop; rw [hsame])

/-! ## Parts of expressions and statements -/

variable {evaluate evaluate' : Expr → Run Value} {execute execute' : Stmt → Run Flow}

theorem runAll (hx : ∀ s, Prolonged (execute s) (execute' s)) (ss : List Stmt) :
    Prolonged (runAll execute ss) (runAll execute' ss) := by
  induction ss with
  | nil => exact refl _
  | cons s ss ih =>
    refine (hx s).bind fun flow => ?_
    cases flow with
    | normal => exact ih
    | returned v => exact refl _

theorem evaluateAll (he : ∀ e, Prolonged (evaluate e) (evaluate' e)) (es : List Expr) :
    Prolonged (evaluateAll evaluate es) (evaluateAll evaluate' es) := by
  induction es with
  | nil => exact refl _
  | cons e es ih => exact (he e).bind fun _ => ih.bind_refl _

theorem loop {condition condition' : Run Value} {body body' : Run Flow}
    (hc : Prolonged condition condition') (hb : Prolonged body body') :
    ∀ {rounds rounds' : Nat}, rounds ≤ rounds' →
      Prolonged (loop condition body rounds) (loop condition' body' rounds')
  | 0, _, _ => outOfFuel _
  | _ + 1, _ + 1, hle => hc.bind fun _ => .ite
    (hb.bind fun flow => by
      cases flow with
      | normal => exact loop hc hb (Nat.le_of_succ_le_succ hle)
      | returned v => exact refl _)
    (refl _)

theorem callFunction (hx : ∀ s, Prolonged (execute s) (execute' s)) (id : FunctionId)
    (args : List Value) : Prolonged (callFunction execute id args) (callFunction execute' id args) :=
  behind _ fun _ => behind _ fun frame => ((runAll hx _).withFrame frame).bind_refl _

theorem construct (hx : ∀ s, Prolonged (execute s) (execute' s)) (id : ClassId)
    (args : List Value) : Prolonged (construct execute id args) (construct execute' id args) := by
  refine behind _ fun receiver => behind _ fun heap => ?_
  cases heap.findMethod? id initializerName with
  | none => exact refl _
  | some init => exact behind _ fun bound => (callFunction hx bound args).bind_refl _

theorem callValue (hx : ∀ s, Prolonged (execute s) (execute' s)) (line : Nat) (callee : Value)
    (args : List Value) :
    Prolonged (callValue execute line callee args) (callValue execute' line callee args) := by
  unfold Machine.callValue
  cases callee.callable? with
  | none => exact refl _
  | some target =>
    refine behind _ fun heap => .ite ?_ (refl _)
    cases target with
    | native f => exact refl _
    | function id => exact callFunction hx id args
    | cls id => exact construct hx id args

/-- **One step into an expression** is prolonged if the steps into its parts are. -/
theorem evaluateWith (he : ∀ e, Prolonged (evaluate e) (evaluate' e))
    (hx : ∀ s, Prolonged (execute s) (execute' s)) :
    ∀ e : Expr, Prolonged (evaluateWith evaluate execute e) (evaluateWith evaluate' execute' e)
  | .literal _ | .var _ | .this _ | .super _ _ => refl _
  | .group inner => he inner
  | .unary _ _ operand => (he operand).bind_refl _
  | .binary left _ _ right => (he left).bind fun _ => (he right).bind_refl _
  | .logical left _ right => (he left).bind fun _ => .ite (refl _) (he right)
  | .assign _ value => (he value).bind_refl _
  | .call callee line args => (he callee).bind fun f => (evaluateAll he args).bind fun values =>
    callValue hx line f values
  | .get object _ => (he object).bind_refl _
  | .set object _ value => (he object).bind fun target => by
    cases target with
    | inst id => exact (he value).bind_refl _
    | _ => exact refl _

theorem evaluate? (he : ∀ e, Prolonged (evaluate e) (evaluate' e)) :
    ∀ e : Option Expr, Prolonged (evaluate? evaluate e) (evaluate? evaluate' e)
  | none => refl _
  | some e => he e

/-- **One step into a statement** is prolonged if the steps into its parts are. -/
theorem executeWith (he : ∀ e, Prolonged (evaluate e) (evaluate' e))
    (hx : ∀ s, Prolonged (execute s) (execute' s)) {rounds rounds' : Nat} (hle : rounds ≤ rounds') :
    ∀ s : Stmt,
      Prolonged (executeWith evaluate execute rounds s) (executeWith evaluate' execute' rounds' s)
  | .expr value | .print value => (he value).bind_refl _
  | .var _ value | .ret _ value => (evaluate? he value).bind_refl _
  | .block body => behind _ fun _ => behind _ fun frame => (runAll hx body).withFrame frame
  | .ifElse condition thenBranch elseBranch => (he condition).bind fun _ => .ite (hx thenBranch) (by
    cases elseBranch with
    | none => exact refl _
    | some branch => exact hx branch)
  | .whileDo condition body => loop (he condition) (hx body) hle
  | .function _ | .classDecl _ _ _ => refl _

end Prolonged

/-- **More fuel prolongs a run**, by induction on the less. -/
theorem prolonged_evaluate_execute : ∀ {fuel fuel' : Nat}, fuel ≤ fuel' →
    (∀ e, Prolonged (evaluate fuel e) (evaluate fuel' e)) ∧
      ∀ s, Prolonged (execute fuel s) (execute fuel' s)
  | 0, _, _ => ⟨fun _ => .outOfFuel _, fun _ => .outOfFuel _⟩
  | _ + 1, _ + 1, hle => by
    have hle := Nat.le_of_succ_le_succ hle
    obtain ⟨he, hx⟩ := prolonged_evaluate_execute hle
    exact ⟨.evaluateWith he hx, .executeWith he hx hle⟩

theorem prolonged_runProgram {fuel fuel' : Nat} (hle : fuel ≤ fuel') : ∀ program : Program,
    Prolonged (runProgram fuel program) (runProgram fuel' program)
  | [] => .refl _
  | s :: others => ((prolonged_evaluate_execute hle).2 s).bind fun _ => prolonged_runProgram hle others

theorem prolonged_interpret {fuel fuel' : Nat} (hle : fuel ≤ fuel') (program : Program)
    (distances : Distances) :
    Prolonged (interpret fuel program distances) (interpret fuel' program distances) :=
  .behind _ fun _ => (prolonged_runProgram hle program).backToGlobals.flushOnStop.bind_refl _

/-- **A loop runs on** if its condition, where it comes to a value, holds, and its body, where it comes
to an end, comes to its last statement. -/
theorem loop_runsOn {condition : Run Value} {body : Run Flow}
    (hcondition : ∀ m, (∃ m', condition m = .error .outOfFuel m') ∨
      ∃ value m', condition m = .ok value m' ∧ value.isTruthy)
    (hbody : ∀ m, (∃ m', body m = .error .outOfFuel m') ∨ ∃ m', body m = .ok .normal m') :
    ∀ rounds m, ∃ m', loop condition body rounds m = .error .outOfFuel m'
  | 0, m => ⟨m, rfl⟩
  | rounds + 1, m => by
    unfold loop
    rcases hcondition m with ⟨m', hcut⟩ | ⟨value, m₁, hvalue, htruthy⟩
    · exact ⟨m', Steps.bind_of_error hcut⟩
    · rw [Steps.bind_of_ok hvalue, if_pos htruthy]
      rcases hbody m₁ with ⟨m', hcut⟩ | ⟨m₂, hnormal⟩
      · exact ⟨m', Steps.bind_of_error hcut⟩
      · rw [Steps.bind_of_ok hnormal]
        exact loop_runsOn hcondition hbody rounds m₂

theorem evaluate_literal (literal : Literal) (m : Machine) : ∀ fuel : Nat,
    (∃ m', evaluate fuel (.literal literal) m = .error .outOfFuel m') ∨
      evaluate fuel (.literal literal) m = .ok (.ofLiteral literal) m
  | 0 => .inl ⟨m, rfl⟩
  | _ + 1 => .inr rfl

/-- A statement that runs on. -/
theorem endlessLoop_runsOn : ∀ (fuel : Nat) (m : Machine), ∃ m',
    execute fuel (.whileDo (.literal (.bool true)) (.expr (.literal .nil))) m =
      .error .outOfFuel m'
  | 0, m => ⟨m, rfl⟩
  | fuel + 1, m => by
    refine loop_runsOn (fun m => ?_) (fun m => ?_) fuel m
    · exact (evaluate_literal (.bool true) m fuel).imp_right fun hvalue =>
        ⟨.bool true, m, hvalue, rfl⟩
    · cases fuel with
      | zero => exact .inl ⟨m, rfl⟩
      | succ fuel =>
        rcases evaluate_literal .nil m fuel with ⟨m', hcut⟩ | hvalue
        · exact .inl ⟨m', Steps.bind_of_error hcut⟩
        · exact .inr ⟨m, Steps.bind_of_ok hvalue⟩

end Machine

namespace Session

variable {session behind behind' : Session} {text : List Char} {outcome outcome' : Outcome}
  {fuel fuel' : Nat}

theorem run_of_runsOn {s : Stmt} {others : Program} {distances : Distances} {nextId : NodeId}
    (hcheck : check text session.nextId = (.ok (s :: others, distances), nextId))
    (hruns : ∀ m, ∃ m', Machine.execute fuel s m = .error .outOfFuel m') :
    (session.run fuel text).1 = .outOfFuel := by
  obtain ⟨m', hfirst⟩ := hruns
    { session.machine with distances := session.machine.distances.merge distances }
  rw [run_of_ok hcheck, Machine.interpret_of_error (Steps.bind_of_error hfirst)]
  rfl

/-- **A text that has come to an end** comes to the same with more fuel. -/
theorem run_of_le (hle : fuel ≤ fuel') (h : (session.run fuel text).1 ≠ .outOfFuel) :
    session.run fuel' text = session.run fuel text := by
  cases hcheck : check text session.nextId with
  | mk result nextId =>
    cases result with
    | error faults => rw [run_of_error hcheck, run_of_error hcheck]
    | ok accepted =>
      obtain ⟨program, distances⟩ := accepted
      rw [run_of_ok hcheck] at h
      rw [run_of_ok hcheck, run_of_ok hcheck]
      rcases Machine.prolonged_interpret hle program distances session.machine with
        ⟨m', hstops⟩ | hsame
      · rw [hstops] at h
        exact absurd rfl h
      · rw [hsame]

/-- **What a text comes to** in a session, and the session behind it. -/
def ComesTo (session : Session) (text : List Char) (outcome : Outcome) (behind : Session) : Prop :=
  outcome ≠ .outOfFuel ∧ ∃ fuel, session.run fuel text = (outcome, behind)

/-- A text comes to just one thing, with any fuel that is enough. -/
theorem ComesTo.run_of_ne (h : session.ComesTo text outcome behind)
    (hfuel : (session.run fuel text).1 ≠ .outOfFuel) :
    session.run fuel text = (outcome, behind) := by
  obtain ⟨hends, fuel', hrun⟩ := h
  rcases Nat.le_total fuel fuel' with hle | hle
  · rw [← hrun, run_of_le hle hfuel]
  · rw [← hrun, run_of_le hle (by rw [hrun]; exact hends)]

theorem ComesTo.exists_enough (h : session.ComesTo text outcome behind) :
    ∃ enough, ∀ fuel ≥ enough, session.run fuel text = (outcome, behind) := by
  obtain ⟨hends, enough, hrun⟩ := h
  exact ⟨enough, fun fuel hle => by rw [← hrun, run_of_le hle (by rw [hrun]; exact hends)]⟩

/-- **Whether texts all come to an end** that are run one after the other. -/
def AllEnd : Session → List (List Char) → Prop
  | _, [] => True
  | session, first :: texts =>
    ∃ outcome behind, session.ComesTo first outcome behind ∧ behind.AllEnd texts

end Session

end Lox
