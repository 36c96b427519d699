import Lox.Proofs.Grammar.Completeness.Stmt
import Lox.Proofs.Loops.Scopes

/-!
# Counting loops mean what their trees do

The tree that the parser builds of a counting loop does what the loop does when it is run directly
(`execute_tree`), with every amount of fuel.  So whichever trees are read as loops, running them
directly changes nothing (`steps_eq`), and what the machine does with the distances of the tree is
what the direct rule says (`Session.loops_direct`).
-/

namespace Lox

/-- The statement that the tree of a loop repeats: the body, with the increment behind it. -/
def Loop.bodyTree (loop : Loop) : Stmt :=
  match loop.increment with
  | some step => .block [loop.body, .expr step]
  | none => loop.body

/-- The condition of the tree. -/
def Loop.conditionTree (loop : Loop) : Expr :=
  loop.condition.getD (.literal (.bool true))

theorem Loop.tree_eq (loop : Loop) : loop.tree =
    match loop.initializer with
    | some first => .block [first, .whileDo loop.conditionTree loop.bodyTree]
    | none => .whileDo loop.conditionTree loop.bodyTree := rfl

namespace Lexical

variable {strict : Bool}

/-- Runs by lexical scoping, with so much fuel. -/
def plainSteps (strict : Bool) (fuel : Nat) : Steps :=
  ⟨evaluate strict fuel, execute strict fuel⟩

/-! ## Rounds -/

theorem flowOf_bind_left {α : Type} (x : Run (Machine.Flow × Env)) (f : Machine.Flow → Run α) :
    flowOf x >>= f = x >>= fun ends => f ends.1 := by
  unfold flowOf
  exact (bind_assoc x _ f).trans (congrArg (x >>= ·) (funext fun _ => pure_bind _ _))

/-- What comes behind a statement meets the names in front of it. -/
theorem statement_bind {α : Type} (fuel : Nat) (env : Env) {s : Stmt} (hs : s.isStatement = true)
    (f : Machine.Flow × Env → Run α) : execute strict fuel env s >>= f =
      flowOf (execute strict fuel env s) >>= fun flow => f (flow, env) := by
  have hends : execute strict fuel env s =
      flowOf (execute strict fuel env s) >>= fun flow => pure (flow, env) := by
    rw [flowOf_bind_left]
    exact (execute_statement fuel env hs).symm
  calc execute strict fuel env s >>= f
      = (flowOf (execute strict fuel env s) >>= fun flow => pure (flow, env)) >>= f :=
        congrArg (· >>= f) hends
    _ = flowOf (execute strict fuel env s) >>= fun flow => f (flow, env) := by
        rw [bind_assoc]
        simp only [pure_bind]

theorem conditionHolds_eq (fuel : Nat) (scope : Env) (loop : Loop) :
    conditionHolds (plainSteps strict (fuel + 1)) scope loop.condition =
      evaluate strict (fuel + 1) scope none loop.conditionTree >>=
        fun value => pure value.isTruthy := by
  unfold Loop.conditionTree
  cases loop.condition <;> rfl

theorem runAll_increment (fuel : Nat) (scope : Env) (step : Expr) :
    runAll (execute strict (fuel + 1)) scope.inside [.expr step] =
      increment (plainSteps strict fuel) scope (some step) >>= fun _ => pure .normal := by
  have hstep : execute strict (fuel + 1) scope.inside (.expr step) =
      evaluate strict fuel scope none step >>= fun _ => pure (.normal, scope.inside) := by
    rw [execute, executeWith, evaluate_inside]
  rw [runAll, hstep, bind_assoc]
  simp only [increment, bind_assoc, pure_bind]
  rfl

/-- **The body of the tree** is the body of the loop, and then its increment. -/
theorem body_eq (fuel : Nat) (scope : Env) (loop : Loop) :
    flowOf (execute strict (fuel + 1) scope loop.bodyTree) =
      flowOf ((plainSteps strict (fuel + 1 - bodyDepth loop)).execute scope loop.body) >>=
        fun
        | .normal =>
          increment (plainSteps strict (fuel + 1 - (bodyDepth loop + 1))) scope loop.increment >>=
            fun _ => pure .normal
        | .returned value => pure (.returned value) := by
  obtain ⟨initializer, condition, step, body, hbody⟩ := loop
  cases step with
  | none =>
    have hflow : pure = fun flow : Machine.Flow => match flow with
        | .normal => (pure () >>= fun _ => pure .normal : Run Machine.Flow)
        | .returned value => pure (.returned value) := by
      funext flow
      cases flow <;> rfl
    exact (bind_pure _).symm.trans (congrArg (flowOf _ >>= ·) hflow)
  | some step =>
    -- The block's scope has no names, and the body leaves none there.
    have hblock : flowOf (execute strict (fuel + 1) scope (.block [body, .expr step])) =
        flowOf (execute strict fuel scope body) >>= fun
          | .normal => runAll (execute strict fuel) scope.inside [.expr step]
          | .returned value => pure (.returned value) := by
      rw [← flow_inside fuel scope hbody, execute, executeWith, flowOf_bind]
      simp only [flowOf_pure, bind_pure]
      exact statement_bind fuel scope.inside hbody _
    rw [Loop.bodyTree, hblock]
    cases fuel with
    | zero => rfl
    | succ fuel =>
      simp only [runAll_increment]
      rfl

/-- **The rounds of the tree** are those of the loop. -/
theorem loop_eq (fuel : Nat) (scope : Env) (loop : Loop) : ∀ left : Nat, left ≤ fuel →
    Lexical.loop (evaluate strict fuel scope none loop.conditionTree)
        (flowOf (execute strict fuel scope loop.bodyTree)) left =
      rounds (fun depth => plainSteps strict (fuel - depth)) scope loop left
  | 0, _ => rfl
  | left + 1, hleft => by
    obtain ⟨fuel, rfl⟩ : ∃ f, fuel = f + 1 := ⟨fuel - 1, by omega⟩
    have hothers := loop_eq (fuel + 1) scope loop left (by omega)
    rw [Lexical.loop, rounds, hothers, body_eq]
    show _ = conditionHolds (plainSteps strict (fuel + 1)) scope loop.condition >>= _
    rw [conditionHolds_eq]
    simp only [bind_assoc, pure_bind, flowOf_bind_left]
    congr 1
    funext value
    cases value.isTruthy with
    | false => rfl
    | true =>
      refine congrArg (_ >>= ·) (funext fun ends => ?_)
      obtain ⟨flow, behind⟩ := ends
      cases flow with
      | normal => simp only [bind_assoc, pure_bind]
      | returned value => rfl

/-- **The tree of a loop** does what the loop does. -/
theorem execute_tree (fuel : Nat) (env : Env) (loop : Loop) :
    execute strict (fuel + 1) env loop.tree =
      runLoop fuel (fun depth => plainSteps strict (fuel - depth)) env loop := by
  have hwhile (fuel : Nat) (scope : Env) :
      execute strict (fuel + 1) scope (.whileDo loop.conditionTree loop.bodyTree) =
        rounds (fun depth => plainSteps strict (fuel - depth)) scope loop fuel >>=
          fun flow => pure (flow, scope) := by
    rw [execute, executeWith, ← loop_eq fuel scope loop fuel (Nat.le_refl _)]
    rfl
  rw [Loop.tree_eq, runLoop]
  cases loop.initializer with
  | none => exact hwhile fuel env
  | some first =>
    cases fuel with
    | zero =>
      rw [execute, executeWith]
      rfl
    | succ fuel =>
      rw [execute, executeWith, runAll, bind_assoc]
      refine congrArg (_ >>= ·) (funext fun ends => ?_)
      obtain ⟨flow, scope⟩ := ends
      cases flow with
      | returned value => exact pure_bind _ _
      | normal =>
        have hdepth : (fun depth => plainSteps strict (fuel + 1 - (depth + 1))) =
            fun depth => plainSteps strict (fuel - depth) :=
          funext fun depth => by rw [Nat.succ_sub_succ]
        dsimp only
        rw [runAll, hwhile]
        simp only [hdepth, Nat.add_sub_cancel, bind_assoc, pure_bind]
        refine congrArg (_ >>= ·) (funext fun flow => ?_)
        cases flow with
        | normal => exact pure_bind _ _
        | returned value => exact pure_bind _ _

/-! ## Programs -/

/-- **Loops that are run directly** change nothing, however deep they stand. -/
theorem steps_eq (reading : Reading) : ∀ fuel depth : Nat,
    Direct.steps reading strict fuel depth = plainSteps strict (fuel - depth)
  | 0, depth => by
    rw [Direct.steps, Nat.zero_sub]
    rfl
  | fuel + 1, depth + 1 => by
    rw [Direct.steps, steps_eq reading fuel depth, Nat.succ_sub_succ]
  | fuel + 1, 0 => by
    have hless : Direct.steps reading strict fuel =
        fun depth => plainSteps strict (fuel - depth) := funext (steps_eq reading fuel)
    have hexecute : (Direct.stepsWith reading strict fuel
        fun depth => plainSteps strict (fuel - depth)).execute = execute strict (fuel + 1) := by
      funext env s
      cases hloop : reading.loop? s with
      | none =>
        rw [execute, Direct.stepsWith]
        simp only [hloop]
        rfl
      | some loop =>
        rw [← reading.tree_eq s loop hloop, execute_tree, Direct.stepsWith,
          reading.tree_eq s loop hloop]
        simp only [hloop]
    have hevaluate : (Direct.stepsWith reading strict fuel
        fun depth => plainSteps strict (fuel - depth)).evaluate = evaluate strict (fuel + 1) := by
      funext env own e
      rw [evaluate]
      rfl
    rw [Direct.steps, hless, Nat.sub_zero, plainSteps, ← hexecute, ← hevaluate]

theorem interpret_direct (reading : Reading) (fuel : Nat) (program : Program) :
    Direct.interpret reading strict fuel program = interpret strict fuel program := by
  have hprogram : ∀ program : Program,
      Direct.runProgram reading strict fuel program = runProgram strict fuel program := by
    intro program
    induction program with
    | nil => rfl
    | cons first others ih =>
      rw [Direct.runProgram, runProgram, ih, steps_eq]
      rfl
  rw [Direct.interpret, interpret, hprogram]

theorem run_direct (reading : Reading) (session : Session) (fuel : Nat) (text : List Char) :
    Direct.run reading strict session fuel text = session.run strict fuel text := by
  cases hcheck : Lox.Session.check text session.nextId with
  | mk result nextId =>
    cases result with
    | error faults => simp only [Direct.run, Session.run, hcheck]
    | ok accepted => simp only [Direct.run, Session.run, hcheck, interpret_direct]

theorem after_direct (reading : Reading) (session : Session) (texts : List (Nat × List Char)) :
    Direct.after reading strict session texts = session.after strict texts := by
  unfold Direct.after Session.after
  simp only [run_direct]

end Lexical

/-! ## Loops as they are written -/

open Grammar

/-- Whether a counting loop is spelled by these tokens, clause by clause. -/
def Loop.Spelled (loop : Loop) (n : NodeId) (ts : List Token) (n' : NodeId) : Prop :=
  ∃ (keyword start middle close : Token) (isOpen : Bool) (ts₁ ts₂ ts₃ ts₄ : List Token)
    (n₁ n₂ n₃ : NodeId),
    keyword.kind = .keyword .for ∧ start.kind = .symbol .leftParen ∧
    DerivesInitializer loop.initializer n ts₁ n₁ ∧ DerivesOptional loop.condition n₁ ts₂ n₂ ∧
    middle.kind = .symbol .semicolon ∧ DerivesOptional loop.increment n₂ ts₃ n₃ ∧
    close.kind = .symbol .rightParen ∧
    (Sentence.statement loop.body isOpen).Derives n₃ ts₄ n' ∧
    ts = keyword :: start :: (ts₁ ++ (ts₂ ++ middle :: (ts₃ ++ close :: ts₄)))

/-- What a derivation says of the tree of a statement. -/
def Grammar.Sentence.TreeIsStatement : Sentence → Prop
  | .statement s _ => s.isStatement = true
  | _ => True

theorem Stmt.isStatement_forLoop (initializer : Option Stmt) (condition increment : Option Expr)
    {body : Stmt} (h : body.isStatement = true) :
    (Stmt.forLoop initializer condition increment body).isStatement = true := by
  cases initializer with
  | some first => rfl
  | none =>
    cases increment with
    | some step => rfl
    | none => exact h

theorem Grammar.Sentence.Derives.isStatement {sentence : Sentence} {n n' : NodeId}
    {ts : List Token} (h : sentence.Derives n ts n') : sentence.TreeIsStatement := by
  induction h with
  | forLoop _ _ _ _ _ _ _ _ ih => exact Stmt.isStatement_forLoop _ _ _ ih
  | ifThen _ _ _ _ _ ih => exact ih
  | ifElse _ _ _ _ _ _ _ ihthen ihelse => exact Bool.and_eq_true_iff.mpr ⟨ihthen, ihelse⟩
  | whileDo _ _ _ _ _ ih => exact ih
  | expr | print | ret | block => rfl
  | _ => trivial

/-- **What begins with `for`** is a counting loop, and its tree is that of the loop. -/
theorem Loop.exists_spelled {s : Stmt} {isOpen : Bool} {n n' : NodeId} {first : Token}
    {ts : List Token} (h : (Sentence.statement s isOpen).Derives n (first :: ts) n')
    (hfirst : first.kind = .keyword .for) :
    ∃ loop : Loop, loop.Spelled n (first :: ts) n' ∧ loop.tree = s := by
  obtain ⟨all, hall⟩ : ∃ all, all = first :: ts := ⟨_, rfl⟩
  rw [← hall] at h ⊢
  cases h with
  | @forLoop keyword start middle close initializer condition increment body _ ts₁ ts₂ ts₃ ts₄ _ n₁ n₂
      n₃ _ hkeyword hstart hinitializer hcondition hmiddle hincrement hclose hbody =>
    exact ⟨⟨initializer, condition, increment, body, hbody.isStatement⟩,
      ⟨keyword, start, middle, close, isOpen, ts₁, ts₂, ts₃, ts₄, n₁, n₂, n₃, hkeyword, hstart,
        hinitializer, hcondition, hmiddle, hincrement, hclose, hbody, rfl⟩, rfl⟩
  | expr h =>
    obtain ⟨t, ts', rfl, ht⟩ := h.starts
    cases hall
    rw [hfirst] at ht
    cases ht
  | ifThen hkeyword | ifElse hkeyword | print hkeyword | ret hkeyword | whileDo hkeyword
  | block hkeyword =>
    cases hall
    rw [hfirst] at hkeyword
    cases hkeyword

/-- There is a reading that reads every tree of a counting loop as one. -/
theorem Reading.exists_full : ∃ reading : Reading, ∀ loop : Loop,
    ∃ loop', reading.loop? loop.tree = some loop' := by
  classical
  let loop? (s : Stmt) : Option Loop :=
    if h : ∃ loop : Loop, loop.tree = s then some h.choose else none
  refine ⟨⟨loop?, fun s loop h => ?_⟩, fun loop => ⟨_, dif_pos ⟨loop, rfl⟩⟩⟩
  by_cases hs : ∃ loop : Loop, loop.tree = s
  · have hloop : loop? s = some hs.choose := dif_pos hs
    rw [hloop] at h
    cases h
    exact hs.choose_spec
  · have hloop : loop? s = none := dif_neg hs
    rw [hloop] at h
    cases h

namespace Lexical

/-- **Counting loops mean what the direct rule says.**  A statement that begins with `for` is a
counting loop, whose tree the parser builds, and there is a reading by which all trees of counting
loops are run directly.  A body leaves the names of the loop's scope as they were: the increment, the
condition and the next round meet the same variables.  By whatever reading trees are run directly, a
session of the machine, which runs the parser's trees by their distances, does the same with every
text, behind any texts and with every amount of fuel: both come to the same and leave the same output,
variables and objects behind.  (A strict run stops at an assignment to a variable in its own
initializer, where the machine fails by itself; all other runs are plain ones.) -/
theorem Session.loops_direct :
    (∀ (s : Stmt) (isOpen : Bool) (n n' : NodeId) (first : Token) (ts : List Token),
      (Sentence.statement s isOpen).Derives n (first :: ts) n' → first.kind = .keyword .for →
      ∃ loop : Loop, loop.Spelled n (first :: ts) n' ∧ loop.tree = s) ∧
    (∃ reading : Reading, ∀ loop : Loop, ∃ loop', reading.loop? loop.tree = some loop') ∧
    (∀ (loop : Loop) (strict : Bool) (fuel : Nat) (scope : Env),
      within scope (execute strict fuel scope loop.body) = execute strict fuel scope loop.body) ∧
    ∀ (reading : Reading) (sink : Sink) (clock : Clock) (texts : List (Nat × List Char))
      (fuel : Nat) (text : List Char),
      let machine := ((Lox.Session.initial sink clock).after texts).run fuel text
      let before := Direct.after reading true (initial sink clock) texts
      let strict := Direct.run reading true before fuel text
      let plain := Direct.run reading false before fuel text
      Corresponds machine.1 strict.1 ∧ SameContents machine.2.machine strict.2.state ∧
        (¬machine.1.IsInternal →
          plain.1 = .ok machine.1 ∧ SameContents machine.2.machine plain.2.state) ∧
        ((∀ outcome ∈ (Lox.Session.initial sink clock).outcomes texts, ¬outcome.IsInternal) →
          before = Direct.after reading false (initial sink clock) texts) := by
  refine ⟨fun s isOpen n n' first ts h hfirst => Loop.exists_spelled h hfirst,
    Reading.exists_full, fun loop strict fuel scope => execute_statement fuel scope loop.isStatement,
    fun reading sink clock texts fuel text => ?_⟩
  have hagrees := (agrees_initial sink clock).after texts
  obtain ⟨hbehind, hcorresponds⟩ := hagrees.run fuel text
  simp only [run_direct, after_direct]
  refine ⟨hcorresponds, hbehind.sameContents, fun hplain => ?_,
    (agrees_initial sink clock).after_plain texts⟩
  obtain ⟨houtcome, hsame⟩ := hagrees.run_plain hplain
  rw [hsame] at houtcome ⊢
  exact ⟨houtcome, hbehind.sameContents⟩

/-- Functions that are made in different rounds share the variable of the loop. -/
example : ((Lox.Session.initial .unbounded (.constant 0)).run 30
    "var f; for (var i = 0; i < 3; i = i + 1) \x7b fun g() \x7b print i; \x7d if (i == 0) f = g; \x7d
      f();".toList).2.machine.sink.written = "3\n".toUTF8 := by
  decide +kernel

end Lexical

end Lox
