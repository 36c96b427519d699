import Lox.Proofs.Loops.Direct

/-!
# A scope without names

A block that declares nothing opens a scope without names.  What is run in it meets the same
variables as outside (`evaluate_inside`, `flow_inside`), and a statement leaves the map of names as it
was (`execute_statement`).
-/

namespace Lox.Lexical

variable {strict : Bool}

/-- How a statement ends, whatever it declares. -/
def flowOf (x : Run (Machine.Flow × Env)) : Run Machine.Flow := do
  let (flow, _) ← x
  return flow

theorem flowOf_bind {α : Type} (x : Run α) (f : α → Run (Machine.Flow × Env)) :
    flowOf (x >>= f) = x >>= fun a => flowOf (f a) := by
  unfold flowOf
  exact bind_assoc x f _

theorem flowOf_pure (flow : Machine.Flow) (env : Env) :
    flowOf (pure (flow, env)) = pure flow := by
  unfold flowOf
  exact pure_bind _ _

theorem flowOf_within (env : Env) (x : Run (Machine.Flow × Env)) :
    flowOf (within env x) = flowOf x := by
  unfold within
  rw [flowOf_bind]
  simp only [flowOf_pure]
  rfl

/-! ## Expressions -/

/-- One step into an expression, which does not see whether its place is inside a block. -/
theorem evaluateWith_inside (evaluate : Expr → Run Value)
    (execute : Env → Stmt → Run (Machine.Flow × Env)) (env : Env) (own : Option String)
    (e : Expr) :
    evaluateWith evaluate execute env.inside own e = evaluateWith evaluate execute env own e := by
  cases e <;> rfl

/-- **An expression means the same** in a scope without names. -/
theorem evaluate_inside (fuel : Nat) (env : Env) (own : Option String) (e : Expr) :
    evaluate strict fuel env.inside own e = evaluate strict fuel env own e := by
  induction fuel generalizing e with
  | zero => rfl
  | succ fuel ih =>
    have hparts : evaluate strict fuel env.inside own = evaluate strict fuel env own := funext ih
    rw [evaluate, evaluate, hparts, evaluateWith_inside]

/-! ## Statements -/

theorem within_bind {α : Type} (env : Env) (x : Run α) (f : α → Run (Machine.Flow × Env)) :
    within env (x >>= f) = x >>= fun a => within env (f a) := by
  unfold within
  exact bind_assoc x f _

theorem within_pure (env behind : Env) (flow : Machine.Flow) :
    within env (pure (flow, behind)) = pure (flow, env) := by
  unfold within
  exact pure_bind _ _

theorem within_within (env behind : Env) (x : Run (Machine.Flow × Env)) :
    within env (within behind x) = within env x := by
  have hinner : within behind x = x >>= fun ends => pure (ends.1, behind) := rfl
  rw [hinner, within_bind]
  simp only [within_pure]
  rfl

/-- **A statement leaves the names** as they are. -/
theorem execute_statement (fuel : Nat) (env : Env) {s : Stmt} (hs : s.isStatement = true) :
    within env (execute strict fuel env s) = execute strict fuel env s := by
  cases fuel with
  | zero => rfl
  | succ fuel =>
    rw [execute]
    cases s with
    | var | function | classDecl => cases hs
    | ifElse condition thenBranch elseBranch =>
      simp only [executeWith, within_bind]
      congr 1
      funext value
      cases value.isTruthy with
      | true => exact within_within _ _ _
      | false =>
        cases elseBranch with
        | none => exact within_pure _ _ _
        | some branch => exact within_within _ _ _
    | expr | print | block | whileDo | ret =>
      simp only [executeWith, within_bind, within_pure]

theorem flow_branch {fuel : Nat} {env : Env} {s : Stmt}
    (h : flowOf (execute strict fuel env.inside s) = flowOf (execute strict fuel env s)) :
    flowOf (within env.inside (execute strict fuel env.inside s)) =
      flowOf (within env (execute strict fuel env s)) := by
  rw [flowOf_within, flowOf_within, h]

/-- **A statement does the same** in a scope without names. -/
theorem flow_inside : ∀ (fuel : Nat) (env : Env) {s : Stmt}, s.isStatement = true →
    flowOf (execute strict fuel env.inside s) = flowOf (execute strict fuel env s)
  | 0, _, _, _ => rfl
  | fuel + 1, env, s, hs => by
    have hexpr (own : Option String) :
        evaluate strict fuel env.inside own = evaluate strict fuel env own :=
      funext (evaluate_inside fuel env own)
    rw [execute, execute]
    cases s with
    | var | function | classDecl => cases hs
    | expr | print | ret => simp only [executeWith, hexpr, flowOf_bind, flowOf_pure]
    | block body =>
      simp only [executeWith, flowOf_bind, flowOf_pure]
      rfl
    | ifElse condition thenBranch elseBranch =>
      cases elseBranch with
      | none =>
        simp only [executeWith, hexpr, flowOf_bind]
        congr 1
        funext value
        cases value.isTruthy with
        | true => exact flow_branch (flow_inside fuel env hs)
        | false => rfl
      | some branch =>
        obtain ⟨hthen, helse⟩ := Bool.and_eq_true_iff.mp hs
        simp only [executeWith, hexpr, flowOf_bind]
        congr 1
        funext value
        cases value.isTruthy with
        | true => exact flow_branch (flow_inside fuel env hthen)
        | false => exact flow_branch (flow_inside fuel env helse)
    | whileDo condition body =>
      have hround : flowOf (execute strict fuel env.inside body) =
        flowOf (execute strict fuel env body) := flow_inside fuel env hs
      simp only [executeWith, hexpr, flowOf_bind, flowOf_pure]
      exact congrArg (fun round => loop _ round fuel >>= fun flow => pure flow) hround

end Lox.Lexical
