import Lox.Proofs.Steps
import Lox.Proofs.Lexical.Reference

/-!
# Strict runs and plain ones

A strict run does what a plain one does, unless it stops at an assignment to a variable in its own
initializer (`follows_interpret`).  The proof goes through the forms of the language one by one:
whatever is made of runs that follow others follows what is made of those.
-/

namespace Lox.Lexical

/-- Whether a run does what another one does, unless it stops at an assignment to a variable in its
own initializer. -/
def Follows {α : Type} (x y : Run α) : Prop :=
  ∀ s, x s = y s ∨ ∃ name s', x s = .error (.ownAssignment name) s'

namespace Follows

variable {α β : Type} {x y : Run α} {f g : α → Run β}

theorem refl (x : Run α) : Follows x x := fun _ => .inl rfl

theorem bind (h : Follows x y) (hfg : ∀ a, Follows (f a) (g a)) :
    Follows (x >>= f) (y >>= g) := by
  intro s
  rcases h s with hxy | ⟨name, s', hx⟩
  · cases hx : x s with
    | ok a s₁ =>
      rw [Steps.bind_of_ok hx, Steps.bind_of_ok (hxy ▸ hx)]
      exact hfg a s₁
    | error e s₁ =>
      rw [Steps.bind_of_error hx, Steps.bind_of_error (hxy ▸ hx)]
      exact .inl rfl
  · exact .inr ⟨name, s', Steps.bind_of_error hx⟩

theorem refl_bind (x : Run α) (hfg : ∀ a, Follows (f a) (g a)) : Follows (x >>= f) (x >>= g) :=
  (refl x).bind hfg

theorem bind_refl (h : Follows x y) (f : α → Run β) : Follows (x >>= f) (y >>= f) :=
  h.bind fun a => refl (f a)

theorem ite {c : Prop} [Decidable c] {x' y' : Run α} (h : Follows x y) (h' : Follows x' y') :
    Follows (if c then x else x') (if c then y else y') := by
  by_cases hc : c
  · rw [if_pos hc, if_pos hc]
    exact h
  · rw [if_neg hc, if_neg hc]
    exact h'

end Follows

section
variable {x x' : Expr → Run Value} {y y' : Env → Stmt → Run (Machine.Flow × Env)}

/-! ## Calls -/

theorem follows_runAll (h : ∀ env s, Follows (y env s) (y' env s)) :
    ∀ (ss : List Stmt) (env : Env), Follows (runAll y env ss) (runAll y' env ss)
  | [], _ => .refl _
  | first :: others, env => by
    refine (h env first).bind fun r => ?_
    obtain ⟨flow, behind⟩ := r
    cases flow with
    | normal => exact follows_runAll h others behind
    | returned v => exact .refl _

theorem follows_callFunction (h : ∀ env s, Follows (y env s) (y' env s)) (id : FunctionId)
    (args : List Value) : Follows (callFunction y id args) (callFunction y' id args) := by
  refine .refl_bind _ fun function => .refl_bind _ fun env => ?_
  exact (follows_runAll h _ env).bind_refl _

theorem follows_construct (h : ∀ env s, Follows (y env s) (y' env s)) (id : ClassId)
    (args : List Value) : Follows (construct y id args) (construct y' id args) := by
  refine .refl_bind _ fun receiver => .refl_bind _ fun s => ?_
  cases s.heap.findMethod? id initializerName with
  | none => exact .refl _
  | some init => exact .refl_bind _ fun bound => (follows_callFunction h bound args).bind_refl _

theorem follows_callValue (h : ∀ env s, Follows (y env s) (y' env s)) (line : Nat)
    (callee : Value) (args : List Value) :
    Follows (callValue y line callee args) (callValue y' line callee args) := by
  unfold callValue
  cases callee.callable? with
  | none => exact .refl _
  | some target =>
    refine .refl_bind _ fun s => .ite ?_ (.refl _)
    cases target with
    | native f => exact .refl _
    | function id => exact follows_callFunction h id args
    | cls id => exact follows_construct h id args

/-! ## Expressions and statements -/

theorem follows_evaluateAll (h : ∀ e, Follows (x e) (x' e)) (es : List Expr) :
    Follows (evaluateAll x es) (evaluateAll x' es) := by
  induction es with
  | nil => exact .refl _
  | cons first others ih => exact (h first).bind fun _ => ih.bind_refl _

/-- Only at an assignment it makes a difference which variable is being initialized. -/
theorem follows_evaluateWith (hx : ∀ e, Follows (x e) (x' e))
    (hy : ∀ env s, Follows (y env s) (y' env s)) (env : Env) (own : Option String) :
    ∀ e : Expr, Follows (evaluateWith x y env own e) (evaluateWith x' y' env none e)
  | .literal _ | .var _ | .this _ | .super _ _ => .refl _
  | .group inner => hx inner
  | .unary _ _ operand => (hx operand).bind_refl _
  | .binary left _ _ right => (hx left).bind fun _ => (hx right).bind_refl _
  | .logical left _ right => (hx left).bind fun _ => .ite (.refl _) (hx right)
  | .assign target value => by
    refine (hx value).bind fun v => ?_
    by_cases hown : own = some target.name.text
    · rw [if_pos hown]
      exact fun s => .inr ⟨_, s, rfl⟩
    · rw [if_neg hown]
      exact .refl _
  | .call callee line args =>
    (hx callee).bind fun f => (follows_evaluateAll hx args).bind fun vs =>
      follows_callValue hy line f vs
  | .get object _ => (hx object).bind_refl _
  | .set object name value => by
    refine (hx object).bind fun v => ?_
    cases v with
    | inst id => exact (hx value).bind_refl _
    | _ => exact .refl _

theorem follows_loop {c c' : Run Value} {b b' : Run Machine.Flow} (hc : Follows c c')
    (hb : Follows b b') : ∀ rounds : Nat, Follows (loop c b rounds) (loop c' b' rounds)
  | 0 => .refl _
  | rounds + 1 => by
    refine hc.bind fun v => .ite (hb.bind fun flow => ?_) (.refl _)
    cases flow with
    | normal => exact follows_loop hc hb rounds
    | returned v => exact .refl _

end

theorem follows_executeWith {x x' : Env → Option String → Expr → Run Value}
    {y y' : Env → Stmt → Run (Machine.Flow × Env)}
    (hx : ∀ env own e, Follows (x env own e) (x' env none e))
    (hy : ∀ env s, Follows (y env s) (y' env s)) (rounds : Nat) (env : Env) :
    ∀ s : Stmt, Follows (executeWith true x y rounds env s) (executeWith false x' y' rounds env s)
  | .expr value | .print value => (hx env none value).bind_refl _
  | .var name none => .refl _
  | .var name (some initializer) => (hx env _ initializer).bind_refl _
  | .block body => (follows_runAll hy body env.inside).bind_refl _
  | .ifElse condition thenBranch elseBranch => by
    refine (hx env none condition).bind fun v => .ite ((hy env thenBranch).bind_refl _) ?_
    cases elseBranch with
    | none => exact .refl _
    | some branch => exact (hy env branch).bind_refl _
  | .whileDo condition body =>
    (follows_loop (hx env none condition) ((hy env body).bind_refl _) rounds).bind_refl _
  | .function _ | .classDecl _ _ _ => .refl _
  | .ret _ none => .refl _
  | .ret _ (some value) => (hx env none value).bind_refl _

mutual

theorem follows_evaluate : ∀ (fuel : Nat) (env : Env) (own : Option String) (e : Expr),
    Follows (evaluate true fuel env own e) (evaluate false fuel env none e)
  | 0, _, _, _ => .refl _
  | fuel + 1, env, own, e =>
    follows_evaluateWith (fun e => follows_evaluate fuel env own e) (follows_execute fuel) env own e

theorem follows_execute : ∀ (fuel : Nat) (env : Env) (s : Stmt),
    Follows (execute true fuel env s) (execute false fuel env s)
  | 0, _, _ => .refl _
  | fuel + 1, env, s =>
    follows_executeWith (follows_evaluate fuel) (follows_execute fuel) fuel env s

end

theorem follows_runProgram (fuel : Nat) :
    ∀ program : Program, Follows (runProgram true fuel program) (runProgram false fuel program)
  | [] => .refl _
  | first :: others =>
    (follows_execute fuel .global first).bind fun _ => follows_runProgram fuel others

/-- **A strict run of a program follows the plain one.** -/
theorem follows_interpret (fuel : Nat) (program : Program) :
    Follows (interpret true fuel program) (interpret false fuel program) :=
  (follows_runProgram fuel program).bind_refl _

end Lox.Lexical
